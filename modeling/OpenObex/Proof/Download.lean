import OpenObex.Proof.LowLevel

/-!
# The buffer of a download

What has been received is what `obex_read` has returned and what is in the window (`InDownload`), as
long as a fragment finds the window empty: it is copied to the start of the window, not to its end. The
request is suspended while there is something to read and no packet is sent then, so a peer that only
answers finds the window empty, and one fragment in a response can do no harm. But `obex_read` needs the
request, and when it has ended, for whatever reason, what is left in the window is lost.
-/

namespace OpenObex

open Mem Prog

/-- There is something to read exactly while the request is suspended, and no packet is with the peer
then. -/
structure Receiving (s : LowLevel) (w : Window) (o : StreamObject) : Prop where
  buffered : Buffered s.context w
  received : s.received = s.obtained ++ w.contents
  object : s.object = some o
  cmd : o.cmd = cmdGet
  suspend : o.suspend = true ↔ 0 < w.len
  asked : s.asked = true → w.len = 0

/-- The request has ended. -/
structure Ended (s : LowLevel) : Prop where
  object : s.object = none
  received : s.received = s.obtained
  dataLength : s.context.dataLength = 0

def InDownload (s : LowLevel) : Prop := (∃ w o, Receiving s w o) ∨ Ended s

/-- A fragment of the body comes when all before it has been read, and one at a time; so does the end of
the request, which brings none. -/
def allRead : LowLevelGuard where
  op x s := match x with
    | .handleResponse bodies .rspContinue =>
      (bodies.filter fun b => b.2 ≠ []).length + (if s.context.dataLength = 0 then 0 else 1) ≤ 1
    | .handleResponse bodies _ => s.context.dataLength = 0 ∧ bodies.filter (fun b => b.2 ≠ []) = []
    | .linkErr => s.context.dataLength = 0
    | _ => true

section

variable {s : LowLevel} {w : Window} {o : StreamObject} {E : Stop → LowLevel → Prop} {W : LowLevelEnv}

theorem Receiving.empty_iff (h : Receiving s w o) : s.context.dataLength = 0 ↔ w.len = 0 := by
  rw [h.buffered.length]
  exact Int.natCast_eq_zero

theorem Receiving.drained (h : Receiving s w o) (hempty : w.len = 0) : s.received = s.obtained := by
  have hnone : w.contents = [] := List.eq_nil_of_length_eq_zero (Window.length_contents.trans hempty)
  rw [h.received, hnone, List.append_nil]

theorem Receiving.ended (h : Receiving s w o) (hempty : w.len = 0) {events : List Event} {sends : Nat}
    {asked : Bool} :
    Ended { s with context := { s.context with events }, object := none, sends, asked } :=
  ⟨rfl, h.drained hempty, h.empty_iff.2 hempty⟩

theorem wp_downloadResume (hbuffered : Buffered s.context w) (hempty : w.len = 0)
    (hall : s.received = s.obtained) (ho : s.object = some o) (hcmd : o.cmd = cmdGet) :
    wp (resumeRequest W) (fun _ s' => InDownload s' ∧ s'.received = s.received ∧
      s'.obtained = s.obtained) E s := by
  have hnone : w.contents = [] := List.eq_nil_of_length_eq_zero (Window.length_contents.trans hempty)
  have hreceived : s.received = s.obtained ++ w.contents := by rw [hall, hnone, List.append_nil]
  refine wp_resumeRequest ?_ ?_ ?_
  · intro hoff
    rw [ho] at hoff
    have hnot : ¬ o.suspend = true := fun hon => Bool.noConfusion (hon.symm.trans hoff)
    exact ⟨.inl ⟨w, o, hbuffered, hreceived, ho, hcmd, ⟨fun hon => (hnot hon).elim, by omega⟩, fun _ =>
      hempty⟩, rfl, rfl⟩
  · intro o' firstPacketSent continueReceived sends asked ho'
    have hsame : o' = o := Option.some_inj.1 (ho'.symm.trans ho)
    subst hsame
    refine ⟨.inl ⟨w, _, hbuffered, hreceived, rfl, hcmd, ?_, fun _ => hempty⟩, rfl, rfl⟩
    exact ⟨fun hon => Bool.noConfusion hon, by omega⟩
  · intro events sends asked
    refine ⟨.inr ⟨rfl, hall, ?_⟩, rfl, rfl⟩
    show s.context.dataLength = 0
    rw [hbuffered.length, hempty]
    rfl

/-! ## Reading -/

/-- The bytes come from the front of the window, and when it is empty the request goes on. -/
theorem wp_obexRead (h : Receiving s w o) (count : Nat) :
    wp (obexRead W count) (fun _ s' => InDownload s' ∧ s'.received = s.received ∧
      s'.obtained = s.obtained ++ w.contents.take count) E s := by
  have hstart := h.buffered.start
  have hlength := h.buffered.length
  have hstop := h.buffered.stop_le
  unfold obexRead
  rw [wp_bind]
  refine wp_currentCommand h.object ?_
  rw [h.cmd, if_neg (fun hne => hne rfl), wp_bind, wp_get]
  dsimp only
  by_cases hempty : s.context.dataLength = 0
  · rw [if_pos hempty, wp_pure]
    have hnone : w.contents = [] :=
      w.contents.eq_nil_of_length_eq_zero (by rw [Window.length_contents]; omega)
    refine ⟨.inl ⟨w, o, h⟩, rfl, ?_⟩
    rw [hnone, List.take_nil, List.append_nil]
  · have hsize : sizeT s.context.dataLength = w.len := by
      rw [hlength]
      exact sizeT_ofNat (by omega)
    rw [if_neg hempty, hsize]
    -- what is copied: `count`, or all there is
    set n := if count < w.len then count else w.len with hn
    have hle : n ≤ w.len := by
      rw [hn]
      split_ifs <;> omega
    have htake : w.contents.take count = w.contents.take n := by
      rw [hn]
      split_ifs with hcount
      · rfl
      · rw [List.take_of_length_le (by rw [Window.length_contents]; omega),
          List.take_of_length_le (Nat.le_of_eq Window.length_contents)]
    have hbuflen : s.context.buf.length = 32767 := by
      rw [h.buffered.buf, h.buffered.size]
      rfl
    have hdata : slice s.context.buf s.context.dataStart.toNat n = w.contents.take n := by
      rw [h.buffered.buf, hstart, Int.toNat_natCast, Window.slice_front hle]
    have hleft : i32 (s.context.dataLength - n) = s.context.dataLength - n := by
      unfold i32
      omega
    have hnext : i32 (s.context.dataStart + n) = s.context.dataStart + n := by
      unfold i32
      omega
    have hreceived : s.received = (s.obtained ++ w.contents.take n) ++ (w.pull n hle).contents := by
      rw [h.received, List.append_assoc, ← Window.slice_front hle, ← Window.contents_pull hle]
    rw [wp_bind]
    refine wp_copyFromBuf ⟨by omega, by omega⟩ ?_
    rw [hdata, hleft, wp_bind, wp_modify, wp_bind, wp_ite, htake]
    constructor
    · intro hmore
      have hne : n ≠ w.len := by omega
      have hsuspended : o.suspend = true ↔ 0 < w.len - n := by
        rw [h.suspend]
        omega
      have hasked : s.asked = true → w.len - n = 0 := fun hasked => by
        have hzero := h.asked hasked
        omega
      refine ⟨.inl ⟨w.pull n hle, o, h.buffered.pull hle rfl ?_ rfl, hreceived, h.object, h.cmd,
        hsuspended, hasked⟩, rfl, rfl⟩
      rw [if_neg hne]
      exact hnext
    · intro hdone
      -- the window has become empty, so the request is resumed
      have hall : n = w.len := by omega
      have hnone : (w.pull n hle).contents = [] :=
        List.eq_nil_of_length_eq_zero
          (Window.length_contents.trans (Nat.sub_eq_zero_of_le (Nat.le_of_eq hall.symm)))
      rw [hnone, List.append_nil] at hreceived
      rw [wp_bind, wp_modifyContext]
      refine wp_downloadResume (h.buffered.pull hle rfl ?_ rfl) ?_ hreceived h.object h.cmd
      · rw [if_pos hall]
      · exact Nat.sub_eq_zero_of_le (Nat.le_of_eq hall.symm)

/-! ## Responses -/

theorem wp_obexReadstream_nil {Q : Unit → LowLevel → Prop} (hq : Q () s) :
    wp (obexReadstream W []) Q E s := hq

/-- A fragment that finds the window empty. -/
theorem wp_obexReadstream (h : Receiving s w o) (hempty : w.len = 0) {fragment : Bytes}
    (hpos : fragment ≠ []) (hsize : fragment.length ≤ obexLowlevelBufSize) {Q : Unit → LowLevel → Prop}
    (hasked : s.asked = false) (hq : ∀ s' w' o', Receiving s' w' o' → s'.asked = false → Q () s') :
    wp (obexReadstream W fragment) Q E { s with received := s.received ++ fragment } := by
  have hstart := h.buffered.start
  have hlength := h.buffered.length
  have hzero := h.buffered.home hempty
  have hlen := List.length_pos_iff.2 hpos
  have hbuflen : s.context.buf.length = 32767 := by
    rw [h.buffered.buf, h.buffered.size]
    rfl
  have hroom : fragment.length ≤ w.room := by
    rw [Window.room, Window.stop, h.buffered.size]
    omega
  unfold obexLowlevelBufSize at hsize
  unfold obexReadstream
  dsimp only
  rw [if_neg (by omega), wp_bind, wp_get]
  dsimp only
  rw [h.buffered.freeSpace, if_neg (by omega), wp_bind]
  refine wp_copyToBuf ⟨?_, ?_⟩ ?_
  · show 0 ≤ s.context.dataStart
    omega
  · show s.context.dataStart + fragment.length ≤ s.context.buf.length
    omega
  · rw [wp_bind, wp_modifyContext, wp_bind, suspendRequest, wp_modifyObject]
    refine wp_queueEvent fun events => hq _ (w.push fragment hroom) { o with suspend := true } ?_ hasked
    refine ⟨h.buffered.push hroom ?_ rfl rfl, ?_, ?_, h.cmd, ?_, fun hon => ?_⟩
    · show Mem.write s.context.buf s.context.dataStart.toNat fragment = Mem.write w.block
        w.stop fragment
      rw [h.buffered.buf, Window.stop, hempty, hstart, Int.toNat_natCast, Nat.add_zero]
    · show s.received ++ fragment = s.obtained ++ _
      rw [h.received, Window.contents_push, List.append_assoc]
    · show s.object.map _ = _
      rw [h.object]
      rfl
    · show true = true ↔ 0 < w.len + fragment.length
      exact ⟨fun _ => by omega, fun _ => rfl⟩
    · exact Bool.noConfusion (hon.symm.trans hasked)

theorem wp_receiveStream_nil {bodyEnd : Bool} {Q : Unit → LowLevel → Prop} (hq : Q () s) :
    wp (receiveStream W bodyEnd []) Q E s := by
  unfold receiveStream
  rw [wp_ite]
  refine ⟨fun _ => hq, fun _ => ?_⟩
  rw [wp_bind, wp_modify, wp_bind, List.append_nil]
  refine wp_obexReadstream_nil ?_
  rw [if_neg fun hb => hb.2 rfl]
  exact hq

theorem wp_receiveStream (h : Receiving s w o) (hempty : w.len = 0) {bodyEnd : Bool} {source : Bytes}
    (hpos : source ≠ []) (hsize : source.length ≤ obexLowlevelBufSize) {Q : Unit → LowLevel → Prop}
    (hasked : s.asked = false) (hq : ∀ s' w' o', Receiving s' w' o' → s'.asked = false → Q () s') :
    wp (receiveStream W bodyEnd source) Q E s := by
  unfold receiveStream
  rw [if_neg fun hb => hpos hb.2, wp_bind, wp_modify, wp_bind]
  refine wp_obexReadstream h hempty hpos hsize hasked fun s' w' o' h' hasked' => ?_
  rw [wp_ite]
  exact ⟨fun _ => wp_obexReadstream_nil (hq s' w' o' h' hasked'), fun _ => hq s' w' o' h' hasked'⟩

/-- The fragments of a response, at most one: it finds the window empty. -/
theorem wp_bodies {bodies : List (Bool × Bytes)} (h : Receiving s w o)
    (hone : (bodies.filter fun b => b.2 ≠ []).length + (if w.len = 0 then 0 else 1) ≤ 1)
    (hsize : ∀ b ∈ bodies, b.2.length ≤ obexLowlevelBufSize) (hasked : s.asked = false)
    {Q : Unit → LowLevel → Prop} (hq : ∀ s' w' o', Receiving s' w' o' →
      (bodies.filter (fun b => b.2 ≠ []) = [] → w'.len = w.len) → Q () s') :
    wp (iterate (fun body => receiveStream W body.1 body.2) bodies) Q E s := by
  induction bodies generalizing s w o with
  | nil => exact hq s w o h fun _ => rfl
  | cons body bodies ih =>
    obtain ⟨bodyEnd, source⟩ := body
    have hrest : ∀ b ∈ bodies, b.2.length ≤ obexLowlevelBufSize :=
      fun b hb => hsize b (List.mem_cons_of_mem _ hb)
    unfold iterate
    rw [wp_bind]
    by_cases hnil : source = []
    · subst hnil
      rw [List.filter_cons_of_neg (by simp)] at hone
      refine wp_receiveStream_nil (ih h hone hrest hasked fun s' w' o' h' hlen => hq s' w' o' h' ?_)
      rw [List.filter_cons_of_neg (by simp)]
      exact hlen
    · rw [List.filter_cons_of_pos (by simpa using hnil), List.length_cons] at hone
      have hempty : w.len = 0 := by
        by_contra hne
        rw [if_neg hne] at hone
        omega
      have hnone : (bodies.filter fun b => b.2 ≠ []).length = 0 := by omega
      refine wp_receiveStream h hempty hnil (hsize _ List.mem_cons_self) hasked fun s1 w1 o1 h1
        hasked1 => ?_
      -- the window may be full now, and nothing more comes
      refine ih h1 ?_ hrest hasked1 fun s' w' o' h' _ => hq s' w' o' h' ?_
      · rw [hnone]
        split_ifs <;> omega
      · rw [List.filter_cons_of_pos (by simpa using hnil)]
        exact fun hno => (List.cons_ne_nil _ _ hno).elim

/-- Behind a response that does not end the request, the next packet is sent unless there is something
to read. -/
theorem wp_handleContinue (h : Receiving s w o) :
    wp (handleContinue W) (fun _ s' => InDownload s') E s := by
  unfold handleContinue
  rw [wp_bind, wp_modifyObject, wp_bind, wp_get, h.object]
  dsimp only [Option.map_some, Option.any_some]
  rw [wp_ite]
  constructor
  · intro _
    exact .inl ⟨w, _, h.buffered, h.received, rfl, h.cmd, h.suspend, h.asked⟩
  · intro hoff
    have hempty : w.len = 0 := Nat.eq_zero_of_not_pos fun hpos => hoff (h.suspend.2 hpos)
    rw [wp_bind]
    refine wp_objectSend fun ret sends asked => ?_
    rw [wp_bind, wp_ite]
    constructor
    · intro _
      refine wp_deliverEnd fun events => ?_
      rw [wp_modifyObject]
      exact .inr (h.ended hempty)
    · intro _
      rw [wp_pure, wp_modifyObject]
      exact .inl ⟨w, _, h.buffered, h.received, rfl, h.cmd, h.suspend, fun _ => hempty⟩

theorem wp_handleResponse (h : Receiving s w o) {bodies : List (Bool × Bytes)} {ending : ResponseEnd}
    (hread : allRead.op (.handleResponse bodies ending) s = true)
    (hsize : ∀ b ∈ bodies, b.2.length ≤ obexLowlevelBufSize) :
    wp (handleResponse W bodies ending) (fun _ s' => InDownload s') E s := by
  have hanswered : Receiving { s with asked := false } w o :=
    ⟨h.buffered, h.received, h.object, h.cmd, h.suspend, fun hon => Bool.noConfusion hon⟩
  unfold handleResponse
  rw [wp_bind, wp_modify, wp_bind]
  cases ending with
  | rspContinue =>
    have hone := of_decide_eq_true hread
    rw [if_congr h.empty_iff rfl rfl] at hone
    exact wp_bodies hanswered hone hsize rfl fun s' w' o' h' _ => wp_handleContinue h'
  | done =>
    obtain ⟨hlen, hnone⟩ := of_decide_eq_true hread
    have hempty := h.empty_iff.1 hlen
    refine wp_bodies hanswered (by rw [hnone, if_pos hempty]; decide) hsize rfl fun s' w' o' h'
      hkept => ?_
    exact wp_deliverEnd fun events => .inr (h'.ended ((hkept hnone).trans hempty))
  | parseerr =>
    obtain ⟨hlen, hnone⟩ := of_decide_eq_true hread
    have hempty := h.empty_iff.1 hlen
    refine wp_bodies hanswered (by rw [hnone, if_pos hempty]; decide) hsize rfl fun s' w' o' h'
      hkept => ?_
    exact wp_deliverEnd fun events => .inr (h'.ended ((hkept hnone).trans hempty))

/-! ## The run -/

theorem wp_downloadCall (h : InDownload s) (count : Nat) :
    wp (lowLevelCall W (.read count)) (fun _ s' => InDownload s') E s := by
  rcases h with ⟨w, o, h⟩ | h
  · show wp (obexRead W count >>= _) _ E s
    exact wp_seq (wp_obexRead h count) fun _ s' h' => h'.1
  · refine wp_conseq (wp_lowLevelCall_gone h.object _) ?_
    rintro _ s' rfl
    exact .inr h

theorem keeps_downloadCall (c : LowLevelCall) :
    Keeps InDownload (fun e _ => e = .barred) (guardedCall W (downloading.and allRead) c) := by
  intro s h
  unfold guardedCall
  rw [wp_bind, wp_get, wp_bind]
  refine wp_admitted rfl fun hok => ?_
  cases c with
  | read count => exact wp_downloadCall h count
  | write buf => cases hok
  | flush => cases hok
  | closeTransfer => cases hok

theorem InDownload.context_with (h : InDownload s) {c : ObexContext} (hbuf : c.buf = s.context.buf)
    (hstart : c.dataStart = s.context.dataStart) (hlength : c.dataLength = s.context.dataLength) :
    InDownload { s with context := c } := by
  rcases h with ⟨w, o, h⟩ | h
  · have hbuffered : Buffered c w := ⟨hbuf.trans h.buffered.buf, hstart.trans h.buffered.start,
      hlength.trans h.buffered.length, h.buffered.size, h.buffered.home⟩
    exact .inl ⟨w, o, hbuffered, h.received, h.object, h.cmd, h.suspend, h.asked⟩
  · exact .inr ⟨h.object, h.received, hlength.trans h.dataLength⟩

theorem keeps_download (op : LowLevelOp) :
    Keeps InDownload (fun e _ => e = .barred) (lowLevelOp W (downloading.and allRead) op) := by
  intro s h
  unfold lowLevelOp
  rw [wp_bind, wp_get, wp_bind]
  refine wp_admitted rfl fun hok => ?_
  have hboth : (downloading.op op s && allRead.op op s) = true := hok
  obtain ⟨hdomain, hread⟩ := Bool.and_eq_true_iff.1 hboth
  cases op with
  | call c => exact keeps_downloadCall c s h
  | doCallback commandInd =>
    show wp (obexDoCallback _ _ commandInd) _ _ s
    unfold obexDoCallback
    rw [wp_bind, wp_get, wp_bind]
    have hcalls := Keeps.iterate s.context.events fun e _ =>
      Keeps.iterate (commandInd e) fun c _ => keeps_downloadCall (W := W) c
    exact wp_conseq (hcalls s h) fun _ s' h' => h'.context_with rfl rfl rfl
  | connectDone response nonhdr =>
    show wp (obexConnectDone response nonhdr) _ _ s
    unfold obexConnectDone
    rw [wp_ite]
    refine ⟨fun _ => h, fun _ => ?_⟩
    split
    · dsimp only
      rw [wp_modifyContext]
      split_ifs
      · exact h.context_with rfl rfl rfl
      · exact h
    · exact h
  | streamEmpty => cases hdomain
  | streamTake n => cases hdomain
  | handleResponse bodies ending =>
    obtain ⟨hobject, hsize⟩ := of_decide_eq_true hdomain
    rcases h with ⟨w, o, h⟩ | h
    · exact wp_handleResponse h hread hsize
    · rw [h.object] at hobject
      cases hobject
  | linkErr =>
    have hlen : s.context.dataLength = 0 := of_decide_eq_true hread
    refine wp_deliverEnd fun events => .inr ?_
    rcases h with ⟨w, o, h⟩ | h
    · exact h.ended (h.empty_iff.1 hlen)
    · exact ⟨rfl, h.received, hlen⟩

theorem download_start {buf : Bytes} (hbuf : buf.length = obexLowlevelBufSize) :
    InDownload (obexTransfer cmdGet buf) := by
  have hnone : (⟨buf, 0, 0, Nat.zero_le _⟩ : Window).contents = [] :=
    List.eq_nil_of_length_eq_zero Window.length_contents
  refine .inl ⟨⟨buf, 0, 0, Nat.zero_le _⟩, _, ⟨rfl, rfl, rfl, hbuf, fun _ => rfl⟩, ?_, rfl, rfl, ?_,
    fun _ => rfl⟩
  · exact hnone.symm
  · show decide (cmdGet = cmdPut) = true ↔ 0 < 0
    decide

/-- What `obex_read` has returned is the beginning of what has been received, and the rest can be read.
A peer that only answers finds all read. -/
structure DownloadSound (W : LowLevelEnv) (s : LowLevel) : Prop where
  order : s.obtained <+: s.received
  complete : ∃ counts : List Nat, wp (iterate (fun count => lowLevelCall W (.read count)) counts)
    (fun _ s' => s'.obtained = s.received) (fun _ _ => False) s
  asked : s.asked = true → s.context.dataLength = 0

theorem InDownload.sound (h : InDownload s) : DownloadSound W s := by
  rcases h with ⟨w, o, h⟩ | h
  · refine ⟨?_, ⟨[w.len], ?_⟩, fun hasked => h.empty_iff.2 (h.asked hasked)⟩
    · rw [h.received]
      exact List.prefix_append _ _
    · show wp (lowLevelCall W (.read w.len) >>= _) _ _ s
      rw [wp_bind]
      show wp (obexRead W w.len >>= _) _ _ s
      refine wp_seq (wp_obexRead h w.len) ?_
      rintro _ s' ⟨-, -, hobtained⟩
      show s'.obtained = s.received
      rw [hobtained, h.received, List.take_of_length_le (Nat.le_of_eq Window.length_contents)]
  · refine ⟨?_, ⟨[], h.received.symm⟩, fun _ => h.dataLength⟩
    exact ⟨[], by rw [List.append_nil, h.received]⟩

theorem download_complete (ops : List LowLevelOp) {buf : Bytes}
    (hbuf : buf.length = obexLowlevelBufSize) :
    wp (lowLevelRun W (downloading.and allRead) ops) (fun _ s => DownloadSound W s)
      (fun e _ => e = .barred)
      (obexTransfer cmdGet buf) :=
  wp_conseq (Keeps.iterate ops (fun op _ => keeps_download op) _ (download_start hbuf))
    fun _ _ h => h.sound

/-- A fragment, read in two parts, and an empty last one. -/
theorem download_complete_one : ∃ buf : Bytes, buf.length = obexLowlevelBufSize ∧
    wp (lowLevelRun neverFails (downloading.and allRead)
        [.handleResponse [(false, [1, 2, 3])] .rspContinue, .doCallback (fun _ => [.read 2, .read 2]),
          .handleResponse [(true, [])] .done])
      (fun _ s => DownloadSound neverFails s) (fun e _ => e = .barred) (obexTransfer cmdGet buf) := by
  obtain ⟨buf, hbuf⟩ := exists_buf
  exact ⟨buf, hbuf, download_complete _ hbuf⟩

theorem wp_lastFragment {buf : Bytes} (hbuf : buf.length = 32767) :
    wp (lowLevelRun W downloading [.handleResponse [(true, [1])] .done])
      (fun _ s => s.object = none ∧ s.received = [1] ∧ s.obtained = []) (fun _ _ => False)
      (obexTransfer cmdGet buf) := by
  unfold lowLevelRun
  cases hmalloc : W.malloc sizeofObexEv
  all_goals
    simp [iterate, lowLevelOp, admitted, obexTransfer, downloading, i32, obexLowlevelBufSize, copyToBuf,
      hbuf, cmdPut, cmdGet, handleResponse, receiveStream, obexReadstream, suspendRequest, queueEvent,
        deliverEnd, hmalloc]

theorem last_fragment_lost : ¬ ∀ (W : LowLevelEnv) (ops : List LowLevelOp) (buf : Bytes),
    buf.length = obexLowlevelBufSize →
    wp (lowLevelRun W downloading ops) (fun _ s => DownloadSound W s) (fun e _ => e = .barred)
      (obexTransfer cmdGet buf) := by
  intro hall
  obtain ⟨buf, hbuf⟩ := exists_buf
  refine not_wp_false (wp_mono (wp_and (hall neverFails _ buf hbuf) (wp_lastFragment hbuf)) ?_
    fun _ _ h => h.2)
  rintro _ s ⟨hsound, hgone, hreceived, hobtained⟩
  obtain ⟨counts, hcounts⟩ := hsound.complete
  have hsame : Keeps (fun s' => s' = s) (fun _ _ => False)
      (iterate (fun count => lowLevelCall neverFails (.read count)) counts) := by
    refine Keeps.iterate counts fun count _ => ?_
    rintro s' rfl
    exact wp_lowLevelCall_gone hgone _
  refine not_wp_false (wp_mono (wp_and (hsame s rfl) hcounts) ?_ fun _ _ h => h.1)
  rintro _ s' ⟨rfl, hcomplete⟩
  rw [hobtained, hreceived] at hcomplete
  cases hcomplete

end

end OpenObex
