import OpenObex.Proof.Leftovers

/-!
# Which packets are parsed without a look behind them

The converse of `Leftovers.lean`: on a packet that is not `Contained` a run with zeroes behind the
packet and one with ones differ, in a value stored, a fragment handed out or the result
(`two_runs_iff`). The runs are those of an application that does nothing and never runs out of memory.
-/

namespace OpenObex

open Mem Prog Tokens

/-! ## Memory behind a packet -/

/-- The same packet with `m` behind it. -/
def Buf.withBehind (p : Buf) (m : Bytes) : Buf :=
  { buffer := p.buffer.take (p.data + p.dataSize) ++ m, data := p.data, headAvail := p.headAvail
    dataAvail := m.length, tailAvail := 0, dataSize := p.dataSize
    data_eq := p.data_eq
    size_eq := by
      have h1 := p.end_le
      have h2 := p.data_eq
      rw [List.length_append, List.length_take]
      omega }

theorem contents_withBehind (p : Buf) (m : Bytes) : (p.withBehind m).contents = p.contents := by
  have h := p.end_le
  unfold Buf.contents Buf.withBehind
  dsimp only
  rw [slice_append_left (by rw [List.length_take]; omega), slice_take (Nat.le_refl _)]

theorem behind_withBehind (p : Buf) (m : Bytes) : (p.withBehind m).behind = m := by
  have h := p.end_le
  unfold Buf.behind Buf.withBehind
  dsimp only
  rw [List.drop_append, List.drop_of_length_le (by rw [List.length_take]; omega), List.nil_append,
    List.length_take]
  rw [Nat.min_eq_left h, Nat.sub_self, List.drop_zero]

theorem withBehind_sameData (p : Buf) {m m' : Bytes} (h : m.length = m'.length) :
    SameData (p.withBehind m) (p.withBehind m') :=
  ⟨rfl, h, rfl, by rw [contents_withBehind, contents_withBehind]⟩

/-- A range that begins in front of the end and ends behind the packet ends with a leftover. -/
theorem slice_last {w : Bytes} {x : UInt8} {k i n : Nat} (hk : 0 < k) (hn : 0 < n)
    (h1 : w.length < i + n) (h2 : i < w.length + k) : (slice (w ++ List.replicate k x) i n).getLast? =
    some x := by
  have hlen : (slice (w ++ List.replicate k x) i n).length = min n (w.length + k - i) := by
    simp only [slice, List.length_take, List.length_drop, List.length_append, List.length_replicate]
  have hi : min n (w.length + k - i) - 1 < n := by omega
  rw [List.getLast?_eq_getElem?, hlen, slice, List.getElem?_take_of_lt hi, List.getElem?_drop,
    List.getElem?_append_right (by omega), List.getElem?_replicate, if_pos (by omega)]

/-! ## The law -/

/-- What `obex_object_receive` returns, stores and hands out. -/
structure Outcome where
  result : Except Stop Int
  stored : Option Stored
  fragments : List (Option Bytes × Nat)

def outcome (C : Ctx) (p : Ptr) (s : Obex) : Outcome :=
  match obexObjectReceive C s with
  | .ok r s' =>
    { result := .ok r, stored := (s'.objects p).map ObexObject.stored, fragments := fragments s'.log }
  | .error e s' =>
    { result := .error e, stored := (s'.objects p).map ObexObject.stored
      fragments := fragments s'.log }

/-- Nothing that lies behind the packet makes a difference. -/
structure TwoRunLaw (C : Ctx) (p : Ptr) (s : Obex) : Prop where
  same : ∀ m m' : Bytes, m.length = m'.length →
    outcome C p (s.setRxMsg (s.rxMsg.withBehind m)) = outcome C p (s.setRxMsg (s.rxMsg.withBehind m'))

theorem outcome_eq {C : Ctx} {p : Ptr} {s t : Obex}
    (h : Twin (Pair.Result p) (Seen p) (obexObjectReceive C) (obexObjectReceive C) s t) :
    outcome C p s = outcome C p t := by
  unfold Twin at h
  unfold outcome
  cases hs : obexObjectReceive C s with
  | ok r s' =>
    cases ht : obexObjectReceive C t with
    | ok r' t' =>
      rw [hs, ht] at h
      obtain ⟨rfl, h⟩ := h
      simp only [h.stored, h.fragments]
    | error e t' =>
      rw [hs, ht] at h
      exact h.elim
  | error e s' =>
    cases ht : obexObjectReceive C t with
    | ok r t' =>
      rw [hs, ht] at h
      exact h.elim
    | error f t' =>
      rw [hs, ht] at h
      obtain ⟨rfl, h⟩ := h
      simp only [h.stored, h.fragments]

theorem law_of_contained {C : Ctx} {p : Ptr} {s : Obex} {o : ObexObject} (hC : Discreet C)
    (hs : s.object = some p) (ho : s.objects p = some o) (hm : s.rxMsg.dataSize < 65536)
    (hlen : 3 + o.headeroffset ≤ s.rxMsg.dataSize)
    (hw : Contained (bodyMode o) (s.rxMsg.contents.drop (3 + o.headeroffset))) : TwoRunLaw C p s := by
  refine ⟨fun m m' hmm => outcome_eq ?_⟩
  have halike : Alike (s.rxMsg.withBehind m) (s.rxMsg.withBehind m')
      (s.setRxMsg (s.rxMsg.withBehind m)) (s.setRxMsg (s.rxMsg.withBehind m')) :=
    ⟨withBehind_sameData _ hmm, rfl, rfl⟩
  have hpair : Pair (bodyMode o) p (s.rxMsg.withBehind m) (s.rxMsg.withBehind m')
      (s.setRxMsg (s.rxMsg.withBehind m)) (s.setRxMsg (s.rxMsg.withBehind m')) := by
    refine ⟨halike, .inr ⟨hs, fun o' ho' => ?_⟩⟩
    have ho' : s.objects p = some o' := ho'
    rw [ho] at ho'
    cases ho'
    rfl
  refine hpair.receive hC hm hs ho hlen ?_
  rw [contents_withBehind]
  exact hw

/-! ## Breaking the law -/

section
variable {C : Ctx} {p : Ptr} {s : Obex}

/-- The packet with `n` bytes `x` behind it. -/
def leftover (s : Obex) (n : Nat) (x : UInt8) : Obex :=
  s.setRxMsg (s.rxMsg.withBehind (List.replicate n x))

theorem law_probe (h : TwoRunLaw C p s) {n : Nat} (probe : Obex → Option UInt8)
    (view : Option Stored → List (Option Bytes × Nat) → Option UInt8)
    (hview : ∀ s', probe s' = view ((s'.objects p).map ObexObject.stored) (fragments s'.log))
    (hrun : ∀ x, wp (obexObjectReceive C) (fun _ s' => probe s' = some x) (fun _ _ => False)
      (leftover s n x)) : False := by
  have hlaw := h.same (List.replicate n 0) (List.replicate n 1) (by simp)
  have hout (x : UInt8) : view (outcome C p (leftover s n x)).stored
      (outcome C p (leftover s n x)).fragments = some x := by
    have hx := hrun x
    unfold wp at hx
    unfold outcome
    split at hx
    · rename_i he
      rw [he]
      rw [hview] at hx
      exact hx
    · exact hx.elim
  have h0 := hout 0
  rw [show outcome C p (leftover s n 0) = outcome C p (leftover s n 1) from hlaw, hout 1] at h0
  simp at h0

/-- A result that depends on what lies behind the packet. -/
theorem law_result (h : TwoRunLaw C p s) {m m' : Bytes} (hmm : m.length = m'.length)
    (hm : wp (obexObjectReceive C) (fun r _ => r = -1) (fun _ _ => False)
      (s.setRxMsg (s.rxMsg.withBehind m)))
    (hm' : wp (obexObjectReceive C) (fun r _ => r = 1) (fun _ _ => True)
      (s.setRxMsg (s.rxMsg.withBehind m'))) : False := by
  have hlaw := congrArg Outcome.result (h.same m m' hmm)
  unfold outcome at hlaw
  unfold wp at hm hm'
  split at hm
  · rename_i he
    rw [he] at hlaw
    subst hm
    split at hm'
    · rename_i he'
      rw [he'] at hlaw
      subst hm'
      simp at hlaw
    · rename_i he'
      rw [he'] at hlaw
      simp at hlaw
  · exact hm.elim

end

/-! ## Where a leftover shows -/

def nonhdrByte (st : Option Stored) : Option UInt8 := st.bind fun st => st.nonhdr.bind List.getLast?

/-- The last byte of the value queued last. -/
def headerByte (st : Option Stored) : Option UInt8 :=
  st.bind fun st => st.headers.getLast?.bind fun h => h.2.bind List.getLast?

def bodyByte (st : Option Stored) : Option UInt8 := st.bind fun st => st.body.bind List.getLast?

/-- The last byte of the fragment handed out last. -/
def fragmentByte (fs : List (Option Bytes × Nat)) : Option UInt8 :=
  fs.getLast?.bind fun f => f.1.bind List.getLast?

def storedOf (p : Ptr) (s : Obex) : Option Stored := (s.objects p).map ObexObject.stored

/-- An application that does nothing. -/
abbrev quiet : Ctx := quietPeer.ctx .all 1

theorem wp_quiet_event {s : Obex} {notice : Notice} {Q : Unit → Obex → Prop}
    {R : Stop → Obex → Prop} (h : Q () s) : wp (quiet.eventcb notice) Q R s := by
  unfold quiet
  rw [Env.ctx, wp_bind, wp_get, wp_bind]
  exact h

theorem quiet_discreet : Discreet quiet := by
  intro notice b c s t h
  exact Twin.of_wp (Q := fun _ s' => s' = s) (S := fun _ t' => t' = t) (wp_quiet_event rfl)
    (wp_quiet_event rfl) fun _ _ _ _ hs ht => by rw [hs, ht]; exact h

/-- The mode of the body stays. -/
def InMode (p : Ptr) (md : BodyMode) (s : Obex) : Prop :=
  s.object = some p ∧ ∃ o, s.objects p = some o ∧ bodyMode o = md

theorem inMode_frame (p : Ptr) (md : BodyMode) : RxFrame quiet (InMode p md) (fun _ _ => True) where
  stop _ _ _ _ := trivial
  current := keeps_selfObject fun s hs => by rw [hs.1]; simp
  rxMsg _ _ hs := hs
  fresh _ hs := hs
  object s q o o' hs ho hrx := by
    obtain ⟨hp, x, hx, hmd⟩ := hs
    refine ⟨hp, ?_⟩
    by_cases hq : p = q
    · subst hq
      rw [ho] at hx
      cases hx
      exact ⟨o', objects_setObject _ _ _, by rw [hrx.bodyMode, hmd]⟩
    · exact ⟨x, by rw [objects_setObject_ne s _ hq]; exact hx, hmd⟩
  event s hs := wp_deliverEvent (wp_quiet_event hs)

section
variable {p : Ptr} {s : Obex} {m : Buf} {n : Nat} {x : UInt8}

/-- A value that ends behind the packet. -/
theorem value_leftover {C : Ctx} {hi : UInt8} {hlen len k : Nat} (hr : Reader C p) (h : Parsing p m s)
    (hreach : m.reach = m.contents ++ List.replicate n x) (hn : 0 < n) (hl0 : 0 < len)
    (hl : len ≤ m.dataSize) (hout : m.dataSize < k + len) (hin : k + len ≤ m.dataSize + n)
    (hint : hi = obexHdrLength → k = 1 ∧ len = 4) (hrm : m.dataSize ≤ hlen) :
    wp (receiveValue C p hi hlen len (some k) false)
      (fun err s' => err = false ∧ headerByte (storedOf p s') = some x ∧
        ∃ m', Parsing p m' s' ∧ m'.dataSize = 0) (fun _ _ => False) s := by
  have hsize : m.contents.length = m.dataSize := length_contents m
  have hread : k + len ≤ m.reach.length := by
    rw [hreach, List.length_append, List.length_replicate]
    omega
  rw [receiveValue, wp_bind, wp_get, h.rxMsg, if_neg (by omega)]
  refine wp_seq (P := fun e s' => e = false ∧ Parsing p m s' ∧ headerByte (storedOf p s') = some x)
    (wp_seq (h.hint fun hhi => ?_) fun _ s h => ?_) ?_
  · obtain ⟨rfl, rfl⟩ := hint hhi
    exact fun hlt => absurd hlt (by omega)
  · obtain ⟨o, ho⟩ := h.alive
    rw [wp_bind]
    refine wp_queueElement (hr.malloc _) (hr.malloc _) ho (fun d b hd hb => ?_) fun hnone => ?_
    · refine ⟨rfl, h.fresh.setObject _, ?_⟩
      rw [h.rxMsg, bufPeek_reach, if_pos hread] at hd
      cases hd
      have hlast := slice_last (x := x) hn hl0 (by omega) (by omega) (w := m.contents) (i := k)
      rw [← hreach, ← hb] at hlast
      unfold headerByte storedOf queued slistAppend
      rw [objects_setObject]
      simp only [Option.map_some, Option.bind_some, ObexObject.stored, List.map_append, List.map_cons,
        List.map_nil, List.getLast?_append, List.getLast?_singleton, Option.some_or]
      exact hlast
    · rw [h.rxMsg, bufPeek_reach, if_pos hread] at hnone
      cases hnone
  · rintro e s ⟨rfl, h, hb⟩
    rw [if_neg (by simp), wp_bind, wp_modify]
    refine ⟨rfl, hb, _, h.removeBegin hlen, ?_⟩
    rw [bufRemoveBegin_dataSize]
    omega

/-- The last part of a body header that is accepted. -/
theorem body_removed {C : Ctx} {hi : UInt8} {hlen len : Nat} (h : Parsing p m s)
    (hl : len ≤ m.dataSize) (hrm : m.dataSize ≤ hlen) {P : Obex → Prop} (hs : P s)
    (hP : ∀ s b, P s → P (s.setRxMsg b)) :
    wp (receiveValue C p hi hlen len none false)
      (fun err s' => err = false ∧ P s' ∧ ∃ m', Parsing p m' s' ∧ m'.dataSize = 0)
      (fun _ _ => False) s := by
  rw [receiveValue, wp_bind, wp_get, h.rxMsg, if_neg (by omega), wp_bind, wp_pure, if_neg (by simp),
    wp_bind, wp_modify]
  refine ⟨rfl, hP s _ hs, _, h.removeBegin hlen, ?_⟩
  rw [bufRemoveBegin_dataSize]
  omega

/-- Where a fragment of the body is kept. -/
def storedByte (hi : UInt8) (st : Option Stored) : Option UInt8 :=
  if hi = obexHdrBodyEnd then headerByte st else bodyByte st

theorem storeRxBody_byte {C : Ctx} {hi : UInt8} {b : Buf} (hr : Reader C p) (h : Parsing p m s)
    (hb : b.contents.getLast? = some x) :
    wp (storeRxBody C p hi b)
      (fun _ s' => Parsing p m s' ∧ storedByte hi (storedOf p s') = some x) (fun _ _ => False) s := by
  have hset (s : Obex) (h : Parsing p m s) (f : ObexObject → ObexObject)
      (hf : ∀ o, storedByte hi (some (f o).stored) = some x) :
      wp (update p f) (fun _ s' => Parsing p m s' ∧ storedByte hi (storedOf p s') = some x)
        (fun _ _ => False) s := by
    obtain ⟨o, ho⟩ := h.alive
    rw [wp_update, ho]
    refine ⟨?_, by simp⟩
    rintro _ ⟨⟩
    refine ⟨h.setObject _, ?_⟩
    rw [storedOf, objects_setObject]
    exact hf o
  unfold storeRxBody
  by_cases hend : hi = obexHdrBodyEnd
  · rw [if_pos hend, if_pos (hr.malloc _), alloc, wp_bind, wp_bind, wp_get, wp_bind, wp_set, wp_pure]
    refine hset _ h.fresh _ fun o => ?_
    rw [storedByte, if_pos hend]
    simp only [headerByte, Option.bind_some, ObexObject.stored, slistAppend, List.map_append,
      List.map_cons, List.map_nil, List.getLast?_append, List.getLast?_singleton, Option.some_or,
      Option.map_some]
    exact hb
  · rw [if_neg hend]
    refine hset s h _ fun o => ?_
    rw [storedByte, if_neg hend]
    simp only [bodyByte, Option.bind_some, ObexObject.stored, Option.map_some]
    exact hb

/-- A buffered fragment that ends behind the packet. -/
theorem body_leftover {C : Ctx} {hi : UInt8} {hlen len : Nat} (hr : Reader C p) (h : Parsing p m s)
    (hmd : ∃ o, s.objects p = some o ∧ bodyMode o = .buffered)
    (hreach : m.reach = m.contents ++ List.replicate n x) (hn : 0 < n) (hl0 : 0 < len)
    (hl : len ≤ m.dataSize) (hout : m.dataSize < 3 + len) (hin : 3 + len ≤ m.dataSize + n)
    (hrm : m.dataSize ≤ hlen) :
    wp (receiveBodyHeader C p hi len >>= fun err => receiveValue C p hi hlen len none err)
      (fun err s' => err = false ∧ storedByte hi (storedOf p s') = some x ∧
        ∃ m', Parsing p m' s' ∧ m'.dataSize = 0) (fun _ _ => False) s := by
  obtain ⟨o, ho, hmd⟩ := hmd
  have hsrv : ¬ o.sSrv = true := by
    intro hsrv
    unfold bodyMode at hmd
    rw [if_pos hsrv] at hmd
    split at hmd <;> simp at hmd
  have hsize : m.contents.length = m.dataSize := length_contents m
  have hread : 3 + len ≤ m.reach.length := by
    rw [hreach, List.length_append, List.length_replicate]
    omega
  refine wp_seq (P := fun e s' => e = false ∧ Parsing p m s' ∧
    storedByte hi (storedOf p s') = some x) ?_ ?_
  · rw [receiveBodyHeader, wp_bind, wp_deref, ho]
    refine ⟨?_, by simp⟩
    rintro _ ⟨⟩
    obtain ⟨b₁, hb₁⟩ := growRxBody_total hr.malloc (bodyBuf o len) len
    rw [if_neg hsrv, wp_bind]
    refine wp_receiveBody ho (by rw [h.rxMsg]; omega) (rxBodyBuf_total hr.malloc o len) hb₁
      (.inr (hr.malloc _)) (fun d b₂ hd hb => ?_) fun hnone => ?_
    · refine wp_conseq (storeRxBody_byte (x := x) hr (h.setObject _) ?_) fun _ s h => ⟨by simp, h⟩
      rw [h.rxMsg, bufPeek_reach, if_pos hread] at hd
      cases hd
      rw [(bufInsertEnd_some hb).1, List.getLast?_append, hreach,
        slice_last (x := x) hn hl0 (by omega) (by omega) (w := m.contents) (i := 3), Option.some_or]
    · rw [h.rxMsg, bufPeek_reach, if_pos hread] at hnone
      cases hnone
  · rintro e s ⟨rfl, h, hb⟩
    exact body_removed h hl hrm (P := fun s => storedByte hi (storedOf p s) = some x) hb
      fun _ _ h => h

theorem fragments_event (log : List Obs) (notice : Notice) :
    fragments (log ++ [.event notice]) =
      fragments log ++ (if notice.event = .streamavail then notice.data else none).toList := by
  unfold fragments
  rw [List.filterMap_append]
  congr 1

/-- The event hands out the fragment of the current object. -/
theorem wp_quiet_streamavail {d : Bytes} {k : Nat} (h : Parsing p m s)
    (hd : ∀ o, s.objects p = some o → o.sBuf = some d ∧ o.sLen = k) (hlast : d.getLast? = some x) :
    wp (obexDeliverEvent quiet .streamavail 0 0 false)
      (fun _ s' => Parsing p m s' ∧ (∀ o, s'.objects p = some o → o.sBuf = some d ∧ o.sLen = k) ∧
        fragmentByte (fragments s'.log) = some x) (fun _ _ => False) s := by
  refine wp_deliverEvent (wp_quiet_event ⟨⟨h.object, h.alive, h.rxMsg⟩, hd, ?_⟩)
  obtain ⟨o, ho⟩ := h.alive
  have hdata : (noticeOf s .streamavail 0 0).data = some (some d, k) := by
    obtain ⟨h1, h2⟩ := hd o ho
    simp only [noticeOf, if_true, streamFragment, h.object, Option.bind_some, ho, Option.map_some, h1,
      h2]
  have hev : (noticeOf s .streamavail 0 0).event = .streamavail := rfl
  rw [Obex.emit, fragments_event, if_pos hev, hdata]
  simp only [Option.toList_some, fragmentByte, List.getLast?_append, List.getLast?_singleton,
    Option.some_or, Option.bind_some]
  exact hlast

/-- A streamed fragment that ends behind the packet. -/
theorem stream_leftover {hi : UInt8} {len : Nat} (h : Parsing p m s)
    (hmd : ∃ o, s.objects p = some o ∧ bodyMode o = .streamed)
    (hreach : m.reach = m.contents ++ List.replicate n x) (hn : 3 < n) (hl0 : 0 < len)
    (hout : m.dataSize < 3 + len) :
    wp (receiveBodyHeader quiet p hi len)
      (fun err s' => err = false ∧ Parsing p m s' ∧ fragmentByte (fragments s'.log) = some x)
      (fun _ _ => False) s := by
  obtain ⟨o, ho, hmd⟩ := hmd
  have hflags : o.sSrv = true ∧ ¬ o.abort = true := by
    unfold bodyMode at hmd
    split at hmd
    · split at hmd
      · cases hmd
      · exact ⟨‹_›, ‹_›⟩
    · cases hmd
  have hlast : (slice m.reach 3 len).getLast? = some x := by
    have hsize : m.contents.length = m.dataSize := length_contents m
    rw [hreach]
    exact slice_last (by omega) hl0 (by omega) (by omega)
  rw [receiveBodyHeader, wp_bind, wp_deref, ho]
  refine ⟨?_, by simp⟩
  rintro _ ⟨⟩
  rw [if_pos hflags.1]
  refine wp_seq (P := fun _ s' => Parsing p m s' ∧ fragmentByte (fragments s'.log) = some x) ?_
    fun _ s h => ⟨rfl, h⟩
  rw [obexObjectReceiveStream]
  refine h.selfObject ?_
  rw [if_neg (by omega), wp_bind, wp_get, h.rxMsg, slice_reach, wp_bind, wp_update, ho]
  refine ⟨?_, by simp⟩
  rintro _ ⟨⟩
  rw [wp_bind, wp_deref, objects_setObject]
  refine ⟨?_, by simp⟩
  rintro _ ⟨⟩
  rw [if_neg hflags.2]
  have hset {s : Obex} (h : Parsing p m s) {o : ObexObject} {k : Nat} :
      ∀ o', (s.setObject p (some { o with sBuf := some (slice m.reach 3 len), sLen := k })).objects p =
        some o' → o'.sBuf = some (slice m.reach 3 len) ∧ o'.sLen = k := by
    intro o' ho'
    rw [objects_setObject] at ho'
    cases ho'
    exact ⟨rfl, rfl⟩
  refine wp_seq (wp_quiet_streamavail (h.setObject _) (hset h) hlast) ?_
  rintro _ s ⟨h, -, hb⟩
  rw [wp_when]
  refine ⟨fun _ => ?_, fun _ => ⟨h, hb⟩⟩
  obtain ⟨o', ho'⟩ := h.alive
  rw [wp_bind, wp_update, ho']
  refine ⟨?_, by simp⟩
  rintro _ ⟨⟩
  refine wp_conseq (wp_quiet_streamavail (h.setObject _) (hset h) hlast) ?_
  rintro _ s ⟨h, -, hb⟩
  exact ⟨h, hb⟩

end

/-! ## Packets that break the law -/

theorem quiet_reader (p : Ptr) : Reader quiet p := quietPeer_reader p

section
variable {p : Ptr} {s : Obex} {o : ObexObject} (hs : s.object = some p) (ho : s.objects p = some o)
  (hm : s.rxMsg.dataSize < 65536)
include hs ho hm

/-- A run up to the last header, which the receiver refuses or takes with all that remains. -/
theorem wp_receive_last {mem rest : Bytes} {ts : List Bytes}
    (hlen : 3 + o.headeroffset ≤ s.rxMsg.dataSize) (hts : ∀ t ∈ ts, Header t)
    (hw : s.rxMsg.contents.drop (3 + o.headeroffset) = ts.flatten ++ rest) (hne : rest ≠ [])
    {Q : Int → Obex → Prop} {R : Stop → Obex → Prop}
    (hlast : ∀ m s', Parsing p m s' → (∃ o', s'.objects p = some o' ∧ bodyMode o' = bodyMode o) →
      m.contents = rest → m.reach = rest ++ mem → m.dataSize < 65536 →
      wp (receiveHeader quiet p) (fun err s'' => (err = true → Q (-1) s'') ∧
        (err = false → Q 1 s'' ∧ ∃ m', Parsing p m' s'' ∧ m'.dataSize = 0)) R s') :
    wp (obexObjectReceive quiet) Q R (s.setRxMsg (s.rxMsg.withBehind mem)) := by
  have F := (inMode_frame p (bodyMode o)).toStream
  have hmode : InMode p (bodyMode o) (s.setRxMsg (s.rxMsg.withBehind mem)) := ⟨hs, o, ho, rfl⟩
  refine wp_receive (F.receiveNonhdr p) (F.rxMsg _ _ hmode) (quiet_reader p) hs ho hlen ?_
  intro m s' fuel h hmd hc hb hle hf
  have hc : m.contents = ts.flatten ++ rest := by
    rw [hc, Obex.setRxMsg, contents_withBehind, hw]
  have hb : m.behind = mem := by rw [hb, Obex.setRxMsg, behind_withBehind]
  have hm : m.dataSize < 65536 := Nat.lt_of_le_of_lt hle hm
  refine receiveHeaders_split (quiet_reader p) h hm (F.receiveHeader p) hmd hts hc hf ?_
  intro m' s'' fuel' h' hmd' hc' hb' hm' hf'
  refine receiveHeaders_cons h' (by rw [hc']; exact hne) hf' ?_
  refine wp_conseq (hlast m' s'' h' hmd'.2 hc' (by rw [Buf.reach, hc', hb', hb]) hm') ?_
  intro err s₃ h₃
  refine ⟨h₃.1, fun he => ?_⟩
  obtain ⟨hQ, m'', h'', h0⟩ := h₃.2 he
  exact receiveHeaders_nil h'' (contents_eq_nil h0) _ hQ

/-- The data in front of the headers ends behind the packet. -/
theorem headeroffset_inside (hlaw : TwoRunLaw quiet p s) (h3 : 3 ≤ s.rxMsg.dataSize) :
    3 + o.headeroffset ≤ s.rxMsg.dataSize := by
  -- otherwise the last byte of the data in front of the headers comes from behind the packet
  by_contra hlt
  refine law_probe (n := o.headeroffset) hlaw (fun s => nonhdrByte (storedOf p s))
    (fun st _ => nonhdrByte st) (fun _ => rfl) fun x => ?_
  have h : Parsing p (bufRemoveBegin (s.rxMsg.withBehind (List.replicate o.headeroffset x)) 3)
      ((leftover s o.headeroffset x).setRxMsg
        (bufRemoveBegin (s.rxMsg.withBehind (List.replicate o.headeroffset x)) 3)) := ⟨hs, ⟨o, ho⟩, rfl⟩
  have hsize : (bufRemoveBegin (s.rxMsg.withBehind (List.replicate o.headeroffset x)) 3).contents.length
      = s.rxMsg.dataSize - 3 := by
    rw [length_contents, bufRemoveBegin_dataSize]
    rfl
  have hreach : (bufRemoveBegin (s.rxMsg.withBehind (List.replicate o.headeroffset x)) 3).reach =
      (bufRemoveBegin (s.rxMsg.withBehind (List.replicate o.headeroffset x)) 3).contents ++
        List.replicate o.headeroffset x := by
    rw [Buf.reach, behind_bufRemoveBegin, behind_withBehind]
  have hds : (bufRemoveBegin (s.rxMsg.withBehind (List.replicate o.headeroffset x)) 3).dataSize =
      s.rxMsg.dataSize - 3 := by rw [← length_contents, hsize]
  rw [obexObjectReceive, wp_bind, wp_modify]
  refine h.selfObject ?_
  generalize bufRemoveBegin (s.rxMsg.withBehind (List.replicate o.headeroffset x)) 3 = m at *
  refine wp_seq (P := fun ok s' => ok = true ∧ nonhdrByte (storedOf p s') = some x ∧
    ∃ m', Parsing p m' s' ∧ m'.dataSize = 0) ?_ ?_
  · rw [receiveNonhdr, wp_bind, wp_deref]
    refine ⟨fun o' ho' => ?_, fun hn => absurd (ho.symm.trans hn) (by simp)⟩
    have ho' : s.objects p = some o' := ho'
    rw [ho] at ho'
    cases ho'
    rw [if_neg (by omega), bufNew_total (quiet_reader p).malloc]
    dsimp only
    rw [wp_bind, wp_get, h.rxMsg, wp_bind, peek, bufPeek_reach, hreach, List.length_append,
      List.length_replicate, if_pos (by omega), wp_require]
    refine ⟨?_, by simp⟩
    rintro _ ⟨⟩
    rw [wp_bind, wp_require]
    refine ⟨fun b hb => ?_, fun hn => ?_⟩
    · rw [wp_bind, wp_update]
      refine ⟨fun o' ho' => ?_, fun hn => absurd (ho.symm.trans hn) (by simp)⟩
      rw [wp_bind, wp_modify]
      refine ⟨rfl, ?_, _, (h.setObject _).removeBegin _, ?_⟩
      · have hlast := (bufInsertEnd_some hb).1
        rw [contents_freshBuf, List.nil_append] at hlast
        have hx : b.contents.getLast? = some x := by
          rw [hlast]
          exact slice_last (by omega) (by omega) (by omega) (by omega)
        rw [Obex.setRxMsg, storedOf, nonhdrByte, objects_setObject]
        exact hx
      · rw [bufRemoveBegin_dataSize]
        omega
    · obtain ⟨q, hq⟩ := bufInsertEnd_total (quiet_reader p).malloc (freshBuf o.headeroffset)
        (slice (m.contents ++ List.replicate o.headeroffset x) 0 o.headeroffset)
      rw [hq] at hn
      cases hn
  · rintro ok s' ⟨rfl, hb, m', h', h0⟩
    rw [if_pos rfl, wp_bind, wp_get]
    exact receiveHeaders_nil h' (contents_eq_nil h0) _ hb

theorem law_last {rest : Bytes} {ts : List Bytes} (hlaw : TwoRunLaw quiet p s)
    (hlen : 3 + o.headeroffset ≤ s.rxMsg.dataSize) (hts : ∀ t ∈ ts, Header t)
    (hw : s.rxMsg.contents.drop (3 + o.headeroffset) = ts.flatten ++ rest) (hne : rest ≠ [])
    (view : Option Stored → List (Option Bytes × Nat) → Option UInt8)
    (hlast : ∀ x m s', Parsing p m s' → (∃ o', s'.objects p = some o' ∧ bodyMode o' = bodyMode o) →
      m.contents = rest → m.reach = rest ++ List.replicate 8 x → m.dataSize < 65536 →
      wp (receiveHeader quiet p) (fun err s'' => view (storedOf p s'') (fragments s''.log) = some x ∧
        (err = false → ∃ m', Parsing p m' s'' ∧ m'.dataSize = 0)) (fun _ _ => False) s') : False := by
  refine law_probe (n := 8) hlaw (fun s => view (storedOf p s) (fragments s.log)) view (fun _ => rfl)
    fun x => ?_
  refine wp_receive_last hs ho hm hlen hts hw hne fun m s' h hmd hc hreach hm' => ?_
  refine wp_conseq (hlast x m s' h hmd hc hreach hm') ?_
  rintro err s'' ⟨hb, hnext⟩
  exact ⟨fun _ => hb, fun he => ⟨hb, hnext he⟩⟩

/-- A value of fixed length that is cut short by one byte. -/
theorem fixed_inside {hi : UInt8} {t : Bytes} {ts : List Bytes} {hlen len : Nat}
    (hlaw : TwoRunLaw quiet p s) (hle : 3 + o.headeroffset ≤ s.rxMsg.dataSize)
    (hts : ∀ t ∈ ts, Header t)
    (hw : s.rxMsg.contents.drop (3 + o.headeroffset) = ts.flatten ++ (hi :: t))
    (hf : Parsing.fixedLength hi = some (hlen, len)) (ht : t.length + 1 = len) : False := by
  have hk : (hlen, len) = (2, 1) ∨ (hlen, len) = (5, 4) := by
    unfold Parsing.fixedLength at hf
    split at hf <;> simp_all
  refine law_last hs ho hm hlaw hle hts hw (by simp) (fun st _ => headerByte st) ?_
  intro x m s' h _ hc hreach hm'
  have hsize : m.dataSize = t.length + 1 := by rw [← length_contents, hc, List.length_cons]
  have hk : hlen = len + 1 ∧ 0 < len ∧ len ≤ 4 := by
    rcases hk with hk | hk <;> cases hk <;> omega
  refine h.receiveHeader_fixed (by rw [hreach]; rfl) hf ?_
  refine wp_conseq (value_leftover (x := x) (n := 8) (quiet_reader p) h (by rw [hreach, hc])
    (by omega) (by omega) (by omega) (by omega) (by omega) (fun hhi => ?_) (by omega))
    fun err s'' hs'' => ⟨hs''.2.1, fun _ => hs''.2.2⟩
  rw [hhi, show Parsing.fixedLength obexHdrLength = some (5, 4) from by decide] at hf
  cases hf
  exact ⟨rfl, rfl⟩

/-- A header with a length field: a value that ends behind the packet is stored or handed out. -/
theorem sized_inside {hi a b : UInt8} {v : Bytes} {ts : List Bytes} (hlaw : TwoRunLaw quiet p s)
    (hle : 3 + o.headeroffset ≤ s.rxMsg.dataSize) (hts : ∀ t ∈ ts, Header t)
    (hw : s.rxMsg.contents.drop (3 + o.headeroffset) = ts.flatten ++ (hi :: a :: b :: v))
    (hk : hiType hi = .unicode ∨ hiType hi = .byteStream) (hlo : v.length + 3 < ofBe16 a b)
    (hhi : ofBe16 a b ≤ v.length + 6)
    (hmode : bodyMode o = .buffered ∨ ¬ (hi = obexHdrBody ∨ hi = obexHdrBodyEnd)) : False := by
  have hlen : u32 (ofBe16 a b - 3) = ofBe16 a b - 3 := by
    rw [u32_sub_three (ofBe16_lt a b), if_pos (by omega)]
  have hsize {m : Buf} (hc : m.contents = hi :: a :: b :: v) : m.dataSize = v.length + 3 := by
    rw [← length_contents, hc]
    rfl
  by_cases hbody : hi = obexHdrBody ∨ hi = obexHdrBodyEnd
  · have hbuf := hmode.resolve_right (not_not_intro hbody)
    refine law_last hs ho hm hlaw hle hts hw (by simp) (fun st _ => storedByte hi st) ?_
    intro x m s' h hmd hc hreach hm'
    rw [hbuf] at hmd
    have hsize := hsize hc
    refine h.receiveHeader_sized hk (by rw [hreach]; rfl) (by rw [hreach]; rfl) (by rw [hreach]; rfl)
      (fun _ => ?_) (.inr hbody)
    rw [hlen]
    refine wp_conseq (body_leftover (x := x) (n := 8) (quiet_reader p) h hmd (by rw [hreach, hc])
      (by omega) (by omega) (by omega) (by omega) (by omega) (by omega))
      fun err s'' hs'' => ⟨hs''.2.1, fun _ => hs''.2.2⟩
  · refine law_last hs ho hm hlaw hle hts hw (by simp) (fun st _ => headerByte st) ?_
    intro x m s' h _ hc hreach hm'
    have hsize := hsize hc
    refine h.receiveHeader_sized hk (by rw [hreach]; rfl) (by rw [hreach]; rfl) (by rw [hreach]; rfl)
      (fun hb => absurd hb hbody) (.inl ?_)
    rw [hlen]
    refine wp_conseq (value_leftover (x := x) (n := 8) (quiet_reader p) h (by rw [hreach, hc])
      (by omega) (by omega) (by omega) (by omega) (by omega) (fun hhi => ?_) (by omega))
      fun err s'' hs'' => ⟨hs''.2.1, fun _ => hs''.2.2⟩
    rw [hhi] at hk
    exact absurd hk (by decide)

/-- A streamed body is handed out before its length is checked. -/
theorem stream_inside {hi a : UInt8} {t : Bytes} {ts : List Bytes} (hlaw : TwoRunLaw quiet p s)
    (hle : 3 + o.headeroffset ≤ s.rxMsg.dataSize) (hts : ∀ t ∈ ts, Header t)
    (hw : s.rxMsg.contents.drop (3 + o.headeroffset) = ts.flatten ++ (hi :: a :: t))
    (hbody : hi = obexHdrBody ∨ hi = obexHdrBodyEnd) (hmode : bodyMode o = .streamed)
    (hL : ∀ x, ofBe16 a (t.head?.getD x) < 3 ∨
      (t.length + 2 < ofBe16 a (t.head?.getD x) ∧ 3 < ofBe16 a (t.head?.getD x))) : False := by
  have hk : hiType hi = .byteStream := by
    rcases hbody with rfl | rfl <;> decide
  refine law_last hs ho hm hlaw hle hts hw (by simp) (fun _ fs => fragmentByte fs) ?_
  intro x m s' h hmd hc hreach hm'
  rw [hmode] at hmd
  have hsize : m.dataSize = t.length + 2 := by
    rw [← length_contents, hc]
    rfl
  have hb : m.reach[2]? = some (t.head?.getD x) := by
    rw [hreach]
    cases t <;> rfl
  have hL := hL x
  have hlt := ofBe16_lt a (t.head?.getD x)
  refine h.receiveHeader_sized (.inr hk) (by rw [hreach]; rfl) (by rw [hreach]; rfl) hb (fun _ => ?_)
    (.inr hbody)
  have hlen := u32_sub_three hlt
  generalize ofBe16 a (t.head?.getD x) = L at *
  generalize u32 (L - 3) = len at *
  have hlen : m.dataSize < 3 + len ∧ 0 < len ∧ (len ≤ m.dataSize → m.dataSize ≤ L) := by
    split at hlen <;> omega
  refine wp_seq (stream_leftover (x := x) (n := 8) h hmd (by rw [hreach, hc]) (by omega) hlen.2.1
    hlen.1) ?_
  rintro err s'' ⟨rfl, h'', hb⟩
  by_cases hl : m.dataSize < len
  · rw [receiveValue, wp_bind, wp_get, h''.rxMsg, if_pos hl]
    exact ⟨hb, by simp⟩
  · refine wp_conseq (body_removed h'' (by omega) (hlen.2.2 (by omega))
      (P := fun s => fragmentByte (fragments s.log) = some x) hb fun _ _ h => h) ?_
    rintro err s ⟨-, hb, hm''⟩
    exact ⟨hb, fun _ => hm''⟩

/-- A header of which not even the length field is in the packet. -/
theorem length_inside {hi : UInt8} {t z y : Bytes} {ts : List Bytes} (hlaw : TwoRunLaw quiet p s)
    (hle : 3 + o.headeroffset ≤ s.rxMsg.dataSize) (hts : ∀ t ∈ ts, Header t)
    (hw : s.rxMsg.contents.drop (3 + o.headeroffset) = ts.flatten ++ (hi :: t))
    (hst : ¬ Starts Header (hi :: t)) (hz : z.length = y.length) (hn : Noticed z (hi :: t))
    (hn' : ¬ Noticed y (hi :: t)) : False := by
  have hbehind {m : Buf} {z : Bytes} (hc : m.contents = hi :: t) (hreach : m.reach = hi :: t ++ z) :
      m.behind = z := by
    rw [Buf.reach, hc] at hreach
    exact List.append_cancel_left hreach
  refine law_result hlaw hz ?_ ?_
  · refine wp_receive_last hs ho hm hle hts hw (by simp) fun m s' h _ hc hreach hm' => ?_
    rw [← hbehind hc hreach, ← hc] at hn
    refine wp_conseq (receiveHeader_noticed (quiet_reader p) h hm' hn) ?_
    rintro err s'' rfl
    exact ⟨fun _ => rfl, by simp⟩
  · refine wp_receive_last hs ho hm hle hts hw (by simp) fun m s' h _ hc hreach hm' => ?_
    rw [← hbehind hc hreach, ← hc] at hn'
    rw [← hc] at hst
    refine wp_conseq (receiveHeader_missed (quiet_reader p) h hm' (by rw [hc]; simp) hst hn') ?_
    rintro err s'' ⟨rfl, m'', h0, h''⟩
    exact ⟨by simp, fun _ => ⟨rfl, m'', h'', h0⟩⟩

theorem closed_sized {hi : UInt8} {t : Bytes} {ts : List Bytes} (hlaw : TwoRunLaw quiet p s)
    (hle : 3 + o.headeroffset ≤ s.rxMsg.dataSize) (hts : ∀ t ∈ ts, Header t)
    (hw : s.rxMsg.contents.drop (3 + o.headeroffset) = ts.flatten ++ (hi :: t))
    (hst : ¬ Starts Header (hi :: t)) (hk : hiType hi = .unicode ∨ hiType hi = .byteStream)
    (hcl : ¬ Closed (bodyMode o) (hi :: t))
    (hstream : (∀ behind : Bytes, 2 ≤ behind.length → Noticed behind (hi :: t)) →
      bodyMode o = .streamed ∧ StartsBody (hi :: t)) : False := by
  have hbody (hb : StartsBody (hi :: t)) : hi = obexHdrBody ∨ hi = obexHdrBodyEnd := by
    obtain ⟨_, _, he, hb⟩ := hb
    cases he
    exact hb
  -- the length field of a header seen behind the packet
  have hlength (z : Bytes) (a b : UInt8) (v : Bytes) (hz : t ++ z = a :: b :: v)
      (hn : Noticed z (hi :: t)) : ofBe16 a b < 3 ∨ (hi :: t).length + 3 < ofBe16 a b := by
    cases hn with
    | int h => simp_all
    | sized _ hb hl =>
      rw [hz] at hb
      cases hb
      exact hl
  rcases t with _ | ⟨a, _ | ⟨b, v⟩⟩
  · refine length_inside hs ho hm (z := [0, 0]) (y := [0, 3]) hlaw hle hts hw hst rfl
      (.sized hk rfl (.inl (by decide))) fun hn => ?_
    exact absurd (hlength _ _ _ _ rfl hn) (by simp [ofBe16])
  · by_cases ha : a = 0
    · subst ha
      refine length_inside hs ho hm (z := [0]) (y := [3]) hlaw hle hts hw hst rfl
        (.sized hk rfl (.inl (by decide))) fun hn => ?_
      exact absurd (hlength _ _ _ _ rfl hn) (by simp [ofBe16])
    · have hbig (b : UInt8) : 256 ≤ ofBe16 a b := by
        have : a.toNat ≠ 0 := fun h => ha (UInt8.toNat_inj.1 h)
        unfold ofBe16
        omega
      obtain ⟨hmd, hb⟩ := hstream fun behind hl => by
        obtain ⟨b, z, rfl⟩ := List.exists_cons_of_length_pos (Nat.lt_of_lt_of_le Nat.two_pos hl)
        refine .sized hk rfl (.inr ?_)
        have := hbig b
        simp only [List.length_cons, List.length_nil]
        omega
      refine stream_inside hs ho hm hlaw hle hts hw (hbody hb) hmd fun x => .inr ?_
      have := hbig (([] : Bytes).head?.getD x)
      simp only [List.length_nil]
      omega
  · have hlt : ¬ (3 ≤ ofBe16 a b ∧ ofBe16 a b ≤ v.length + 3) := by
      intro hl
      refine hst ⟨hi :: a :: b :: v.take (ofBe16 a b - 3), v.drop (ofBe16 a b - 3), .sized hk ?_, ?_⟩
      · rw [List.length_take]
        omega
      · simp only [List.cons_append, List.take_append_drop]
    by_cases hfar : ofBe16 a b < 3 ∨ v.length + 6 < ofBe16 a b
    · obtain ⟨hmd, hb⟩ := hstream fun behind _ => by
        refine .sized hk rfl ?_
        simp only [List.length_cons]
        omega
      refine stream_inside hs ho hm hlaw hle hts hw (hbody hb) hmd fun x => ?_
      simp only [List.length_cons, List.head?_cons, Option.getD_some]
      omega
    · by_cases hin : bodyMode o = .buffered ∨ ¬ (hi = obexHdrBody ∨ hi = obexHdrBodyEnd)
      · exact sized_inside hs ho hm hlaw hle hts hw hk (by omega) (by omega) hin
      · obtain ⟨hbuf, hb⟩ := not_or.1 hin
        have hb := not_not.1 hb
        cases hmd : bodyMode o with
        | buffered => exact hbuf hmd
        | dropped =>
          refine hcl (.dropped hmd hb (.inr ?_))
          simp only [List.length_cons]
          omega
        | streamed =>
          refine stream_inside hs ho hm hlaw hle hts hw hb hmd fun x => .inr ?_
          simp only [List.length_cons, List.head?_cons, Option.getD_some]
          omega

/-- Under the law the rest of the packet is empty or closed. -/
theorem closed_of_law {rest : Bytes} {ts : List Bytes} (hlaw : TwoRunLaw quiet p s)
    (hle : 3 + o.headeroffset ≤ s.rxMsg.dataSize) (hts : ∀ t ∈ ts, Header t)
    (hw : s.rxMsg.contents.drop (3 + o.headeroffset) = ts.flatten ++ rest)
    (hst : ¬ Starts Header rest) (hne : rest ≠ []) : Closed (bodyMode o) rest := by
  by_contra hcl
  -- what is refused in any case is the start of a streamed body
  have hstream (hn : ∀ behind : Bytes, 2 ≤ behind.length → Noticed behind rest) :
      bodyMode o = .streamed ∧ StartsBody rest := by
    by_contra hno
    exact hcl (.refused hn fun hmd hb => hno ⟨hmd, hb⟩)
  cases rest with
  | nil => exact hne rfl
  | cons hi t =>
    cases hk : hiType hi with
    | byte =>
      refine fixed_inside hs ho hm hlaw hle hts hw
        (show _ = some (2, 1) by rw [Parsing.fixedLength, hk]) ?_
      cases t with
      | nil => rfl
      | cons v x => exact absurd ⟨[hi, v], x, .byte hk v, rfl⟩ hst
    | int =>
      refine fixed_inside hs ho hm hlaw hle hts hw
        (show _ = some (5, 4) by rw [Parsing.fixedLength, hk]) ?_
      have hlo : 3 ≤ t.length := by
        by_contra hlt
        obtain ⟨-, hi', t', he, hb⟩ := hstream fun _ _ =>
          .int hk (by rw [List.length_cons]; omega)
        cases he
        rcases hb with rfl | rfl <;> exact absurd hk (by decide)
      by_contra hne
      have h4 : 4 ≤ t.length := by omega
      rcases t with _ | ⟨a, _ | ⟨b, _ | ⟨c, _ | ⟨d, x⟩⟩⟩⟩
      case cons.cons.cons.cons => exact hst ⟨[hi, a, b, c, d], x, .int hk a b c d, rfl⟩
      all_goals simp at h4
    | unicode => exact closed_sized hs ho hm hlaw hle hts hw hst (.inl hk) hcl hstream
    | byteStream => exact closed_sized hs ho hm hlaw hle hts hw hst (.inr hk) hcl hstream

end

/-- A packet obeys the law, whatever the allocator and the application do, exactly when the data in
front of its headers is inside it and the headers are contained. -/
theorem two_runs_iff {p : Ptr} {s : Obex} {o : ObexObject} (hs : s.object = some p)
    (ho : s.objects p = some o) (h3 : 3 ≤ s.rxMsg.dataSize) (hm : s.rxMsg.dataSize < 65536) :
    (∀ C, Discreet C → TwoRunLaw C p s) ↔ 3 + o.headeroffset ≤ s.rxMsg.dataSize ∧
      Contained (bodyMode o) (s.rxMsg.contents.drop (3 + o.headeroffset)) := by
  constructor
  · intro h
    have hlaw : TwoRunLaw quiet p s := h quiet quiet_discreet
    have hle := headeroffset_inside hs ho hm hlaw h3
    obtain ⟨ts, rest, hts, hw, hst⟩ := exists_split (fun _ => Header.ne_nil)
      (s.rxMsg.contents.drop (3 + o.headeroffset))
    refine ⟨hle, ts, rest, hts, hw, ?_⟩
    by_cases hne : rest = []
    · exact .inl hne
    · exact .inr (closed_of_law hs ho hm hlaw hle hts hw hst hne)
  · rintro ⟨hle, hw⟩ C hC
    exact law_of_contained hC hs ho hm hle hw

/-! ## A value from behind the packet -/

theorem cutPut_byte (x : UInt8) (hx : x = 0 ∨ x = 1) :
    headerByte (outcome quiet 0 (leftover cutPut 1 x)).stored = some x := by
  rcases hx with rfl | rfl
  · decide +kernel
  · decide +kernel

/-- The value of the header cut short is what lies behind the packet. -/
theorem leftover_stored :
    ¬ ∀ (p : Ptr) (s : Obex) (o : ObexObject), s.object = some p → s.objects p = some o →
      3 ≤ s.rxMsg.dataSize → s.rxMsg.dataSize < 65536 → ∀ C, Discreet C → TwoRunLaw C p s := by
  intro h
  have h3 : 3 ≤ cutPut.rxMsg.dataSize := by decide +kernel
  have hm : cutPut.rxMsg.dataSize < 65536 := by decide +kernel
  have hlaw := h 0 cutPut zeroObject (receiving_object _) (receiving_objects _) h3 hm quiet
    quiet_discreet
  have hsame : headerByte (outcome quiet 0 (leftover cutPut 1 0)).stored =
      headerByte (outcome quiet 0 (leftover cutPut 1 1)).stored := by
    unfold leftover
    rw [hlaw.same (List.replicate 1 0) (List.replicate 1 1) rfl]
  rw [cutPut_byte 0 (.inl rfl), cutPut_byte 1 (.inr rfl)] at hsame
  simp at hsame

theorem two_runs_iff_put :
    headerByte (outcome quiet 0 (leftover (receiving [0x82, 0x00, 0x05, 0x97, 0x01]) 1 7)).stored =
        some 1 ∧
      ((∀ C, Discreet C → TwoRunLaw C 0 (receiving [0x82, 0x00, 0x05, 0x97, 0x01])) ↔
        3 + zeroObject.headeroffset ≤ (receiving [0x82, 0x00, 0x05, 0x97, 0x01]).rxMsg.dataSize ∧
          Contained (bodyMode zeroObject)
            ((receiving [0x82, 0x00, 0x05, 0x97, 0x01]).rxMsg.contents.drop
            (3 + zeroObject.headeroffset))) :=
  ⟨by decide +kernel, two_runs_iff (receiving_object _) (receiving_objects _) (by decide +kernel)
    (by decide +kernel)⟩

end OpenObex
