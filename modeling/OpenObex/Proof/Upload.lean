import OpenObex.Proof.LowLevel

/-!
# The buffer of an upload

Every byte `obex_write` has accepted is in a chunk or still in the window (`InUpload`). A chunk that the
library holds stays as it was given as long as the window is behind it; once the window has started
again at the beginning of the buffer, the next bytes are written over it.
-/

namespace OpenObex

open Mem Prog

/-- The chunk lies in the buffer. -/
structure Chunk.Inside (chunk : Chunk) : Prop where
  start : 0 ≤ chunk.start
  size : 0 < chunk.size
  stop : chunk.start + chunk.size ≤ obexLowlevelBufSize
  length : (chunk.bytes.length : Int) = chunk.size

/-- `chunk` has been given to the library, and `off` bytes of it are in packets, `len` are not. -/
structure Outstanding (c : ObexContext) (chunks : List Chunk) (sent : Bytes) (chunk : Chunk)
    (len off : Nat) :
    Prop where
  last : ∃ before, chunks = before ++ [chunk] ∧ sent = before.flatMap Chunk.bytes ++
    chunk.bytes.take off
  size : (off + len : Int) = chunk.size
  intact : slice c.buf chunk.start.toNat chunk.size.toNat = chunk.bytes
  behind : c.dataStart ≠ 0 → c.dataStart = chunk.start + chunk.size

/-- Without a chunk, all that were given are in packets. -/
def Shipped (c : ObexContext) (chunks : List Chunk) (sent : Bytes) (sBuf : Option Chunk)
    (len off : Nat) : Prop :=
  match sBuf with
  | none => len = 0 ∧ sent = chunks.flatMap Chunk.bytes
  | some chunk => Outstanding c chunks sent chunk len off

structure InUpload (s : LowLevel) (w : Window) (o : StreamObject) : Prop where
  object : s.object = some o
  cmd : o.cmd = cmdPut
  buffered : Buffered s.context w
  txMax : 0 < s.context.txMax
  written : s.written = s.chunks.flatMap Chunk.bytes ++ w.contents
  inside : ∀ chunk ∈ s.chunks, chunk.Inside
  streamed : Shipped s.context s.chunks s.sent o.sBuf o.sLen o.sOffset

/-- What the library was given is where and what it was, and the chunks are what has been written. -/
structure UploadSound (s : LowLevel) : Prop where
  intact : ∀ o chunk, s.object = some o → o.sBuf = some chunk →
    slice s.context.buf chunk.start.toNat chunk.size.toNat = chunk.bytes
  inside : ∀ chunk ∈ s.chunks, 0 ≤ chunk.start ∧ 0 < chunk.size ∧ chunk.start + chunk.size ≤
    obexLowlevelBufSize
  order : s.chunks.flatMap Chunk.bytes <+: s.written
  sent : s.sent <+: s.chunks.flatMap Chunk.bytes

/-- An upload, or what is left of it when the link has failed. -/
def Uploading (s : LowLevel) : Prop := (∃ w o, InUpload s w o) ∨ s.object = none ∧ UploadSound s

/-- The bytes to be written do not reach the chunk the library holds. -/
def WriteClear (s : LowLevel) (o : StreamObject) (n : Nat) : Prop :=
  ∀ chunk, o.sBuf = some chunk → s.context.dataStart ≠ 0 ∨ s.context.dataLength + n ≤ chunk.start

/-- The MTU of the peer leaves room for a chunk besides the headers. -/
def leavesRoom : Bytes → Bool
  | [_, _, hi, lo] => 200 < ofBe16 hi lo
  | _ => true

/-- The peer leaves room for the headers, and what is written does not reach the chunk the library
holds: that chunk has left data in the buffer, or lies behind the new bytes. -/
def clearUpload : LowLevelGuard where
  op x _ := match x with
    | .connectDone response nonhdr => response ≠ obexRspSuccess ∨ leavesRoom nonhdr = true
    | _ => true
  call c s := match c with
    | .write buf => (s.object.bind StreamObject.sBuf).all fun chunk =>
      s.context.dataStart ≠ 0 ∨ s.context.dataLength + buf.length ≤ chunk.start
    | _ => true

section

variable {s : LowLevel} {w : Window} {o : StreamObject} {E : Stop → LowLevel → Prop} {W : LowLevelEnv}

theorem Shipped.congr {c c' : ObexContext} {chunks : List Chunk} {sent : Bytes} {sBuf : Option Chunk}
    {len off : Nat} (h : Shipped c chunks sent sBuf len off) (hbuf : c'.buf = c.buf)
    (hstart : c'.dataStart = c.dataStart) :
    Shipped c' chunks sent sBuf len off := by
  cases sBuf with
  | none => exact h
  | some chunk =>
    obtain ⟨hlast, hsize, hintact, hbehind⟩ := h
    refine ⟨hlast, hsize, ?_, ?_⟩
    · rw [hbuf]
      exact hintact
    · rw [hstart]
      exact hbehind

theorem Shipped.consumed {c : ObexContext} {chunks : List Chunk} {sent : Bytes} {sBuf : Option Chunk}
    {off : Nat} (h : Shipped c chunks sent sBuf 0 off) (hinside : ∀ chunk ∈ chunks, chunk.Inside) :
    sent = chunks.flatMap Chunk.bytes := by
  cases sBuf with
  | none => exact h.2
  | some chunk =>
    obtain ⟨⟨before, hchunks, hsent⟩, hsize, -, -⟩ := h
    have hlast : chunk ∈ chunks := by
      rw [hchunks]
      exact List.mem_append_right _ (List.mem_singleton_self _)
    have hlength := (hinside chunk hlast).length
    have hall : chunk.bytes.take off = chunk.bytes := List.take_of_length_le (by omega)
    rw [hsent, hall, hchunks, List.flatMap_append, List.flatMap_singleton]

/-- What the library and the callback do to the object besides the stream. -/
theorem InUpload.object_with (h : InUpload s w o) {f : StreamObject → StreamObject}
    (hcmd : (f o).cmd = o.cmd) (hbuf : (f o).sBuf = o.sBuf) (hlen : (f o).sLen = o.sLen)
    (hoff : (f o).sOffset = o.sOffset) :
    InUpload { s with object := s.object.map f } w (f o) where
  object := by rw [h.object]; rfl
  cmd := hcmd.trans h.cmd
  buffered := h.buffered
  txMax := h.txMax
  written := h.written
  inside := h.inside
  streamed := by
    rw [hbuf, hlen, hoff]
    exact h.streamed

theorem InUpload.context_with (h : InUpload s w o) {c : ObexContext} (hbuf : c.buf = s.context.buf)
    (hstart : c.dataStart = s.context.dataStart) (hlength : c.dataLength = s.context.dataLength)
    (htx : 0 < c.txMax) :
    InUpload { s with context := c } w o where
  object := h.object
  cmd := h.cmd
  buffered := ⟨hbuf.trans h.buffered.buf, hstart.trans h.buffered.start,
    hlength.trans h.buffered.length, h.buffered.size, h.buffered.home⟩
  txMax := htx
  written := h.written
  inside := h.inside
  streamed := h.streamed.congr hbuf hstart

theorem InUpload.sound (h : InUpload s w o) : UploadSound s := by
  have hstreamed := h.streamed
  refine ⟨?_, ?_, ?_, ?_⟩
  · intro o' chunk ho' hchunk
    have hsame : o' = o := Option.some_inj.1 (ho'.symm.trans h.object)
    rw [hsame] at hchunk
    rw [hchunk] at hstreamed
    exact hstreamed.intact
  · intro chunk hchunk
    obtain ⟨hstart, hsize, hstop, -⟩ := h.inside chunk hchunk
    exact ⟨hstart, hsize, hstop⟩
  · rw [h.written]
    exact List.prefix_append _ _
  · cases hbuf : o.sBuf with
    | none =>
      rw [hbuf] at hstreamed
      exact ⟨[], by rw [List.append_nil, hstreamed.2]⟩
    | some chunk =>
      rw [hbuf] at hstreamed
      obtain ⟨⟨before, hchunks, hsent⟩, -, -, -⟩ := hstreamed
      rw [hsent, hchunks, List.flatMap_append, List.flatMap_singleton]
      exact (List.prefix_append_right_inj _).2 (List.take_prefix _ _)

theorem UploadSound.gone (h : UploadSound s) {c : ObexContext} {sends : Nat} {asked : Bool} :
    Uploading { s with context := c, object := none, sends, asked } := by
  refine .inr ⟨rfl, ?_, h.inside, h.order, h.sent⟩
  intro o chunk ho
  cases ho

theorem wp_uploadResume (h : InUpload s w o) : wp (resumeRequest W) (fun _ s' => Uploading s') E s := by
  refine wp_resumeRequest (fun _ => .inl ⟨w, o, h⟩) ?_ fun events sends asked => h.sound.gone
  intro o' firstPacketSent continueReceived sends asked ho'
  have hsame : o' = o := Option.some_inj.1 (ho'.symm.trans h.object)
  subst hsame
  exact .inl ⟨w, _, rfl, h.cmd, h.buffered, h.txMax, h.written, h.inside, h.streamed⟩

theorem wp_suspendRequest (h : InUpload s w o) {Q : Unit → LowLevel → Prop}
    (hq : ∀ s' o', InUpload s' w o' → Q () s') : wp suspendRequest Q E s :=
  hq _ _ (h.object_with (f := fun o => { o with suspend := true }) rfl rfl rfl rfl)

theorem InUpload.write (h : InUpload s w o) {d b : Bytes} {l : Int} (hd : d.length ≤ w.room)
    (hclear : WriteClear s o d.length) (hb : b = Mem.write s.context.buf w.stop d)
    (hl : l = s.context.dataLength + d.length) :
    InUpload { s with
      context := { s.context with buf := b, dataLength := l }
      written := s.written ++ d } (w.push d hd) o where
  object := h.object
  cmd := h.cmd
  buffered := h.buffered.push hd (by rw [hb, h.buffered.buf]; rfl) rfl hl
  txMax := h.txMax
  written := by
    show s.written ++ d = _
    rw [h.written, Window.contents_push, List.append_assoc]
  inside := h.inside
  streamed := by
    have hstreamed := h.streamed
    cases hbuf : o.sBuf with
    | none =>
      rw [hbuf] at hstreamed
      exact hstreamed
    | some chunk =>
      rw [hbuf] at hstreamed
      obtain ⟨hlast, hsize, hintact, hbehind⟩ := hstreamed
      refine ⟨hlast, hsize, ?_, hbehind⟩
      have hinside : chunk.Inside := by
        obtain ⟨before, hchunks, -⟩ := hlast
        exact h.inside chunk
          (by rw [hchunks]; exact List.mem_append_right _ (List.mem_singleton_self _))
      obtain ⟨hpos, hsizepos, -, -⟩ := hinside
      rw [h.buffered.buf] at hintact
      show slice b _ _ = _
      rw [hb, h.buffered.buf, ← hintact]
      refine Window.slice_push hd ?_
      have hstart := h.buffered.start
      have hlength := h.buffered.length
      unfold Window.stop
      rcases hclear chunk hbuf with hne | hle
      · -- the window is behind the chunk
        have hstop := hbehind hne
        left
        omega
      · by_cases hzero : s.context.dataStart = 0
        · -- it has started again, and ends in front of the chunk
          right
          omega
        · have hstop := hbehind hzero
          left
          omega

theorem wp_obexWrite (h : InUpload s w o) {buf : Bytes} (hclear : WriteClear s o buf.length) :
    wp (obexWrite W buf) (fun _ s' => Uploading s') E s := by
  unfold obexWrite
  rw [wp_bind]
  refine wp_currentCommand h.object ?_
  rw [h.cmd, if_neg (fun hne => hne rfl), wp_bind, wp_get]
  dsimp only
  rw [h.buffered.freeSpace, sizeT_ofNat h.buffered.room_le]
  have hroom := h.buffered.room_le
  have hstop := h.buffered.stop_le
  have hstart := h.buffered.start
  have hlength := h.buffered.length
  set n := if w.room < buf.length then w.room else buf.length with hn
  have hnroom : n ≤ w.room := by
    rw [hn]
    split_ifs <;> omega
  have hnbuf : n ≤ buf.length := by
    rw [hn]
    split_ifs <;> omega
  have hlen : (buf.take n).length = n := List.length_take_of_le hnbuf
  have hin : n + w.stop ≤ s.context.buf.length := by
    have hsize := w.inside
    rw [h.buffered.buf]
    unfold Window.room at hnroom
    unfold Window.stop at hnroom ⊢
    omega
  have hoff : s.context.dataStart + s.context.dataLength = (w.stop : Int) := by
    unfold Window.stop
    omega
  have hshort : WriteClear s o (buf.take n).length := by
    intro chunk hchunk
    rcases hclear chunk hchunk with hne | hle
    · exact .inl hne
    · right
      omega
  have hwrap : i32 (s.context.dataLength + n) = s.context.dataLength + n := by
    unfold i32
    unfold Window.room Window.stop at hnroom
    have hsize := h.buffered.size
    unfold obexLowlevelBufSize at hsize
    omega
  rw [hoff, wp_bind]
  refine wp_copyToBuf ⟨Int.natCast_nonneg _, by omega⟩ ?_
  have hwrite := h.write (by omega) hshort rfl (by rw [hlen])
  rw [hwrap, wp_bind, wp_modifyContext, wp_bind, wp_modify, wp_bind, wp_ite]
  constructor
  · intro _
    exact wp_uploadResume hwrite
  · intro _
    exact .inl ⟨_, _, hwrite⟩

/-- A chunk is given to the library from the front of the window. -/
theorem InUpload.give (h : InUpload s w o) (hlen : o.sLen = 0) {n : Nat} (hpos : 0 < n)
    (hn : n ≤ w.len) :
    InUpload { s with
      context := { s.context with
        dataLength := s.context.dataLength - n
        dataStart := if s.context.dataLength - n = 0 then 0 else s.context.dataStart + n }
      object := some { o with
        sOffset := 0, sBuf := some ⟨s.context.dataStart, n, slice s.context.buf w.start n⟩, sLen := n }
      chunks := s.chunks ++ [⟨s.context.dataStart, n, slice s.context.buf w.start n⟩] } (w.pull n hn)
      { o with
        sOffset := 0, sBuf := some ⟨s.context.dataStart, n, slice s.context.buf w.start n⟩
        sLen := n } where
  object := rfl
  cmd := h.cmd
  buffered := by
    refine h.buffered.pull hn rfl ?_ rfl
    have hlength := h.buffered.length
    by_cases hall : n = w.len
    · rw [if_pos hall]
      exact if_pos (by omega)
    · rw [if_neg hall]
      exact if_neg (by omega)
  txMax := h.txMax
  written := by
    show s.written = _
    rw [h.written, Window.contents_pull hn, List.flatMap_append, List.flatMap_singleton,
      List.append_assoc, h.buffered.buf]
  inside := by
    intro chunk hchunk
    rcases List.mem_append.1 hchunk with hold | hnew
    · exact h.inside chunk hold
    · rw [List.mem_singleton.1 hnew]
      have hstop := h.buffered.stop_le
      have hstart := h.buffered.start
      have hin : w.start + n ≤ s.context.buf.length := by
        rw [h.buffered.buf, h.buffered.size]
        unfold obexLowlevelBufSize
        omega
      refine ⟨?_, ?_, ?_, ?_⟩
      · show 0 ≤ s.context.dataStart
        omega
      · show (0 : Int) < n
        omega
      · show s.context.dataStart + n ≤ (32767 : Nat)
        omega
      · show ((slice s.context.buf w.start n).length : Int) = n
        rw [length_slice hin]
  streamed := by
    -- the chunks handed out before have been sent to the last byte
    have hsent : s.sent = s.chunks.flatMap Chunk.bytes := by
      have hstreamed := h.streamed
      rw [hlen] at hstreamed
      exact hstreamed.consumed h.inside
    refine ⟨⟨s.chunks, rfl, ?_⟩, Int.zero_add _, ?_, ?_⟩
    · show s.sent = _ ++ List.take 0 _
      rw [hsent, List.take_zero, List.append_nil]
    · show slice s.context.buf s.context.dataStart.toNat n = _
      rw [h.buffered.start]
      rfl
    · show (if s.context.dataLength - n = 0 then 0 else s.context.dataStart + n) ≠ 0 → _
      split_ifs
      · exact fun hne => (hne rfl).elim
      · exact fun _ => rfl

theorem wp_streamEmpty (h : InUpload s w o) (hlen : o.sLen = 0) :
    wp (streamEmpty W) (fun _ s' => Uploading s') E s := by
  have hlength := h.buffered.length
  have htx := h.txMax
  unfold streamEmpty obexWritestream
  rw [wp_bind, wp_modifyObject, wp_bind, wp_get]
  dsimp only
  by_cases hdata : 0 < s.context.dataLength
  · rw [if_pos hdata]
    obtain ⟨n, hn⟩ : ∃ n : Nat, (n : Int) =
        if s.context.txMax < s.context.dataLength then s.context.txMax else s.context.dataLength := by
      refine ⟨(if s.context.txMax < s.context.dataLength then s.context.txMax
        else s.context.dataLength).toNat, ?_⟩
      split_ifs <;> omega
    have hpos : 0 < n := by
      split_ifs at hn <;> omega
    have hle : n ≤ w.len := by
      split_ifs at hn <;> omega
    have hstop := h.buffered.stop_le
    have hu32 : u32 n = n := by
      unfold u32
      omega
    have hgive := h.give hlen hpos hle
    rw [← hn, wp_bind, addStreamData, wp_bind, wp_get, h.object]
    dsimp only
    rw [wp_bind, wp_modifyObject, wp_modify, wp_bind, wp_modifyContext, hu32, Int.toNat_natCast,
      h.buffered.start, Int.toNat_natCast]
    rw [h.buffered.start] at hgive
    by_cases hclose : ¬ s.context.close = true ∧ s.context.dataLength - n = 0
    · rw [if_pos hclose, wp_bind]
      refine wp_suspendRequest hgive fun s' o' h' => ?_
      exact wp_queueEvent fun events => .inl ⟨_, _, h'.context_with rfl rfl rfl h'.txMax⟩
    · rw [if_neg hclose]
      exact .inl ⟨_, _, hgive⟩
  · rw [if_neg hdata]
    have hstreamed := h.streamed
    rw [hlen] at hstreamed
    refine .inl ⟨w, { o with sOffset := 0, sStop := true, sBuf := none, sLen := 0 }, ?_, h.cmd,
      h.buffered, h.txMax, h.written, h.inside, rfl, hstreamed.consumed h.inside⟩
    show (s.object.map _).map _ = _
    rw [h.object]
    rfl

/-- The library reads what it was given. -/
theorem wp_streamTake (h : InUpload s w o) {n : Nat} (hbuf : o.sBuf.isSome) (hn : n ≤ o.sLen) :
    wp (streamTake n) (fun _ s' => Uploading s') E s := by
  obtain ⟨chunk, hchunk⟩ := Option.isSome_iff_exists.1 hbuf
  have hstreamed := h.streamed
  rw [hchunk] at hstreamed
  obtain ⟨⟨before, hchunks, hsent⟩, hsize, hintact, hbehind⟩ := hstreamed
  have hinside :=
    h.inside chunk (by rw [hchunks]; exact List.mem_append_right _ (List.mem_singleton_self _))
  obtain ⟨hstart, hpos, hstop, hlength⟩ := hinside
  have hbuflen : s.context.buf.length = 32767 := by
    rw [h.buffered.buf, h.buffered.size]
    rfl
  unfold obexLowlevelBufSize at hstop
  have hdata : slice s.context.buf (chunk.start + o.sOffset).toNat n =
    (chunk.bytes.drop o.sOffset).take n := by
    rw [← hintact, drop_slice, take_slice, Nat.min_eq_left (by omega)]
    congr 1
    omega
  unfold streamTake
  rw [wp_bind, wp_get, h.object]
  dsimp only
  rw [hchunk]
  dsimp only
  rw [wp_bind]
  refine wp_copyFromBuf ⟨by omega, by omega⟩ ?_
  rw [hdata, wp_bind, wp_modifyObject, wp_modify]
  refine .inl ⟨w, { o with sLen := o.sLen - n, sOffset := o.sOffset + n }, ?_, h.cmd,
    h.buffered, h.txMax, h.written, h.inside, ?_⟩
  · show s.object.map _ = _
    rw [h.object]
    rfl
  · show Shipped s.context s.chunks (s.sent ++ _) o.sBuf (o.sLen - n) (o.sOffset + n)
    rw [hchunk]
    refine ⟨⟨before, hchunks, ?_⟩, ?_, hintact, hbehind⟩
    · rw [hsent, List.append_assoc, ← List.take_add]
    · omega

theorem Uploading.context_with (h : Uploading s) {c : ObexContext} (hbuf : c.buf = s.context.buf)
    (hstart : c.dataStart = s.context.dataStart) (hlength : c.dataLength = s.context.dataLength)
    (htx : 0 < s.context.txMax → 0 < c.txMax) : Uploading { s with context := c } := by
  rcases h with ⟨w, o, h⟩ | ⟨hgone, h⟩
  · exact .inl ⟨w, o, h.context_with hbuf hstart hlength (htx h.txMax)⟩
  · refine .inr ⟨hgone, fun o chunk ho => ?_, h.inside, h.order, h.sent⟩
    cases hgone.symm.trans ho

theorem wp_obexConnectDone (h : Uploading s) {response : UInt8} {nonhdr : Bytes}
    (hroom : response ≠ obexRspSuccess ∨ leavesRoom nonhdr = true) :
    wp (obexConnectDone response nonhdr) (fun _ s' => Uploading s') E s := by
  unfold obexConnectDone
  by_cases hresponse : response ≠ obexRspSuccess
  · rw [if_pos hresponse]
    exact h
  · rw [if_neg hresponse]
    have hleaves := hroom.resolve_left hresponse
    unfold leavesRoom at hleaves
    split
    · dsimp only
      rw [wp_modifyContext]
      refine h.context_with ?_ ?_ ?_ fun htx => ?_
      · split_ifs <;> rfl
      · split_ifs <;> rfl
      · split_ifs <;> rfl
      · have hmtu := of_decide_eq_true hleaves
        split_ifs with hnew
        · show 0 < (ofBe16 _ _ : Int) - 200
          omega
        · exact htx
    · exact h

theorem wp_uploadCall (h : InUpload s w o) (c : LowLevelCall) (hclear : clearUpload.call c s = true) :
    wp (lowLevelCall W c) (fun _ s' => Uploading s') E s := by
  cases c with
  | write buf =>
    show wp (obexWrite W buf >>= _) _ E s
    refine wp_seq (wp_obexWrite h fun chunk hchunk => ?_) fun _ s' h' => h'
    have hall : (s.object.bind StreamObject.sBuf).all _ = true := hclear
    rw [h.object, Option.bind_some, hchunk] at hall
    exact of_decide_eq_true hall
  | read count =>
    unfold lowLevelCall obexRead
    rw [wp_bind, wp_bind]
    refine wp_currentCommand h.object ?_
    rw [h.cmd, if_pos (by decide)]
    exact .inl ⟨w, o, h⟩
  | flush =>
    unfold lowLevelCall obexFlush
    rw [wp_bind, wp_bind]
    refine wp_currentCommand h.object ?_
    rw [h.cmd, if_neg (by decide), wp_bind, wp_get]
    dsimp only
    rw [wp_bind, wp_ite]
    exact ⟨fun _ => wp_uploadResume h, fun _ => .inl ⟨w, o, h⟩⟩
  | closeTransfer =>
    unfold lowLevelCall obexCloseTransfer
    rw [wp_bind, wp_bind]
    refine wp_currentCommand h.object ?_
    rw [h.cmd, if_neg (by decide), wp_bind, wp_modifyContext, wp_bind]
    have hclose : InUpload { s with context := { s.context with close := true } } w o :=
      h.context_with rfl rfl rfl h.txMax
    exact wp_uploadResume hclose

theorem Uploading.sound (h : Uploading s) : UploadSound s := by
  rcases h with ⟨w, o, h⟩ | ⟨-, h⟩
  · exact h.sound
  · exact h

end

/-! ## The run -/

section

variable {W : LowLevelEnv}

theorem keeps_uploadCall (c : LowLevelCall) :
    Keeps Uploading (fun e _ => e = .barred) (guardedCall W (uploading.and clearUpload) c) := by
  intro s h
  unfold guardedCall
  rw [wp_bind, wp_get, wp_bind]
  refine wp_admitted rfl fun hok => ?_
  have hboth : (uploading.call c s && clearUpload.call c s) = true := hok
  rcases h with ⟨w, o, h⟩ | ⟨hgone, h⟩
  · exact wp_uploadCall h c (Bool.and_eq_true_iff.1 hboth).2
  · refine wp_conseq (wp_lowLevelCall_gone hgone c) ?_
    rintro _ s' rfl
    exact .inr ⟨hgone, h⟩

theorem keeps_upload (op : LowLevelOp) :
    Keeps Uploading (fun e _ => e = .barred) (lowLevelOp W (uploading.and clearUpload) op) := by
  intro s h
  unfold lowLevelOp
  rw [wp_bind, wp_get, wp_bind]
  refine wp_admitted rfl fun hok => ?_
  have hboth : (uploading.op op s && clearUpload.op op s) = true := hok
  obtain ⟨hdomain, hclear⟩ := Bool.and_eq_true_iff.1 hboth
  cases op with
  | call c => exact keeps_uploadCall c s h
  | doCallback commandInd =>
    show wp (obexDoCallback _ _ commandInd) _ _ s
    unfold obexDoCallback
    rw [wp_bind, wp_get, wp_bind]
    have hcalls := Keeps.iterate s.context.events fun e _ =>
      Keeps.iterate (commandInd e) fun c _ => keeps_uploadCall (W := W) c
    exact wp_conseq (hcalls s h) fun _ s' h' => h'.context_with rfl rfl rfl id
  | connectDone response nonhdr => exact wp_obexConnectDone h (of_decide_eq_true hclear)
  | streamEmpty =>
    have hlen : s.object.any _ = true := hdomain
    rcases h with ⟨w, o, h⟩ | ⟨hgone, -⟩
    · rw [h.object] at hlen
      exact wp_streamEmpty h (of_decide_eq_true hlen)
    · rw [hgone] at hlen
      cases hlen
  | streamTake n =>
    have hlen : s.object.any _ = true := hdomain
    rcases h with ⟨w, o, h⟩ | ⟨hgone, -⟩
    · rw [h.object] at hlen
      obtain ⟨hbuf, hn⟩ := of_decide_eq_true hlen
      exact wp_streamTake h hbuf hn
    · rw [hgone] at hlen
      cases hlen
  | handleResponse bodies ending => cases hdomain
  | linkErr => exact wp_deliverEnd fun _ => h.sound.gone

theorem uploading_start {buf : Bytes} (hbuf : buf.length = obexLowlevelBufSize) :
    Uploading (obexTransfer cmdPut buf) := by
  refine .inl ⟨⟨buf, 0, 0, Nat.zero_le _⟩, _, rfl, rfl, ⟨rfl, rfl, rfl, hbuf, fun _ => rfl⟩, ?_, ?_,
    ?_, rfl, rfl⟩
  · show (0 : Int) < (32767 : Nat)
    decide
  · exact (Window.contents _).eq_nil_of_length_eq_zero Window.length_contents |>.symm
  · intro chunk hchunk
    cases hchunk

theorem upload_in_order (ops : List LowLevelOp) {buf : Bytes}
    (hbuf : buf.length = obexLowlevelBufSize) :
    wp (lowLevelRun W (uploading.and clearUpload) ops) (fun _ s => UploadSound s)
      (fun e _ => e = .barred)
      (obexTransfer cmdPut buf) :=
  wp_conseq (Keeps.iterate ops (fun op _ => keeps_upload op) _ (uploading_start hbuf))
    fun _ _ h => h.sound

/-- The first chunk is consumed before anything else is written. -/
theorem upload_in_order_two : ∃ buf : Bytes, buf.length = obexLowlevelBufSize ∧
    wp (lowLevelRun neverFails (uploading.and clearUpload)
        [.call (.write [1, 2]), .call .flush, .streamEmpty, .streamTake 2, .call .closeTransfer,
          .streamEmpty])
      (fun _ s => UploadSound s) (fun e _ => e = .barred) (obexTransfer cmdPut buf) := by
  obtain ⟨buf, hbuf⟩ := exists_buf
  exact ⟨buf, hbuf, upload_in_order _ hbuf⟩

/-- The state when the first chunk has emptied the buffer. -/
def emptied (rest : Bytes) : LowLevel :=
  { obexTransfer cmdPut (1 :: rest) with
    context := {
      buf := 1 :: rest, dataStart := 0, dataLength := 0, txMax := obexLowlevelBufSize, close := false
      events := [.streamempty] }
    object := some {
      cmd := cmdPut, suspend := true, firstPacketSent := true, continueReceived := false
      sBuf := some ⟨0, 1, [1]⟩, sLen := 1, sOffset := 0, sStop := false }
    written := [1]
    chunks := [⟨0, 1, [1]⟩] }

theorem wp_emptied {b : UInt8} {rest : Bytes} (hrest : rest.length = 32766) :
    wp (lowLevelRun neverFails uploading [.call (.write [1]), .call .flush, .streamEmpty])
      (fun _ s => s = emptied rest) (fun _ _ => False) (obexTransfer cmdPut (b :: rest)) := by
  unfold lowLevelRun
  simp [iterate, lowLevelOp, admitted, guardedCall, lowLevelCall, obexWrite, obexFlush, currentCommand,
    obexTransfer, uploading, i32, sizeT, obexLowlevelBufSize, copyToBuf, hrest, cmdPut, Mem.write,
    streamEmpty, obexWritestream, addStreamData, suspendRequest, resumeRequest, queueEvent, slice, u32,
      emptied, neverFails, cmdGet]

/-- The byte that is written next goes over the chunk. -/
theorem wp_overwrite {rest : Bytes} (hrest : rest.length = 32766) {s : LowLevel}
    (hs : s = emptied rest) :
    wp (lowLevelRun neverFails uploading [.call (.write [2])])
      (fun _ s' => ∃ o, s'.object = some o ∧ o.sBuf = some ⟨0, 1, [1]⟩ ∧ slice s'.context.buf 0 1 = [2])
      (fun _ _ => False) s := by
  subst hs
  unfold lowLevelRun
  simp [iterate, lowLevelOp, admitted, guardedCall, lowLevelCall, obexWrite, currentCommand,
    obexTransfer, uploading, i32, sizeT, obexLowlevelBufSize, copyToBuf, hrest, cmdPut, Mem.write,
      slice, emptied]

theorem chunk_overwritten : ¬ ∀ (W : LowLevelEnv) (ops : List LowLevelOp) (buf : Bytes),
    buf.length = obexLowlevelBufSize →
    wp (lowLevelRun W uploading ops) (fun _ s => UploadSound s) (fun e _ => e = .barred)
      (obexTransfer cmdPut buf) := by
  intro hall
  obtain ⟨rest, hrest⟩ : ∃ rest : Bytes, rest.length = 32766 :=
    ⟨List.replicate 32766 0, List.length_replicate⟩
  have hbuf : (0 :: rest).length = obexLowlevelBufSize := congrArg (· + 1) hrest
  have hrun := hall neverFails
    ([.call (.write [1]), .call .flush, .streamEmpty] ++ [.call (.write [2])]) _ hbuf
  have hover :=
    wp_iterate_append.2 (wp_conseq (wp_emptied (b := 0) hrest) fun _ s hs => wp_overwrite hrest hs)
  refine not_wp_false (wp_mono (wp_and hrun hover) ?_ fun _ _ h => h.2)
  rintro _ s ⟨hsound, o, hobject, hchunk, hslice⟩
  have hintact := hsound.intact o _ hobject hchunk
  cases hslice.symm.trans hintact

end

end OpenObex
