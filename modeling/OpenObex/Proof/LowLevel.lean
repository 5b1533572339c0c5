import OpenObex.Lib.Window
import OpenObex.Lib.Wp
import OpenObex.Model.LowLevel

/-!
# The data buffer of the low-level client as a window

While it is used as it should be, `data_start` and `data_length` are a window of the buffer
(`Buffered`), and the C arithmetic on them is exact.
-/

namespace OpenObex

open Mem Prog

/-- The data in the buffer of the context is in `w`. -/
structure Buffered (c : ObexContext) (w : Window) : Prop where
  buf : c.buf = w.block
  start : c.dataStart = w.start
  length : c.dataLength = w.len
  size : w.block.length = obexLowlevelBufSize
  home : w.len = 0 → w.start = 0

section

variable {c : ObexContext} {w : Window} {s : LowLevel} {E : Stop → LowLevel → Prop} {W : LowLevelEnv}

theorem Buffered.stop_le (h : Buffered c w) : w.start + w.len ≤ 32767 := by
  have hin := w.inside
  rw [h.size] at hin
  exact hin

theorem Buffered.freeSpace (h : Buffered c w) :
    i32 (obexLowlevelBufSize - (c.dataStart + c.dataLength)) = (w.room : Int) := by
  have hin := h.stop_le
  rw [h.start, h.length, Window.room, Window.stop, h.size]
  unfold i32 obexLowlevelBufSize
  omega

theorem Buffered.room_le (h : Buffered c w) : w.room ≤ 32767 := by
  rw [Window.room, h.size]
  exact Nat.sub_le _ _

/-- The window may have no data and so no bytes to keep. -/
theorem Buffered.push (h : Buffered c w) {d : Bytes} (hd : d.length ≤ w.room) {c' : ObexContext}
    (hbuf : c'.buf = (w.push d hd).block) (hstart : c'.dataStart = c.dataStart)
    (hlength : c'.dataLength = c.dataLength + d.length) : Buffered c' (w.push d hd) where
  buf := hbuf
  start := hstart.trans h.start
  length := by
    rw [hlength, h.length]
    exact (Int.natCast_add _ _).symm
  size := by
    have hroom : w.stop + d.length ≤ w.block.length := by
      have hin : w.stop ≤ w.block.length := w.inside
      unfold Window.room at hd
      omega
    exact (length_write hroom).trans h.size
  home hlen := h.home (Nat.eq_zero_of_add_eq_zero_right hlen)

theorem Buffered.pull (h : Buffered c w) {n : Nat} (hn : n ≤ w.len) {c' : ObexContext}
    (hbuf : c'.buf = c.buf) (hstart : c'.dataStart = if n = w.len then 0 else c.dataStart + n)
    (hlength : c'.dataLength = c.dataLength - n) : Buffered c' (w.pull n hn) where
  buf := hbuf.trans h.buf
  start := by
    show c'.dataStart = ((if n = w.len then 0 else w.start + n : Nat) : Int)
    rw [hstart, h.start]
    split_ifs
    · rfl
    · exact (Int.natCast_add _ _).symm
  length := by
    show c'.dataLength = ((w.len - n : Nat) : Int)
    rw [hlength, h.length]
    omega
  size := h.size
  home hlen := by
    have hall : n = w.len := Nat.le_antisymm hn (Nat.le_of_sub_eq_zero hlen)
    exact if_pos hall

theorem exists_buf : ∃ buf : Bytes, buf.length = obexLowlevelBufSize :=
  ⟨List.replicate obexLowlevelBufSize 0, List.length_replicate⟩

/-- Memory and sending never fail. -/
def neverFails : LowLevelEnv where
  malloc _ := true
  send _ := 1

theorem sizeT_ofNat {n : Nat} (h : n ≤ 32767) : sizeT n = n := by
  unfold sizeT
  omega

@[simp] theorem wp_modifyContext {f : ObexContext → ObexContext} {Q : Unit → LowLevel → Prop} :
    wp (modifyContext f) Q E s ↔ Q () { s with context := f s.context } := Iff.rfl

@[simp] theorem wp_modifyObject {f : StreamObject → StreamObject} {Q : Unit → LowLevel → Prop} :
    wp (modifyObject f) Q E s ↔ Q () { s with object := s.object.map f } := Iff.rfl

theorem wp_copyToBuf {off : Int} {data : Bytes} {Q : Unit → LowLevel → Prop}
    (h : 0 ≤ off ∧ off + data.length ≤ s.context.buf.length)
    (hq : Q () { s with context := { s.context with buf := write s.context.buf off.toNat data } }) :
    wp (copyToBuf off data) Q E s := by
  unfold copyToBuf
  rw [wp_bind, wp_get, if_pos h]
  exact hq

theorem wp_copyFromBuf {off : Int} {n : Nat} {Q : Bytes → LowLevel → Prop}
    (h : 0 ≤ off ∧ off + n ≤ s.context.buf.length) (hq : Q (slice s.context.buf off.toNat n) s) :
    wp (copyFromBuf off n) Q E s := by
  unfold copyFromBuf
  rw [wp_bind, wp_get, if_pos h]
  exact hq

theorem wp_currentCommand {o : StreamObject} (ho : s.object = some o) {Q : Int → LowLevel → Prop}
    (hq : Q o.cmd.toNat s) : wp currentCommand Q E s := by
  unfold currentCommand
  rw [wp_bind, wp_get, wp_pure, ho]
  exact hq

theorem wp_lowLevelCall_gone (h : s.object = none) (c : LowLevelCall) :
    wp (lowLevelCall W c) (fun _ s' => s' = s) E s := by
  cases c with
  | write buf =>
    unfold lowLevelCall obexWrite currentCommand
    rw [wp_bind, wp_bind, wp_bind, wp_get, wp_pure, h]
    rfl
  | read count =>
    unfold lowLevelCall obexRead currentCommand
    rw [wp_bind, wp_bind, wp_bind, wp_get, wp_pure, h]
    rfl
  | flush =>
    unfold lowLevelCall obexFlush currentCommand
    rw [wp_bind, wp_bind, wp_bind, wp_get, wp_pure, h]
    rfl
  | closeTransfer =>
    unfold lowLevelCall obexCloseTransfer currentCommand
    rw [wp_bind, wp_bind, wp_bind, wp_get, wp_pure, h]
    rfl

theorem wp_queueEvent {e : Event} {Q : Unit → LowLevel → Prop}
    (hq : ∀ events, Q () { s with context := { s.context with events } }) :
    wp (queueEvent W e) Q E s := by
  unfold queueEvent
  split_ifs
  · exact hq _
  · exact hq s.context.events

theorem wp_objectSend {Q : Int → LowLevel → Prop}
    (hq : ∀ ret sends asked, Q ret { s with sends, asked }) :
    wp (objectSend W) Q E s := by
  unfold objectSend
  rw [wp_bind, wp_get]
  dsimp only
  rw [wp_bind, wp_modify]
  exact hq _ _ _

theorem wp_deliverEnd {e : Event} {Q : Unit → LowLevel → Prop}
    (hq : ∀ events, Q () { s with context := { s.context with events }, object := none }) :
    wp (deliverEnd W e) Q E s := by
  unfold deliverEnd
  rw [wp_bind, wp_modify, wp_ite]
  exact ⟨fun _ => wp_queueEvent hq, fun _ => hq s.context.events⟩

/-- A request that is not suspended goes on as it is; otherwise it is sent or waits for the peer, unless
the link fails. -/
theorem wp_resumeRequest {Q : Unit → LowLevel → Prop}
    (hidle : s.object.any StreamObject.suspend = false → Q () s)
    (hgo : ∀ o firstPacketSent continueReceived sends asked, s.object = some o →
      Q () { s with
        object := some { o with suspend := false, firstPacketSent, continueReceived }, sends, asked })
    (hgone : ∀ events sends asked, Q ()
      { s with context := { s.context with events }, object := none, sends, asked }) :
    wp (resumeRequest W) Q E s := by
  unfold resumeRequest
  rw [wp_bind, wp_get]
  cases ho : s.object with
  | none =>
    rw [ho] at hidle
    exact hidle rfl
  | some o =>
    dsimp only
    rw [wp_ite]
    refine ⟨fun hoff => ?_, fun _ => ?_⟩
    · rw [ho] at hidle
      exact hidle (Bool.not_eq_true _ ▸ hoff)
    · rw [wp_bind, wp_modifyObject, ho, wp_ite]
      -- the peer still has the last packet
      refine ⟨fun _ => hgo o o.firstPacketSent o.continueReceived s.sends s.asked ho, fun _ => ?_⟩
      rw [wp_bind]
      refine wp_objectSend fun ret sends asked => ?_
      rw [wp_ite]
      refine ⟨fun _ => wp_deliverEnd fun events => hgone events sends asked, fun _ => ?_⟩
      rw [wp_ite]
      refine ⟨fun _ => ?_, fun _ => hgo o o.firstPacketSent o.continueReceived sends asked ho⟩
      rw [wp_modifyObject]
      exact hgo o true false sends asked ho

theorem wp_admitted {ok : Bool} {Q : Unit → LowLevel → Prop} (hbarred : E .barred s)
    (hq : ok = true → Q () s) :
    wp (admitted ok) Q E s := by
  unfold admitted
  cases ok with
  | true => exact hq rfl
  | false => exact hbarred

end

end OpenObex
