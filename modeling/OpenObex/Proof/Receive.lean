import OpenObex.Proof.Basic

/-!
# What receiving a packet touches

`obex_object_receive` removes bytes from `rx_msg`, changes the receive side of objects (`RxStep`),
allocates, and delivers `OBEX_EV_STREAMAVAIL`. An invariant closed under these is kept by it.
-/

namespace OpenObex

open Mem Prog

/-- `o` without its receive side. -/
def ObexObject.eraseRx (o : ObexObject) : ObexObject :=
  { o with
    rxHeaderq := [], rxHeaderqRm := [], rxBody := none, rxNonhdrData := none
    headeroffset := 0, hintedBodyLen := 0, sBuf := none, sLen := 0 }

/-- Only the receive side changes. -/
def RxStep (o o' : ObexObject) : Prop := o'.eraseRx = o.eraseRx

theorem RxStep.txHeaderq {o o' : ObexObject} (h : RxStep o o') : o'.txHeaderq = o.txHeaderq := by
  have := congrArg ObexObject.txHeaderq (show o'.eraseRx = o.eraseRx from h)
  exact this

theorem rxStep_hintedBodyLen (o : ObexObject) (n : Int) : RxStep o { o with hintedBodyLen := n } :=
  rfl

/-- What the receiver is kept by, `stream` standing for the handling of a stream fragment: its header is
the next in `rx_msg`. -/
structure RxStream (C : Ctx) (P : Obex → Prop) (E : Stop → Obex → Prop) : Prop where
  stop : Stops P E
  current : Keeps P E selfObject
  rxMsg : ∀ s b, P s → P (s.setRxMsg b)
  fresh : ∀ s, P s → P { s with fresh := s.fresh + 1 }
  object : ∀ s p o o', P s → s.objects p = some o → RxStep o o' → P (s.setObject p (some o'))
  stream : ∀ hi len s, P s → s.rxMsg.reach[0]? = some hi →
    wp (obexObjectReceiveStream C hi len) (fun _ => P) E s

namespace RxStream

variable {C : Ctx} {P : Obex → Prop} {E : Stop → Obex → Prop} (F : RxStream C P E)
include F

theorem update {p : Ptr} {f : ObexObject → ObexObject} (h : ∀ o, RxStep o (f o)) :
    Keeps P E (update p f) :=
  keeps_update F.stop fun s o hs ho => F.object s p o _ hs ho (h o)

theorem removeBegin (n : Nat) :
    Keeps P E (modify fun s => s.setRxMsg (bufRemoveBegin s.rxMsg n)) :=
  Keeps.modify fun s hs => F.rxMsg s _ hs

theorem storeRxBody (p : Ptr) (hi : UInt8) (b : Buf) : Keeps P E (storeRxBody C p hi b) := by
  refine Keeps.ite (fun _ => Keeps.ite (fun _ => ?_) fun _ => F.update fun _ => rfl) fun _ =>
    F.update fun _ => rfl
  exact Keeps.bind (keeps_alloc F.fresh) fun _ => F.update fun _ => rfl

theorem receiveBody (p : Ptr) (hi : UInt8) (len : Nat) :
    Keeps P E (obexObjectReceiveBody C p hi len) := by
  refine Keeps.get_bind fun s _ => Keeps.ite (fun _ => Keeps.pure _) fun _ => ?_
  refine Keeps.bind (keeps_deref F.stop p) fun o => ?_
  split
  · exact Keeps.pure _
  refine Keeps.bind (F.update fun _ => rfl) fun _ => ?_
  split
  · exact Keeps.pure _
  refine Keeps.bind (keeps_peek F.stop _ _ _) fun d => ?_
  refine Keeps.bind (keeps_require F.stop (by simp) _) fun b => ?_
  exact Keeps.bind (F.storeRxBody p hi b) fun _ => Keeps.pure _

theorem queueElement (p : Ptr) (hi : UInt8) (source len : Nat) :
    Keeps P E (queueElement C p hi source len) := by
  refine Keeps.get_bind fun s _ => Keeps.ite (fun _ => ?_) fun _ => Keeps.pure _
  refine Keeps.bind (keeps_alloc F.fresh) fun _ => ?_
  split
  · exact Keeps.pure _
  refine Keeps.bind (keeps_peek F.stop _ _ _) fun d => Keeps.bind ?_ fun b => ?_
  · exact Keeps.ite (fun _ => Keeps.pure _) fun _ => keeps_require F.stop (by simp) _
  · exact Keeps.bind (F.update fun _ => rfl) fun _ => Keeps.pure _

theorem hintBodyLen (p : Ptr) (msg : Buf) : Keeps P E (hintBodyLen p msg) := by
  refine Keeps.bind (keeps_byteAt F.stop _ _) fun _ => Keeps.bind (keeps_byteAt F.stop _ _) fun _ =>
    Keeps.bind (keeps_byteAt F.stop _ _) fun _ => Keeps.bind (keeps_byteAt F.stop _ _) fun _ => ?_
  exact F.update fun o => rxStep_hintedBodyLen o _

theorem receiveValue (p : Ptr) (hi : UInt8) (hlen len : Nat) (source : Option Nat) (err : Bool) :
    Keeps P E (receiveValue C p hi hlen len source err) := by
  refine Keeps.get_bind fun s _ => Keeps.ite (fun _ => Keeps.pure _) fun _ => ?_
  refine Keeps.bind ?_ fun err => Keeps.ite (fun _ => Keeps.pure _) fun _ =>
    Keeps.bind (F.removeBegin _) fun _ => Keeps.pure _
  split
  · exact Keeps.pure _
  refine Keeps.bind (keeps_when fun _ => F.hintBodyLen p _) fun _ => ?_
  exact Keeps.bind (F.queueElement _ _ _ _) fun _ => Keeps.pure _

theorem receiveBodyHeader (p : Ptr) {hi : UInt8} (len : Nat) {s : Obex} (hs : P s)
    (hhi : s.rxMsg.reach[0]? = some hi) :
    wp (receiveBodyHeader C p hi len) (fun _ => P) E s := by
  rw [OpenObex.receiveBodyHeader, wp_bind, wp_deref]
  refine ⟨fun o _ => wp_ite.2 ⟨fun _ => ?_, fun _ => ?_⟩, fun _ => F.stop _ _ (by simp) hs⟩
  · exact wp_seq (F.stream hi len s hs hhi) fun _ _ hs => hs
  · exact wp_seq (F.receiveBody p hi len s hs) fun _ _ hs => hs

theorem receiveHeader (p : Ptr) : Keeps P E (receiveHeader C p) := by
  intro s hs
  have hbyte {n : Nat} {f : UInt8 → M Bool} (hf : ∀ b, wp (f b) (fun _ => P) E s) :
      wp (byteAt s.rxMsg n >>= f) (fun _ => P) E s :=
    wp_bind.2 (wp_byteAt (fun b _ => hf b) (F.stop _ _ (by simp) hs))
  rw [OpenObex.receiveHeader, wp_bind, wp_get, wp_bind]
  refine wp_byteAt_reach (fun hi hhi => ?_) fun _ => F.stop _ _ (by simp) hs
  cases hiType hi with
  | unicode => exact hbyte fun _ => hbyte fun _ => F.receiveValue _ _ _ _ _ _ s hs
  | byteStream =>
    refine hbyte fun _ => hbyte fun _ => wp_ite.2 ⟨fun _ => ?_, fun _ => ?_⟩
    · exact wp_seq (F.receiveBodyHeader p _ hs hhi) fun _ s hs => F.receiveValue _ _ _ _ _ _ s hs
    · exact F.receiveValue _ _ _ _ _ _ s hs
  | byte => exact F.receiveValue _ _ _ _ _ _ s hs
  | int => exact F.receiveValue _ _ _ _ _ _ s hs

theorem receiveHeaders (p : Ptr) (fuel : Nat) : Keeps P E (receiveHeaders C p fuel) := by
  induction fuel with
  | zero =>
    exact Keeps.get_bind fun s _ => Keeps.ite (fun _ => Keeps.pure _) fun _ =>
      keeps_stop F.stop (by simp)
  | succ n ih =>
    refine Keeps.get_bind fun s _ => Keeps.ite (fun _ => Keeps.pure _) fun _ => ?_
    exact Keeps.bind (F.receiveHeader p) fun _ => Keeps.ite (fun _ => Keeps.pure _) fun _ => ih

theorem receiveNonhdr (p : Ptr) : Keeps P E (receiveNonhdr C p) := by
  refine Keeps.bind (keeps_deref F.stop p) fun o => Keeps.ite (fun _ => Keeps.pure _) fun _ => ?_
  split
  · exact Keeps.bind (F.update fun _ => rfl) fun _ => Keeps.pure _
  refine Keeps.get_bind fun s _ => Keeps.bind (keeps_peek F.stop _ _ _) fun _ => ?_
  refine Keeps.bind (keeps_require F.stop (by simp) _) fun _ => ?_
  exact Keeps.bind (F.update fun _ => rfl) fun _ => Keeps.bind (F.removeBegin _) fun _ => Keeps.pure _

theorem receive : Keeps P E (obexObjectReceive C) := by
  refine Keeps.bind (F.removeBegin 3) fun _ => Keeps.bind F.current fun p => ?_
  refine Keeps.bind (F.receiveNonhdr p) fun _ => Keeps.ite (fun _ => ?_) fun _ => Keeps.pure _
  exact Keeps.get_bind fun s _ => F.receiveHeaders p _

end RxStream

/-- An invariant that `OBEX_EV_STREAMAVAIL` keeps too. -/
structure RxFrame (C : Ctx) (P : Obex → Prop) (E : Stop → Obex → Prop) : Prop where
  stop : Stops P E
  current : Keeps P E selfObject
  rxMsg : ∀ s b, P s → P (s.setRxMsg b)
  fresh : ∀ s, P s → P { s with fresh := s.fresh + 1 }
  object : ∀ s p o o', P s → s.objects p = some o → RxStep o o' → P (s.setObject p (some o'))
  event : Keeps P E (obexDeliverEvent C .streamavail 0 0 false)

namespace RxFrame

variable {C : Ctx} {P : Obex → Prop} {E : Stop → Obex → Prop} (F : RxFrame C P E)
include F

theorem receiveStream (hi : UInt8) (len : Nat) : Keeps P E (obexObjectReceiveStream C hi len) := by
  refine Keeps.bind F.current fun p => Keeps.ite (fun _ => Keeps.pure _) fun _ => ?_
  refine Keeps.get_bind fun s _ =>
    Keeps.bind (keeps_update F.stop fun s o hs ho => F.object s p o _ hs ho rfl) fun _ => ?_
  refine Keeps.bind (keeps_deref F.stop p) fun o => Keeps.ite (fun _ => Keeps.pure _) fun _ => ?_
  refine Keeps.bind F.event fun _ => keeps_when fun _ => ?_
  exact Keeps.bind (keeps_update F.stop fun s o hs ho => F.object s p o _ hs ho rfl) fun _ => F.event

theorem stream (hi : UInt8) (len : Nat) (s : Obex) (hs : P s) (_ : s.rxMsg.reach[0]? = some hi) :
    wp (obexObjectReceiveStream C hi len) (fun _ => P) E s := F.receiveStream hi len s hs

theorem toStream : RxStream C P E := ⟨F.stop, F.current, F.rxMsg, F.fresh, F.object, F.stream⟩

theorem receive : Keeps P E (obexObjectReceive C) := F.toStream.receive

end RxFrame

end OpenObex
