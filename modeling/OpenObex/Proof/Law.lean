import OpenObex.Proof.Runs

/-!
# Invariants of the whole library

Many an invariant does not depend on the contents of an object. `SendLaw` and `Law` say what such an
invariant must be closed under; it is then kept by every function of the library. `ServerLaw` and
`ClientLaw` add the steps that only one side takes: the start of a request, the packet a connect header
is read from, the change to the client's mode.

The invariant comes in two strengths: `P` holds while a packet is handled, `R` also after the last
event of a request and where the library stops.
-/

namespace OpenObex

open Mem Prog

/-- From `P`, `m` returns to `P` or stops with `R`. -/
abbrev Holds {α : Type} (P R : Obex → Prop) (m : M α) : Prop := Keeps P (fun _ => R) m

/-- From `P`, `m` ends with `R`. -/
def Ends {α : Type} (P R : Obex → Prop) (m : M α) : Prop :=
  ∀ s, P s → wp m (fun _ => R) (fun _ => R) s

/-- `P` is kept, also by errors. -/
abbrev Still {α : Type} (P : Obex → Prop) (m : M α) : Prop := Holds P P m

theorem stops_still (P : Obex → Prop) : Stops P (fun _ => P) := fun _ _ _ h => h

/-- What the library does to an object: it fills no transmit queue, keeps the last response code and,
`OBEX_CancelRequest` apart, does not abort it. -/
structure LibStep (o o' : ObexObject) : Prop where
  queue : o.txHeaderq = [] → o'.txHeaderq = []
  lastopcode : o'.lastopcode = o.lastopcode
  abort : o'.abort = o.abort

theorem LibStep.of_eq {o o' : ObexObject} (hq : o'.txHeaderq = o.txHeaderq)
    (hl : o'.lastopcode = o.lastopcode) (ha : o'.abort = o.abort) : LibStep o o' :=
  ⟨fun h => by rw [hq, h], hl, ha⟩

theorem RxStep.libStep {o o' : ObexObject} (h : RxStep o o') : LibStep o o' := by
  have herase : o'.eraseRx = o.eraseRx := h
  have hl := congrArg ObexObject.lastopcode herase
  have ha := congrArg ObexObject.abort herase
  exact .of_eq h.txHeaderq hl ha

theorem libStep_remove (o : ObexObject) (h : HeaderElement) :
    LibStep o { o with txHeaderq := slistRemove o.txHeaderq h } :=
  ⟨fun hq => by rw [hq]; rfl, rfl, rfl⟩

theorem libStep_body (o : ObexObject) (f : HeaderElement → HeaderElement) :
    LibStep o { o with txHeaderq := o.txHeaderq.map f } :=
  ⟨fun hq => by rw [hq]; rfl, rfl, rfl⟩

section
variable {α β : Type} {P R : Obex → Prop}

theorem stops_holds (hR : ∀ s, P s → R s) : Stops P (fun _ => R) := fun _ s _ h => hR s h

namespace Holds

variable (hR : ∀ s, P s → R s)
include hR

theorem selfObject : Holds P R selfObject := by
  intro s hs
  rw [wp_selfObject]
  exact ⟨fun _ _ => hs, fun _ => hR s hs⟩

theorem deref (p : Ptr) : Holds P R (deref p) := keeps_deref (stops_holds hR) p

theorem require {f : Fault} {x : Option α} : Holds P R (require f x) := by
  intro s hs
  rw [wp_require]
  exact ⟨fun _ _ => hs, fun _ => hR s hs⟩

theorem stop (e : Stop) : Holds P R (throw e : M α) := hR

theorem byteAt (b : Buf) (n : Nat) : Holds P R (byteAt b n) := keeps_byteAt (stops_holds hR) b n

theorem currentOpcode : Holds P R currentOpcode :=
  Keeps.bind (selfObject hR) fun p => Keeps.bind (deref hR p) fun _ => Keeps.pure _

end Holds

namespace Ends

theorem pure (hR : ∀ s, P s → R s) (a : α) : Ends P R (pure a) := hR

theorem bind {m : M β} {f : β → M α} (hm : Holds P R m) (hf : ∀ b, Ends P R (f b)) :
    Ends P R (m >>= f) := fun s hs => wp_seq (hm s hs) fun b s' hs' => hf b s' hs'

theorem bind_pure {m : M β} (hm : Ends P R m) (a : α) : Ends P R (m >>= fun _ => Pure.pure a) :=
  fun s hs => wp_seq (hm s hs) fun _ _ h => h

theorem ite {c : Prop} [Decidable c] {m n : M α} (hm : c → Ends P R m) (hn : ¬ c → Ends P R n) :
    Ends P R (if c then m else n) := by
  split
  · exact hm ‹_›
  · exact hn ‹_›

theorem bind_selfObject (hR : ∀ s, P s → R s) {f : Ptr → M α}
    (h : ∀ p s, P s → s.object = some p → wp (f p) (fun _ => R) (fun _ => R) s) :
    Ends P R (OpenObex.selfObject >>= f) := by
  intro s hs
  rw [wp_bind, wp_selfObject]
  exact ⟨fun p hp => h p s hs hp, fun _ => hR s hs⟩

end Ends

end

/-! ## The transmit buffer does not shrink -/

theorem bufPoke_length {p q : Buf} {k : Nat} {d : Bytes} (h : bufPoke p k d = some q) :
    q.buffer.length = p.buffer.length := by
  obtain ⟨-, -, hb, hle⟩ := bufPoke_some h
  rw [hb, length_write hle]

theorem bufReserveBegin_length {malloc : Nat → Bool} {p q : Buf} {n : Nat}
    (h : bufReserveBegin malloc p n = some q) : p.buffer.length ≤ q.buffer.length := by
  have h1 := p.data_eq
  have h2 := p.size_eq
  have htotal : bufTotalSize p = p.buffer.length := h2
  unfold bufReserveBegin at h
  split at h
  · cases h
    exact Nat.le_refl _
  split at h
  · dsimp only at h
    split at h
    · cases h
    cases h
    have hle : bufTotalSize p ≤ bufTotalSize p + n - p.headAvail - p.dataAvail := by omega
    have hlen := bufResize_length hle ‹_›
    dsimp only
    rw [length_move (by omega) (by omega), hlen]
    omega
  · cases h
    dsimp only
    exact Nat.le_of_eq (length_move (by omega) (by omega)).symm

/-! ## Writing packets -/

section
variable {C : Ctx} {P : Obex → Prop}
  (htx : ∀ s b, s.txMsg.buffer.length ≤ b.buffer.length → P s → P (s.setTxMsg b))
  (hwrite : ∀ chunk, Still P (C.write chunk))
include htx hwrite

theorem still_doWriteLoop (mtu fuel : Nat) (actual : Int) :
    Still P (doWriteLoop C mtu fuel actual) := by
  induction fuel generalizing actual with
  | zero => exact Holds.stop (fun _ h => h) _
  | succ fuel ih =>
    refine Keeps.get_bind fun s _ => Keeps.ite (fun _ => Keeps.pure _) fun _ => ?_
    refine Keeps.bind (hwrite _) fun r => Keeps.ite (fun _ => Keeps.pure _) fun _ => ?_
    refine Keeps.bind (Keeps.modify fun s hs => htx s _ ?_ hs) fun _ => ih r
    exact Nat.le_of_eq (congrArg List.length (bufRemoveBegin_buffer _ _)).symm

theorem still_transportWrite : Still P (obexTransportWrite C) := by
  refine Keeps.get_bind fun s _ => ?_
  have hloop : Still P (doWrite C s.trans.mtu) :=
    Keeps.get_bind fun _ _ => still_doWriteLoop htx hwrite _ _ _
  cases s.trans.type with
  | usb => exact Keeps.ite (fun _ => hwrite _) fun _ => Keeps.pure _
  | custom => exact hwrite _
  | irda => exact hloop
  | inet => exact hloop
  | bluetooth => exact hloop
  | fd => exact hloop

end

section
variable {C : Ctx} {P W R : Obex → Prop} (hR : ∀ s, P s → R s)
  (htx : ∀ s b, s.txMsg.buffer.length ≤ b.buffer.length → P s → P (s.setTxMsg b))
  (hwtx : ∀ s b, s.txMsg.buffer.length ≤ b.buffer.length → W s → W (s.setTxMsg b))
  (hwrite : ∀ chunk, Still W (C.write chunk)) (hW : ∀ s, W s → P s)
include hR htx hwtx hwrite hW

/-- The packet in the log starts with the opcode; `W` holds while it is written. -/
theorem holds_dataRequest {object : Option Ptr} {kind : PacketKind} {opcode : UInt8} {s : Obex}
    (hs : P s) (hpacket : ∀ b d, P (s.setTxMsg b) → d.head? = some opcode →
      W ((s.setTxMsg b).emit (.write object kind d))) :
    wp (obexDataRequest C object kind opcode) (fun _ => P) (fun _ => R) s := by
  rw [obexDataRequest, wp_bind, wp_get, wp_bind, wp_require]
  refine ⟨fun m hm => ?_, fun _ => hR s hs⟩
  rw [wp_bind, wp_require]
  refine ⟨fun b hb => ?_, fun _ => hR s hs⟩
  have hlen : s.txMsg.buffer.length ≤ b.buffer.length := by
    rw [bufPoke_length hb]
    exact bufReserveBegin_length hm
  have hhead : b.contents.head? = some opcode := by
    rw [contents_poke_begin (d := opcode :: be16 m.dataSize) hm hb]
    rfl
  rw [wp_bind, wp_set, wp_bind, wp_emit]
  exact wp_mono (still_transportWrite hwtx hwrite _ (hpacket b _ (htx s b hlen hs) hhead))
    (fun _ s h => hW s h) fun _ s h => hR s (hW s h)

theorem holds_response {opcode : UInt8} (hpacket : ∀ s d, P s → d.head? = some (opcode ||| obexFinal) →
    W (s.emit (.write none .response d))) : Holds P R (obexResponseRequest C opcode) := by
  refine Keeps.bind (Keeps.modify fun s hs => htx s _ (Nat.le_refl _) hs) fun _ => ?_
  refine Keeps.bind (fun s hs => ?_) fun _ => Keeps.pure _
  exact holds_dataRequest hR htx hwtx hwrite hW hs fun b d hb hd => hpacket _ d hb hd

end

/-! ## Sending -/

/-- What an invariant of the send of the object at `p` is closed under; `W` holds while the packet is
written. -/
structure SendLaw (C : Ctx) (p : Ptr) (P W R : Obex → Prop) : Prop where
  stop : ∀ s, P s → R s
  object : ∀ s q o o', P s → s.objects q = some o → LibStep o o' → P (s.setObject q (some o'))
  txMsg : ∀ s b, s.txMsg.buffer.length ≤ b.buffer.length → P s → P (s.setTxMsg b)
  event : Holds P R (obexDeliverEvent C .streamempty 0 0 false)
  packet : ∀ s o a f d, P s → s.objects p = some o → d.head? = some (chooseOpcode o a f).2 →
    W (s.emit (.write (some p) (chooseOpcode o a f).1 d))
  writeTx : ∀ s b, s.txMsg.buffer.length ≤ b.buffer.length → W s → W (s.setTxMsg b)
  write : ∀ chunk, Still W (C.write chunk)
  written : ∀ s, W s → P s

namespace SendLaw

variable {C : Ctx} {p : Ptr} {P W R : Obex → Prop} (F : SendLaw C p P W R)
include F

theorem update {f : ObexObject → ObexObject} (q : Ptr) (h : ∀ o, LibStep o (f o)) :
    Holds P R (update q f) :=
  keeps_update (stops_holds F.stop) fun s o hs ho => F.object s q o _ hs ho (h o)

theorem insert (d : Bytes) : Holds P R (txInsertEnd C d) := by
  intro s hs
  rw [txInsertEnd, wp_bind, wp_get, wp_bind, wp_require]
  refine ⟨fun b hb => F.txMsg s b ?_ hs, fun _ => F.stop _ hs⟩
  rw [(bufInsertEnd_length hb).2]
  exact Nat.le_max_left _ _

theorem store {α : Type} {s : Obex} (hs : P s) {k : Nat} {d : Bytes} {b : Buf}
    (hle : s.txMsg.buffer.length ≤ b.buffer.length) {f : Buf → M α}
    (hf : ∀ m, P (s.setTxMsg m) → wp (f m) (fun _ => P) (fun _ => R) s) :
    wp (require .outOfBounds (bufPoke b k d) >>= f) (fun _ => P) (fun _ => R) s := by
  rw [wp_bind, wp_require]
  refine ⟨fun m hm => hf m (F.txMsg s m ?_ hs), fun _ => F.stop _ hs⟩
  rwa [bufPoke_length hm]

theorem askForData (q : Ptr) : Holds P R (askForData C q) := by
  refine Keeps.bind (Holds.deref F.stop q) fun o => Keeps.ite (fun _ => ?_) fun _ => Keeps.pure _
  refine Keeps.bind (F.update q fun _ => by exact .of_eq rfl rfl rfl) fun _ => Keeps.bind F.event
    fun _ => ?_
  refine Keeps.bind (Holds.deref F.stop q) fun o => Keeps.ite (fun _ => Keeps.pure _) fun _ => ?_
  exact Keeps.ite (fun _ => Keeps.pure _) fun _ => Keeps.ite (fun _ => Keeps.pure _) fun _ =>
    Keeps.pure _

theorem streamLoop (q : Ptr) (fuel n k : Nat) : Holds P R (sendStreamLoop C q fuel n k) := by
  induction fuel generalizing n k with
  | zero => exact Holds.stop F.stop _
  | succ fuel ih =>
    refine Keeps.bind (F.askForData q) fun r => ?_
    cases r with
    | failed => exact Keeps.pure _
    | stop => exact Keeps.pure _
    | data =>
      refine Keeps.bind (Holds.deref F.stop q) fun o => Keeps.ite (fun _ => ?_) fun _ => ?_
      · refine Keeps.bind (keeps_copyFrom (stops_holds F.stop) _ _ _) fun _ => ?_
        refine Keeps.bind (F.insert _) fun _ => ?_
        exact Keeps.bind (F.update q fun _ => by exact .of_eq rfl rfl rfl) fun _ => Keeps.pure _
      · refine Keeps.bind (keeps_copyFrom (stops_holds F.stop) _ _ _) fun _ => ?_
        refine Keeps.bind (F.insert _) fun _ => ?_
        refine Keeps.bind (F.update q fun _ => by exact .of_eq rfl rfl rfl) fun _ => ?_
        exact Keeps.ite (fun _ => ih _ _) fun _ => Keeps.pure _

theorem sendStream (h : HeaderElement) (n : Nat) : Holds P R (sendStream C h n) := by
  refine Keeps.bind (Holds.selfObject F.stop) fun q => ?_
  intro s hs
  rw [wp_bind, wp_get, wp_bind, wp_require]
  refine ⟨fun r hr => ?_, fun _ => F.stop _ hs⟩
  have hle : s.txMsg.buffer.length ≤ r.1.buffer.length := by
    rw [bufReserveEnd_length hr]
    exact Nat.le_max_left _ _
  rw [wp_bind, wp_set]
  refine wp_seq (F.streamLoop q _ _ _ _ (F.txMsg s _ hle hs)) fun x s hs => ?_
  cases x with
  | none => exact hs
  | some actual =>
    refine wp_seq (Holds.deref F.stop q s hs) fun o s hs => ?_
    dsimp only
    refine wp_ite.2 ⟨fun _ => F.stop _ hs, fun _ => ?_⟩
    refine wp_seq (keeps_when (fun _ => F.update q fun o => libStep_remove o h) s hs) fun _ s hs => ?_
    rw [wp_bind, wp_get]
    refine wp_ite.2 ⟨fun _ => F.stop _ hs, fun _ => ?_⟩
    refine F.store hs (Nat.le_refl _) fun m hm => ?_
    rw [wp_bind, wp_set]
    exact hm

theorem sendBody (q : Ptr) (h : HeaderElement) (n : Nat) : Holds P R (sendBody C q h n) := by
  intro s hs
  rw [OpenObex.sendBody, wp_bind, wp_get, wp_bind, wp_require]
  refine ⟨fun r hr => ?_, fun _ => F.stop _ hs⟩
  have hle : s.txMsg.buffer.length ≤ r.1.buffer.length := by
    rw [bufReserveEnd_length hr]
    exact Nat.le_max_left _ _
  rw [wp_bind, wp_require]
  refine ⟨fun b _ => ?_, fun _ => F.stop _ hs⟩
  dsimp only
  refine wp_ite.2 ⟨fun _ => ?_, fun _ => ?_⟩
  · rw [wp_bind]
    refine wp_peek (fun d _ => ?_) (F.stop _ hs)
    refine F.store hs hle fun m hm => ?_
    rw [wp_bind, wp_set]
    refine wp_seq (F.insert _ _ hm) fun _ s hs => ?_
    exact wp_seq (F.update q (fun o => libStep_body o _) s hs) fun _ _ hs => hs
  · refine F.store hs hle fun m hm => ?_
    rw [wp_bind, wp_set]
    refine wp_seq (F.insert _ _ hm) fun _ s hs => ?_
    exact wp_seq (F.update q (fun o => libStep_remove o h) s hs) fun _ _ hs => hs

theorem suspendAfter (q : Ptr) (h : HeaderElement) : Holds P R (suspendAfter q h) :=
  keeps_when fun _ => F.update q fun _ => by exact .of_eq rfl rfl rfl

theorem sendHeader (q : Ptr) (h : HeaderElement) (n : Nat) : Holds P R (sendHeader C q h n) := by
  have hremove :
    Holds P R (OpenObex.update q fun o => { o with txHeaderq := slistRemove o.txHeaderq h }) :=
    F.update q fun o => libStep_remove o h
  refine Keeps.get_bind fun s _ => Keeps.ite (fun _ => ?_) fun _ => Keeps.ite (fun _ => ?_) fun _ =>
    Keeps.ite (fun _ => ?_) fun _ => Keeps.ite (fun _ => ?_) fun _ => ?_
  · refine Keeps.bind (F.suspendAfter q h) fun _ => Keeps.bind (F.sendStream h n) fun r => ?_
    cases r with
    | none => exact Keeps.pure _
    | some _ => exact Keeps.pure _
  · refine Keeps.bind (F.suspendAfter q h) fun _ => ?_
    exact Keeps.bind (F.sendBody q h n) fun _ => Keeps.pure _
  · refine Keeps.bind (F.suspendAfter q h) fun _ => ?_
    exact Keeps.bind hremove fun _ => Keeps.pure _
  · refine Keeps.bind (Holds.require F.stop) fun b => ?_
    refine Keeps.bind (keeps_peek (stops_holds F.stop) _ _ _) fun d => Keeps.bind (F.insert _)
      fun _ => ?_
    refine Keeps.bind (F.suspendAfter q h) fun _ => ?_
    exact Keeps.bind hremove fun _ => Keeps.pure _
  · exact Keeps.ite (fun _ => Keeps.pure _) fun _ => Keeps.pure _

theorem sendHeaders (q : Ptr) (fuel n : Nat) : Holds P R (sendHeaders C q fuel n) := by
  induction fuel generalizing n with
  | zero => exact Holds.stop F.stop _
  | succ fuel ih =>
    refine Keeps.bind (Holds.deref F.stop q) fun o => ?_
    cases o.txHeaderq with
    | nil => exact Keeps.pure _
    | cons h hs =>
      refine Keeps.bind (F.sendHeader q h n) fun r => ?_
      cases r with
      | none => exact Keeps.pure _
      | some x =>
        exact Keeps.bind (Holds.deref F.stop q) fun o => Keeps.ite (fun _ => ih _) fun _ => Keeps.pure _

theorem sendNonhdr (q : Ptr) : Holds P R (sendNonhdr C q) := by
  refine Keeps.bind (Holds.deref F.stop q) fun o => ?_
  cases o.txNonhdrData with
  | none => exact Keeps.pure _
  | some d => exact Keeps.bind (F.insert _) fun _ => F.update q fun _ => by exact .of_eq rfl rfl rfl

theorem send (a f : Bool) : Holds P R (obexObjectSend C p a f) := by
  refine Keeps.bind (Holds.deref F.stop p) fun o => Keeps.ite (fun _ => Keeps.pure _) fun _ => ?_
  refine Keeps.get_bind fun s hs => ?_
  refine Keeps.bind (Keeps.set (F.txMsg s _ (Nat.le_refl _) hs)) fun _ => ?_
  refine Keeps.bind (F.sendNonhdr p) fun _ => Keeps.bind (F.sendHeaders p _ _) fun ok => ?_
  refine Keeps.ite (fun _ => ?_) fun _ => Keeps.pure _
  intro s hs
  rw [wp_bind, wp_deref]
  refine ⟨fun o ho => ?_, fun _ => F.stop _ hs⟩
  refine wp_seq (holds_dataRequest F.stop F.txMsg F.writeTx F.write F.written hs fun b d hb hd =>
    F.packet _ o a f d hb ho hd) fun r s hs => ?_
  dsimp only
  exact wp_ite.2 ⟨fun _ => hs, fun _ => hs⟩

end SendLaw

/-! ## The library -/

/-- The events that end a request. -/
@[simp] def Event.final : Event → Bool
  | .reqdone | .linkerr | .parseerr | .abort => true
  | _ => false

/-- The other events that need no special care. -/
@[simp] def Event.routine : Event → Bool
  | .progress | .req | .reqcheck | .unexpected => true
  | _ => false

/-- What an invariant of the library is closed under. `Go` says when the current object may be sent and
its request be done. -/
structure Law (C : Ctx) (Go : List Obs → Prop) (P R : Obex → Prop) : Prop where
  stop : ∀ s, P s → R s
  object : ∀ s q o o', P s → s.objects q = some o → LibStep o o' → P (s.setObject q (some o'))
  delete : ∀ s q, P s → P (s.setObject q none)
  new : ∀ s o, P s → o.txHeaderq = [] →
    P (({ s with fresh := s.fresh + 1 } : Obex).setObject s.fresh (some o))
  fresh : ∀ s, P s → P { s with fresh := s.fresh + 1 }
  txMsg : ∀ s b, s.txMsg.buffer.length ≤ b.buffer.length → P s → P (s.setTxMsg b)
  rxMsg : ∀ s b, P s → P (s.setRxMsg b)
  idle : ∀ s, P s → P (s.setState .srv .idle)
  go : ∀ s p o, P s → s.object = some p → s.objects p = some o → o.abort = false → Go s.log
  send : ∀ s p o, P s → Go s.log → s.object = some p → s.objects p = some o →
    ∃ P' W, P' s ∧ SendLaw C p P' W R ∧ ∀ s', P' s' → P s' ∧ Go s'.log
  stream : ∀ hi len s, P s → s.rxMsg.reach[0]? = some hi →
    wp (obexObjectReceiveStream C hi len) (fun _ => P) (fun _ => R) s
  event : ∀ e cmd rsp s, e.routine = true → P s →
    wp (obexDeliverEvent C e cmd rsp false) (fun _ => P) (fun _ => R) s
  final : ∀ e cmd rsp s, e.final = true → (e = .reqdone → rsp ≠ obexRspSuccess ∧ Go s.log) → P s →
    wp (obexDeliverEvent C e cmd rsp true) (fun _ => R) (fun _ => R) s

namespace Law

section
variable {C : Ctx} {Go : List Obs → Prop} {P R : Obex → Prop} (F : Law C Go P R)
include F

theorem update {f : ObexObject → ObexObject} (q : Ptr) (h : ∀ o, LibStep o (f o)) :
    Holds P R (update q f) :=
  keeps_update (stops_holds F.stop) fun s o hs ho => F.object s q o _ hs ho (h o)

theorem updateCurrent {f : ObexObject → ObexObject} (h : ∀ o, LibStep o (f o)) :
    Holds P R (updateCurrent f) := Keeps.bind (Holds.selfObject F.stop) fun p => F.update p h

theorem connectframe (p : Ptr) : Holds P R (obexInsertConnectframe C p) :=
  keeps_connectframe (stops_holds F.stop) fun s o _ hs ho =>
    F.object s p o _ hs ho (.of_eq rfl rfl rfl)

theorem deliver {e : Event} {rsp : UInt8} (h : e.routine = true) (cmd : UInt8) :
    Holds P R (obexDeliverEvent C e cmd rsp false) := fun s hs => F.event e cmd rsp s h hs

/-- The last event of a request that is not done. -/
theorem last {e : Event} {rsp : UInt8} (h : e.final = true) (hdone : e ≠ .reqdone) (cmd : UInt8) :
    Ends P R (obexDeliverEvent C e cmd rsp true) :=
  fun s hs => F.final e cmd rsp s h (fun h => absurd h hdone) hs

theorem rxStream : RxStream C P (fun _ => R) where
  stop := stops_holds F.stop
  current := Holds.selfObject F.stop
  rxMsg := F.rxMsg
  fresh := F.fresh
  object s q o o' hs ho h := F.object s q o o' hs ho h.libStep
  stream := F.stream

theorem wp_send {s : Obex} {p : Ptr} (hs : P s) (hg : ∀ o, s.objects p = some o → Go s.log)
    (hp : s.object = some p) (a f : Bool) :
    wp (obexObjectSend C p a f) (fun _ s' => P s' ∧ Go s'.log) (fun _ => R) s := by
  cases ho : s.objects p with
  | none =>
    rw [obexObjectSend, wp_bind, wp_deref, ho]
    exact ⟨by simp, fun _ => F.stop s hs⟩
  | some o =>
    obtain ⟨P', W, hs', F', h⟩ := F.send s p o hs (hg o ho) hp ho
    exact wp_conseq (F'.send a f s hs') fun _ s' hs' => h s' hs'

theorem lastEvent {e : Event} {rsp : UInt8} (h : e.final = true) (hdone : e ≠ .reqdone) (ret : Int) :
    Ends P R (do
      obexDeliverEvent C e (← currentOpcode) rsp true
      pure ret) :=
  Ends.bind (Holds.currentOpcode F.stop) fun _ => Ends.bind_pure (F.last h hdone _) _

theorem receiveUnexpected (connect : Bool) : Holds P R (receiveUnexpected C connect) :=
  Keeps.ite (fun _ => Keeps.pure _) fun _ => Keeps.bind F.rxStream.receive fun _ => Keeps.pure _

omit F in
/-- The union of a family of invariants. -/
theorem union {ι : Type} {Q S : ι → Obex → Prop} (h : ∀ i, Law C Go (Q i) (S i)) :
    Law C Go (fun s => ∃ i, Q i s) (fun s => ∃ i, S i s) where
  stop s hs := hs.imp fun i hs => (h i).stop s hs
  object s q o o' hs ho hl := hs.imp fun i hs => (h i).object s q o o' hs ho hl
  delete s q hs := hs.imp fun i hs => (h i).delete s q hs
  new s o hs ho := hs.imp fun i hs => (h i).new s o hs ho
  fresh s hs := hs.imp fun i hs => (h i).fresh s hs
  txMsg s b hle hs := hs.imp fun i hs => (h i).txMsg s b hle hs
  rxMsg s b hs := hs.imp fun i hs => (h i).rxMsg s b hs
  idle s hs := hs.imp fun i hs => (h i).idle s hs
  go := by
    rintro s p o ⟨i, hs⟩ hp ho ha
    exact (h i).go s p o hs hp ho ha
  send := by
    rintro s p o ⟨i, hs⟩ hg hp ho
    obtain ⟨P', W, hs', F', hP⟩ := (h i).send s p o hs hg hp ho
    refine ⟨P', W, hs', { F' with stop := fun s hs => ⟨i, F'.stop s hs⟩, event := fun s hs => ?_ },
      fun s' hs' => ⟨⟨i, (hP s' hs').1⟩, (hP s' hs').2⟩⟩
    exact wp_mono (F'.event s hs) (fun _ _ h => h) fun _ _ h => ⟨i, h⟩
  stream := by
    rintro hi len s ⟨i, hs⟩ hhi
    exact wp_mono ((h i).stream hi len s hs hhi) (fun _ _ hs => ⟨i, hs⟩) fun _ _ hs => ⟨i, hs⟩
  event := by
    rintro e cmd rsp s he ⟨i, hs⟩
    exact wp_mono ((h i).event e cmd rsp s he hs) (fun _ _ hs => ⟨i, hs⟩) fun _ _ hs => ⟨i, hs⟩
  final := by
    rintro e cmd rsp s he hg ⟨i, hs⟩
    exact wp_mono ((h i).final e cmd rsp s he hg hs) (fun _ _ hs => ⟨i, hs⟩) fun _ _ hs => ⟨i, hs⟩

end

section
variable {C : Ctx} {Go : List Obs → Prop} {P : Obex → Prop} (F : Law C Go P P)
include F

/-- `OBEX_ResumeRequest` for the object at `p`. -/
theorem resume {s : Obex} {p : Ptr} (hrecv : ∀ s, P s → P (s.setState s.mode .recv)) (hs : P s)
    (hp : s.object = some p)
    (hg : ∀ o, s.objects p = some o → o.suspend = true →
      (o.firstPacketSent = true → o.continueReceived = true) → Go s.log) :
    wp (obexObjectResume C p) (fun _ => P) (fun _ => P) s := by
  rw [obexObjectResume, wp_bind, wp_deref]
  refine ⟨fun o ho => ?_, fun _ => hs⟩
  refine wp_ite.2 ⟨fun _ => hs, fun hsus => ?_⟩
  have hs' := F.object s p o { o with suspend := false } hs ho (.of_eq rfl rfl rfl)
  rw [wp_bind, wp_update]
  refine ⟨fun o' ho' => ?_, fun _ => hs⟩
  cases ho.symm.trans ho'
  refine wp_ite.2 ⟨fun _ => hs', fun hc => ?_⟩
  have hg : Go s.log := by
    refine hg o ho (by simpa using hsus) fun hf => ?_
    by_contra hn
    exact hc ⟨hf, hn⟩
  refine wp_seq (F.wp_send hs' (fun _ _ => hg) hp true false) ?_
  rintro ret s₁ ⟨hs₁, hg₁⟩
  rw [wp_bind, wp_deref]
  refine ⟨fun o₁ _ => ?_, fun _ => hs₁⟩
  refine wp_ite.2 ⟨fun _ => ?_, fun _ => wp_ite.2 ⟨fun _ => ?_, fun _ => ?_⟩⟩
  · exact wp_seq (F.last (by simp) (by simp) _ s₁ hs₁) fun _ _ hs => hs
  · refine wp_seq (F.deliver (by simp) _ s₁ hs₁) fun _ s₂ hs₂ => ?_
    refine wp_seq (F.update p (fun _ => by exact .of_eq rfl rfl rfl) s₂ hs₂) fun _ s₃ hs₃ => ?_
    rw [wp_bind, wp_modify]
    exact hrecv s₃ hs₃
  · rw [wp_bind, wp_get]
    refine wp_ite.2 ⟨fun _ => ?_, fun _ => ?_⟩
    · refine wp_seq (F.final _ _ _ s₁ (by simp) (fun _ => ⟨by decide, hg₁⟩) hs₁) fun _ s₂ hs₂ => ?_
      rw [wp_bind, wp_modify]
      exact F.idle s₂ hs₂
    · rw [wp_bind, wp_modify]
      exact hrecv s₁ hs₁

/-- `OBEX_CancelRequest` without an ABORT. -/
theorem cancelHard (hlink : Still P (obexDeliverEvent C .linkerr 0 0 false)) :
    Still P (obexCancelrequest C false) := by
  refine Keeps.get_bind fun s _ => Keeps.ite (fun _ => Keeps.pure _) fun _ => Keeps.ite (fun _ => ?_)
    fun h => absurd (by simp) h
  refine Keeps.bind (F.last (by simp) (by simp) _) fun _ => ?_
  refine Keeps.bind (Keeps.modify fun s hs => F.txMsg s _ (Nat.le_refl _) hs) fun _ => ?_
  refine Keeps.bind (Keeps.modify fun s hs => F.rxMsg s _ hs) fun _ => ?_
  exact Keeps.bind hlink fun _ => Keeps.pure _

/-- A request that has failed: the state is reset and the last event delivered. -/
theorem failed {e : Event} (h : e.final = true) (hdone : e ≠ .reqdone) {f : Obex → Obex}
    (hf : ∀ s, P s → P (f s)) (ret : Int) : Still P (do
      modify f
      obexDeliverEvent C e (← currentOpcode) 0 true
      pure ret) :=
  Keeps.bind (Keeps.modify hf) fun _ => F.lastEvent h hdone ret

theorem clientStart (hcli : ∀ s st, st = .recv ∨ st = .idle ∧ Go s.log → P s → P (s.setState .cli st))
    (rsp : UInt8) {s : Obex} (hs : P s)
    (hg : ∀ p o, s.object = some p → s.objects p = some o → Go s.log) :
    wp (clientStart C rsp) (fun _ => P) (fun _ => P) s := by
  rw [OpenObex.clientStart, wp_bind, wp_get]
  cases hp : s.object with
  | none => exact wp_seq (F.last (by simp) (by simp) _ s hs) fun _ _ hs => hs
  | some p =>
    refine wp_seq (F.wp_send hs (fun o ho => hg p o hp ho) hp true false) ?_
    rintro ret s₁ ⟨hs₁, hg₁⟩
    refine wp_ite.2 ⟨fun _ => ?_, fun _ => ?_⟩
    · rw [wp_bind, setState, wp_modify]
      exact F.lastEvent (by simp) (by simp) 0 _ (hcli s₁ _ (.inr ⟨rfl, hg₁⟩) hs₁)
    refine wp_seq (F.updateCurrent (fun _ => by exact .of_eq rfl rfl rfl) s₁ hs₁) fun _ s₂ hs₂ => ?_
    refine wp_seq (Holds.currentOpcode F.stop s₂ hs₂) fun op s₃ hs₃ => ?_
    refine wp_seq (F.deliver (by simp) _ s₃ hs₃) fun _ s₄ hs₄ => ?_
    rw [wp_bind, setState, wp_modify]
    exact hcli s₄ _ (.inl rfl) hs₄

/-- `OBEX_Request` -/
theorem requestCall (hcli : ∀ s st, st = .recv ∨ st = .idle ∧ Go s.log → P s → P (s.setState .cli st))
    {p : Ptr} {s : Obex} (hs : P s)
    (h : s.object = none →
      P (({ s with object := some p, mode := .cli, state := .start } : Obex).emit (.request p)) ∧
        Go (s.log ++ [.request p])) : wp (obexRequest C p) (fun _ => P) (fun _ => P) s := by
  rw [obexRequest, wp_bind, wp_get]
  refine wp_ite.2 ⟨fun _ => hs, fun ho => ?_⟩
  obtain ⟨hs, hg⟩ := h (by simpa using ho)
  rw [wp_bind, wp_set, obexClient, wp_bind, wp_get, wp_bind, if_neg (by simp), wp_pure]
  exact F.clientStart hcli _ hs fun _ _ _ _ => hg

/-- The response that ends a request, where success needs no care. -/
theorem clientDone {rsp : UInt8} (hdone : ∀ cmd s, P s → Go s.log →
      wp (obexDeliverEvent C .reqdone cmd rsp true) (fun _ => P) (fun _ => P) s) :
    Still P (clientDone C rsp) := by
  refine Keeps.bind (Keeps.modify F.idle) fun _ => ?_
  intro s hs
  rw [wp_bind, wp_selfObject]
  refine ⟨fun p hp => ?_, fun _ => hs⟩
  rw [wp_bind, wp_deref]
  refine ⟨fun o ho => ?_, fun _ => hs⟩
  refine wp_seq ?_ fun _ _ hs => hs
  cases ha : o.abort with
  | true =>
    have he : (if rsp = obexRspSuccess then Event.abort else .linkerr).final = true := by
      split <;> rfl
    have hne : (if rsp = obexRspSuccess then Event.abort else .linkerr) ≠ .reqdone := by
      split <;> simp
    exact F.last he hne _ s hs
  | false => exact hdone _ s hs (F.go s p o hs hp ho ha)

/-- The client's handling of a packet that comes while it is sending. -/
theorem clientSend (hcli : ∀ s st, st = .recv ∨ st = .idle ∧ Go s.log → P s → P (s.setState .cli st))
    (hgo : ∀ s, P s → Go s.log) (rsp : UInt8) : Still P (clientSend C rsp) := by
  have hstart : Still P (OpenObex.clientStart C rsp) :=
    fun s hs => F.clientStart hcli rsp hs fun _ _ _ _ => hgo s hs
  refine Keeps.ite (fun hr => ?_) fun _ => Keeps.get_bind fun s _ => ?_
  · refine Keeps.bind (Holds.currentOpcode F.stop) fun _ => Keeps.bind (fun s hs => ?_) fun _ =>
      Keeps.pure _
    exact F.final _ _ _ s (by simp) (fun _ => ⟨hr.1, hgo s hs⟩) hs
  refine Keeps.bind (Holds.byteAt F.stop _ _) fun a => Keeps.bind (Holds.byteAt F.stop _ _) fun b => ?_
  refine Keeps.ite (fun _ => ?_) fun _ => hstart
  refine Keeps.bind (Holds.currentOpcode F.stop) fun op =>
    Keeps.bind (F.receiveUnexpected _) fun bad => ?_
  refine Keeps.ite (fun _ => F.failed (by simp) (by simp) F.idle _) fun _ => ?_
  refine Keeps.bind (Holds.currentOpcode F.stop) fun _ => ?_
  exact Keeps.bind (F.deliver (by simp) _) fun _ => hstart

end

end Law

/-! ## Sending the ABORT -/

/-- What an invariant of `OBEX_CancelRequest` with an ABORT is closed under. -/
structure CancelLaw (C : Ctx) (P : Obex → Prop) : Prop where
  new : ∀ s o, P s → o.txHeaderq = [] →
    P (({ s with fresh := s.fresh + 1 } : Obex).setObject s.fresh (some o))
  delete : ∀ s q, P s → P (s.setObject q none)
  txMsg : ∀ s b, s.txMsg.buffer.length ≤ b.buffer.length → P s → P (s.setTxMsg b)
  write : ∀ chunk, Still P (C.write chunk)
  packet : ∀ s q o d, P s → s.objects q = some o → o.txHeaderq = [] → o.lastopcode = obexCmdAbort →
    d.head? = some (obexCmdAbort ||| obexFinal) → P (s.emit (.write (some q) .last d))
  abort : ∀ s p o, P s → s.object = some p → s.objects p = some o →
    P ((s.setObject p (some { o with abort := true })).setState .cli .recv)

namespace CancelLaw

variable {C : Ctx} {P : Obex → Prop} (F : CancelLaw C P)
include F

theorem cancel : Still P (obexCancelrequest C true) := by
  refine Keeps.get_bind fun s _ => Keeps.ite (fun _ => Keeps.pure _) fun _ =>
    Keeps.ite (fun h => absurd h (by simp)) fun _ => ?_
  intro s hs
  rw [wp_bind]
  refine wp_objectNew hs ?_
  rw [wp_bind, wp_update]
  refine ⟨fun o ho => ?_, fun _ => F.new s _ hs rfl⟩
  rw [objects_setObject, Option.some.injEq] at ho
  subst ho
  rw [setObject_setObject]
  have hs' := F.new s (obexObjectSetcmd (obexObjectSetrsp zeroObject obexRspNotImplemented
    obexRspNotImplemented) obexCmdAbort obexCmdAbort) hs rfl
  have hreuse {t : Obex} (ht : P t) : P (t.setTxMsg (bufReuse t.txMsg)) :=
    F.txMsg t _ (Nat.le_refl _) ht
  have hsend : wp (obexObjectSend C s.fresh true true) (fun _ => P) (fun _ => P)
      (({ s with fresh := s.fresh + 1 } : Obex).setObject s.fresh
        (some (obexObjectSetcmd (obexObjectSetrsp zeroObject obexRspNotImplemented
          obexRspNotImplemented) obexCmdAbort obexCmdAbort))) := by
    refine wp_send_empty (fun _ _ => hreuse hs') (objects_setObject _ _ _) rfl rfl rfl ?_
    exact holds_dataRequest (fun _ h => h) F.txMsg F.txMsg F.write (fun _ h => h) (hreuse hs')
      fun b d hb hd => F.packet _ _ _ d hb (objects_setObject _ _ _) rfl rfl hd
  have hdelete (q : Ptr) : Still P (obexObjectDelete (some q)) :=
    Keeps.bind (Holds.deref (fun _ h => h) q) fun _ =>
      Keeps.bind (Keeps.modify fun s hs => F.delete s q hs) fun _ => Keeps.pure _
  refine wp_seq hsend fun ret s hs => ?_
  refine wp_ite.2 ⟨fun _ => ?_, fun _ => ?_⟩
  · exact wp_seq (hdelete _ s hs) fun _ _ hs => hs
  refine wp_seq (hdelete _ s hs) fun _ s hs => ?_
  rw [wp_bind, updateCurrent, wp_bind, wp_selfObject]
  refine ⟨fun p hp => ?_, fun _ => hs⟩
  rw [wp_update]
  refine ⟨fun o ho => ?_, fun _ => hs⟩
  rw [wp_bind, OpenObex.setState, wp_modify]
  exact F.abort s p o hs hp ho

end CancelLaw

/-! ## The server -/

/-- The handle when a request has come in and its object is new. -/
def Obex.incoming (s : Obex) (cmd : UInt8) : Obex :=
  { ({ s with fresh := s.fresh + 1 } : Obex).setObject s.fresh
      (some { obexObjectSetrsp zeroObject obexRspNotImplemented obexRspNotImplemented with cmd }) with
    object := some s.fresh }

/-- Nothing has been received yet: the packet is refused, or its object is new. -/
theorem wp_serverIdle {C : Ctx} {cmd : UInt8} {len : Nat} {final : Bool} {Q : Int → Obex → Prop}
    {R : Stop → Obex → Prop} {s : Obex}
    (hresponse : wp (do
      obexResponseRequest C obexRspInternalServerError
      pure (-1)) Q R s)
    (hhint : s.object = none → wp (serverHint C cmd len final) Q R (s.incoming cmd)) :
    wp (serverIdle C cmd len final) Q R s := by
  rw [serverIdle, wp_bind, wp_get]
  refine wp_ite.2 ⟨fun _ => hresponse, fun hno => ?_⟩
  have hno : s.object = none := by simpa using hno
  rw [wp_bind]
  refine wp_objectNew hresponse ?_
  rw [wp_bind, wp_modify, wp_bind, wp_update]
  have hnew := objects_setObject { s with fresh := s.fresh + 1 } s.fresh
    (some (obexObjectSetrsp zeroObject obexRspNotImplemented obexRspNotImplemented))
  refine ⟨fun o ho => ?_, fun hn => ?_⟩
  · cases hnew.symm.trans ho
    have hstate : ({ ({ s with fresh := s.fresh + 1 } : Obex).setObject s.fresh
          (some (obexObjectSetrsp zeroObject obexRspNotImplemented obexRspNotImplemented)) with
          object := some s.fresh } : Obex).setObject s.fresh
          (some { obexObjectSetrsp zeroObject obexRspNotImplemented obexRspNotImplemented with cmd }) =
        s.incoming cmd :=
      setObject_setObject ({ s with fresh := s.fresh + 1, object := some s.fresh } : Obex) s.fresh _ _
    rw [hstate]
    exact hhint hno
  · cases hnew.symm.trans hn

/-- What an invariant of the server is closed under. `Start` holds when a packet is dispatched,
`Hinted cmd` when the application has heard of a new request. -/
structure ServerLaw (C : Ctx) (Start : Obex → Prop) (Hinted : UInt8 → Obex → Prop)
    (Go : List Obs → Prop) (P W R : Obex → Prop) : Prop extends Law C Go P R where
  ready : ∀ s, P s → Go s.log
  writeTx : ∀ s b, s.txMsg.buffer.length ≤ b.buffer.length → W s → W (s.setTxMsg b)
  write : ∀ chunk, Still W (C.write chunk)
  written : ∀ s, W s → P s
  srv : ∀ s st, P s → P (s.setState .srv st)
  response : ∀ s d, P s → W (s.emit (.write none .response d))
  denied : ∀ s, P s → P (s.emit .denied)
  disconnect : ∀ s, P s → P { s with mtuTx := obexMinimumMtu }
  start : ∀ s, Start s → P s
  hint : ∀ s op, Start s → s.object = none → s.state = .idle → s.rxMsg.reach[0]? = some op →
    wp (obexDeliverEvent C .reqhint (withoutFinal op) 0 false) (fun _ => Hinted (withoutFinal op))
      (fun _ => R) (s.incoming (withoutFinal op))
  hinted : ∀ cmd s, Hinted cmd s → P s
  connect : ∀ s, Hinted obexCmdConnect s → P { s with mtuTx := announcedMtu s }

namespace ServerLaw

variable {C : Ctx} {Start : Obex → Prop} {Hinted : UInt8 → Obex → Prop} {Go : List Obs → Prop}
  {P W R : Obex → Prop} (F : ServerLaw C Start Hinted Go P W R)
include F

theorem bareResponse (opcode : UInt8) : Holds P R (obexResponseRequest C opcode) :=
  holds_response F.stop F.txMsg F.writeTx F.write F.written fun s d hs _ => F.response s d hs

theorem setState (st : State) : Holds P R (setState .srv st) := Keeps.modify fun s hs => F.srv s st hs

theorem abort (cmd : UInt8) : Ends P R (serverAbort C cmd) :=
  Ends.bind (F.bareResponse _) fun _ => Ends.bind (F.setState _) fun _ =>
    F.lastEvent (by simp) (by simp) _

theorem parseerr (cmd : UInt8) : Ends P R (serverParseerr C cmd) :=
  Ends.bind (F.bareResponse _) fun _ => Ends.bind (F.setState _) fun _ =>
    F.lastEvent (by simp) (by simp) _

theorem respond (cmd : UInt8) : Ends P R (serverRespond C cmd) := by
  refine Ends.bind (F.updateCurrent fun _ => by exact .of_eq rfl rfl rfl) fun _ => ?_
  refine Ends.bind_selfObject F.stop fun p s hs hp => ?_
  rw [wp_bind, wp_deref]
  refine ⟨fun o _ => ?_, fun _ => F.stop s hs⟩
  refine wp_ite.2 ⟨fun _ => F.stop s hs, fun _ => ?_⟩
  refine wp_seq (F.wp_send hs (fun _ _ => F.ready s hs) hp true true) ?_
  rintro ret s₁ ⟨hs₁, hg₁⟩
  refine wp_ite.2 ⟨fun _ => ?_, fun _ => wp_ite.2 ⟨fun _ => ?_, fun _ => ?_⟩⟩
  · refine wp_seq (F.deliver (by simp) _ s₁ hs₁) fun _ s₂ hs₂ => ?_
    refine wp_seq (F.updateCurrent (fun _ => by exact .of_eq rfl rfl rfl) s₂ hs₂) fun _ s₃ hs₃ => ?_
    exact wp_seq (F.updateCurrent (fun _ => by exact .of_eq rfl rfl rfl) s₃ hs₃) fun _ s hs =>
      F.stop s hs
  · exact wp_seq (F.last (by simp) (by simp) _ s₁ hs₁) fun _ _ hs => hs
  · refine wp_seq (keeps_when (fun _ => Keeps.modify F.disconnect) s₁ hs₁) fun _ s₂ hs₂ => ?_
    refine wp_seq (F.setState _ s₂ hs₂) fun _ s₃ hs₃ => ?_
    exact wp_seq (F.final _ _ _ s₃ (by simp) (fun _ => ⟨by decide, F.ready s₃ hs₃⟩) hs₃)
      fun _ _ hs => hs

theorem inSend (cmd : UInt8) (len : Nat) : Ends P R (serverSend C cmd len) := by
  refine Ends.ite (fun _ => F.abort cmd) fun _ => Ends.ite (fun _ => ?_) fun _ => F.respond cmd
  refine Ends.bind (F.receiveUnexpected _) fun bad => Ends.ite (fun _ => F.parseerr 0) fun _ => ?_
  refine Ends.bind (Holds.currentOpcode F.stop) fun _ => ?_
  exact Ends.bind (F.deliver (by simp) _) fun _ => F.respond cmd

theorem check (cmd : UInt8) (final : Bool) : Holds P R (serverCheck C cmd final) := by
  refine Keeps.ite (fun _ => Keeps.pure _) fun _ => Keeps.bind (Holds.selfObject F.stop) fun p => ?_
  refine Keeps.bind (Holds.deref F.stop p) fun o => Keeps.bind (keeps_when fun _ => ?_) fun _ => ?_
  · refine Keeps.bind (F.deliver (by simp) _) fun _ => ?_
    exact F.updateCurrent fun _ => by exact .of_eq rfl rfl rfl
  refine Keeps.bind (Holds.currentOpcode F.stop) fun op => Keeps.ite (fun _ => Keeps.pure _) fun _ => ?_
  exact Keeps.bind (fun s hs => F.denied s hs) fun _ => Keeps.pure _

theorem inRec (cmd : UInt8) (len : Nat) (final : Bool) : Ends P R (serverRec C cmd len final) := by
  refine Ends.ite (fun _ => F.abort cmd) fun _ => Ends.bind (Holds.selfObject F.stop) fun p => ?_
  refine Ends.bind (Holds.deref F.stop p) fun o => Ends.ite (fun _ => F.parseerr cmd) fun _ => ?_
  refine Ends.bind F.rxStream.receive fun ret => Ends.ite (fun _ => F.parseerr 0) fun _ => ?_
  refine Ends.bind (F.check cmd final) fun r => Ends.bind_selfObject F.stop fun p s hs hp => ?_
  refine wp_ite.2 ⟨fun _ => ?_, fun _ => ?_⟩
  · refine wp_seq (F.wp_send hs (fun _ _ => F.ready s hs) hp false true) ?_
    rintro ret s₁ ⟨hs₁, -⟩
    refine wp_ite.2 ⟨fun _ => ?_, fun _ => ?_⟩
    · exact wp_seq (F.last (by simp) (by simp) _ s₁ hs₁) fun _ _ hs => hs
    · exact wp_seq (F.deliver (by simp) _ s₁ hs₁) fun _ s hs => F.stop s hs
  refine wp_seq (Holds.deref F.stop p s hs) fun o s₁ hs₁ => ?_
  refine wp_ite.2 ⟨fun _ => ?_, fun _ => F.inSend cmd len s₁ hs₁⟩
  have hframe : Holds P R (when (cmd = obexCmdConnect) do
      let _ ← obexInsertConnectframe C p) :=
    keeps_when fun _ => Keeps.bind (F.connectframe p) fun _ => Keeps.pure _
  refine wp_seq (hframe s₁ hs₁) fun _ s₂ hs₂ => ?_
  have hreq : Holds P R (when (¬ r.2) (obexDeliverEvent C .req cmd 0 false)) :=
    keeps_when fun _ => F.deliver (by simp) _
  refine wp_seq (hreq s₂ hs₂) fun _ s₃ hs₃ => ?_
  exact wp_seq (F.setState _ s₃ hs₃) fun _ s₄ hs₄ => F.inSend cmd 3 s₄ hs₄

theorem begin (cmd : UInt8) (len : Nat) (final : Bool) {s : Obex} (hs : Hinted cmd s) :
    wp (if cmd = obexCmdConnect then serverConnect C cmd len final
      else do
        when (cmd = obexCmdSetpath) (OpenObex.updateCurrent fun o => { o with headeroffset := 2 })
        OpenObex.setState .srv .recv
        serverRec C cmd len final) (fun _ => R) (fun _ => R) s := by
  have hrec : Ends P R (do
      OpenObex.setState .srv .recv
      serverRec C cmd len final) := Ends.bind (F.setState _) fun _ => F.inRec cmd len final
  have hP := F.hinted cmd s hs
  refine wp_ite.2 ⟨fun hc => ?_, fun _ => ?_⟩
  · rw [serverConnect, wp_bind]
    refine wp_parseConnectHeader (F.stop s hP) ?_ ?_
    · rw [if_neg (by decide)]
      refine wp_seq (F.updateCurrent (fun _ => by exact .of_eq rfl rfl rfl) _ (F.connect s (hc ▸ hs)))
        fun _ s hs => ?_
      exact hrec s hs
    · rw [if_pos (by decide)]
      refine wp_seq (F.bareResponse _ s hP) fun _ s hs => ?_
      exact F.lastEvent (by simp) (by simp) _ s hs
  · refine wp_seq (keeps_when (fun _ => F.updateCurrent fun _ => by exact .of_eq rfl rfl rfl) s hP)
      fun _ s hs => ?_
    exact hrec s hs

theorem inIdle {op : UInt8} (len : Nat) (final : Bool) {s : Obex} (hs : Start s) (hst : s.state = .idle)
    (hop : s.rxMsg.reach[0]? = some op) :
    wp (serverIdle C (withoutFinal op) len final) (fun _ => R) (fun _ => R) s := by
  have hP := F.start s hs
  have hresponse : Ends P R (do
      obexResponseRequest C obexRspInternalServerError
      pure (-1)) := Ends.bind (F.bareResponse _) fun _ => Ends.pure F.stop _
  refine wp_serverIdle (hresponse s hP) fun hno => ?_
  rw [serverHint, wp_bind]
  exact wp_mono (F.hint s op hs hno hst hop) (fun _ s₁ hs₁ => F.begin _ len final hs₁) fun _ _ hs => hs

theorem server (final : Bool) {s : Obex} (hs : Start s) :
    wp (obexServer C final) (fun _ => R) (fun _ => R) s := by
  have hP := F.start s hs
  have hR := F.stop s hP
  rw [obexServer, wp_bind, wp_get, wp_bind]
  refine wp_byteAt_reach (fun op hop => ?_) fun _ => hR
  rw [wp_bind]
  refine wp_byteAt (fun a _ => ?_) hR
  rw [wp_bind]
  refine wp_byteAt (fun b _ => ?_) hR
  dsimp only
  cases hst : s.state with
  | idle => exact F.inIdle _ final hs hst hop
  | recv => exact F.inRec _ _ final s hP
  | send => exact F.inSend _ _ s hP
  | start =>
    refine wp_seq (F.bareResponse _ s hP) fun _ s hs => ?_
    exact wp_seq (F.last (by simp) (by simp) _ s hs) fun _ _ hs => hs

end ServerLaw

/-! ## The client -/

/-- What an invariant of the client is closed under. `Start rsp` holds when a response is dispatched,
`Answer rsp` until it has been received. -/
structure ClientLaw (C : Ctx) (Start Answer : UInt8 → Obex → Prop) (Go : List Obs → Prop)
    (P : Obex → Prop) : Prop extends Law C Go P P where
  cli : ∀ s st, st = .recv ∨ st = .idle ∧ Go s.log → P s → P (s.setState .cli st)
  first : ∀ s p o, P s → s.mode = .cli → s.state = .start → s.object = some p →
    s.objects p = some o → Go s.log
  start : ∀ rsp s, Start rsp s → P s
  opened : ∀ rsp s p o, Start rsp s → s.state = .recv → s.object = some p → s.objects p = some o →
    Answer rsp s
  connect : ∀ rsp s p o, Start rsp s → s.state = .recv → s.object = some p →
    s.objects p = some o → o.opcode = obexCmdConnect → Answer rsp { s with mtuTx := announcedMtu s }
  answer : ∀ rsp s, Answer rsp s → P s
  offset : ∀ rsp s q o n, Answer rsp s → s.objects q = some o →
    Answer rsp (s.setObject q (some { o with headeroffset := n }))
  disconnect : ∀ rsp s, Answer rsp s → Answer rsp { s with mtuTx := obexMinimumMtu }
  receive : ∀ rsp, Keeps (Answer rsp) (fun _ => P) (obexObjectReceive C)
  done : ∀ rsp s, Answer rsp s → rsp ≠ obexRspContinue →
    wp (clientDone C rsp) (fun _ => P) (fun _ => P) s
  unexpected : ∀ rsp s, Start rsp s → s.mode = .cli → s.state = .send →
    wp (clientSend C rsp) (fun _ => P) (fun _ => P) s

namespace ClientLaw

variable {C : Ctx} {Start Answer : UInt8 → Obex → Prop} {Go : List Obs → Prop} {P : Obex → Prop}
  (F : ClientLaw C Start Answer Go P)
include F

theorem inContinue : Still P (clientContinue C) := by
  refine Keeps.bind (F.updateCurrent fun _ => by exact .of_eq rfl rfl rfl) fun _ => ?_
  refine Ends.bind_selfObject F.stop fun p s hs hp => ?_
  rw [wp_bind, wp_deref]
  refine ⟨fun o ho => ?_, fun _ => hs⟩
  refine wp_ite.2 ⟨fun _ => hs, fun ha => wp_ite.2 ⟨fun _ => hs, fun _ => ?_⟩⟩
  refine wp_seq (F.wp_send hs (fun _ _ => F.go s p o hs hp ho (by simpa using ha)) hp true false) ?_
  rintro ret s₁ ⟨hs₁, -⟩
  refine wp_seq (Holds.currentOpcode F.stop s₁ hs₁) fun op s₂ hs₂ => ?_
  have hevent : Still P (if ret < 0 then obexDeliverEvent C .linkerr op 0 true
      else obexDeliverEvent C .progress op 0 false) :=
    Keeps.ite (fun _ => F.last (by simp) (by simp) _) fun _ => F.deliver (by simp) _
  refine wp_seq (hevent s₂ hs₂) fun _ s₃ hs₃ => ?_
  rw [wp_bind, wp_get]
  cases s₃.object with
  | none => exact hs₃
  | some q =>
    exact wp_seq (F.update q (fun _ => by exact .of_eq rfl rfl rfl) s₃ hs₃) fun _ _ hs => hs

/-- The connect header is looked for in the packet as it came. -/
theorem connectHeader {rsp : UInt8} {s : Obex} (hs : Start rsp s) (hst : s.state = .recv) :
    wp clientConnect (fun _ => Answer rsp) (fun _ => P) s := by
  have hP := F.start rsp s hs
  rw [clientConnect, wp_bind, currentOpcode, wp_bind, wp_selfObject]
  refine ⟨fun p hp => ?_, fun _ => hP⟩
  rw [wp_bind, wp_deref]
  refine ⟨fun o ho => ?_, fun _ => hP⟩
  have hA := F.opened rsp s p o hs hst hp ho
  rw [wp_pure]
  refine wp_ite.2 ⟨fun hc => ?_, fun _ => hA⟩
  rw [wp_bind]
  refine wp_parseConnectHeader hP ?_ ?_
  · rw [if_neg (by decide), wp_bind, updateCurrent, wp_bind, wp_selfObject]
    have hA := F.connect rsp s p o hs hst hp ho hc
    refine ⟨fun p _ => ?_, fun _ => F.answer rsp _ hA⟩
    rw [wp_update]
    exact ⟨fun o ho => F.offset rsp _ p o 4 hA ho, fun _ => F.answer rsp _ hA⟩
  · rw [if_pos (by decide)]
    exact hA

theorem inRec {rsp : UInt8} {s : Obex} (hs : Start rsp s) (hst : s.state = .recv) :
    wp (clientRec C rsp) (fun _ => P) (fun _ => P) s := by
  have hbad : Still P (do
      setState .srv .idle
      obexDeliverEvent C .parseerr (← currentOpcode) 0 true
      pure (-1)) := F.failed (by simp) (by simp) F.idle _
  have hA {s : Obex} (hs : Answer rsp s) : P s := F.answer rsp s hs
  refine wp_seq (F.connectHeader hs hst) fun ok s₁ hs₁ => ?_
  refine wp_ite.2 ⟨fun _ => ?_, fun _ => hbad s₁ (hA hs₁)⟩
  rw [wp_bind, currentOpcode, wp_bind, wp_selfObject]
  refine ⟨fun p _ => ?_, fun _ => hA hs₁⟩
  rw [wp_bind, wp_deref]
  refine ⟨fun o _ => ?_, fun _ => hA hs₁⟩
  have hwhen : wp (when (o.opcode = obexCmdDisconnect)
      (modify fun s => { s with mtuTx := obexMinimumMtu })) (fun _ => Answer rsp) (fun _ => P) s₁ := by
    rw [wp_when]
    exact ⟨fun _ => F.disconnect rsp s₁ hs₁, fun _ => hs₁⟩
  rw [wp_pure]
  refine wp_seq hwhen fun _ s₂ hs₂ => ?_
  refine wp_seq (F.receive rsp s₂ hs₂) fun ret s₃ hs₃ => ?_
  refine wp_ite.2 ⟨fun _ => hbad s₃ (hA hs₃), fun _ => wp_ite.2 ⟨fun _ => ?_, fun hc => ?_⟩⟩
  · exact F.inContinue s₃ (hA hs₃)
  · exact F.done rsp s₃ hs₃ hc

theorem client {s : Obex} (hs : ∀ op, s.rxMsg.reach[0]? = some op → Start (withoutFinal op) s)
    (hP : P s) : wp (obexClient C true) (fun _ => P) (fun _ => P) s := by
  rw [obexClient, wp_bind, wp_get, wp_bind, if_pos rfl, wp_bind]
  refine wp_byteAt_reach (fun op hop => ?_) fun _ => hP
  have hs := hs op hop
  rw [wp_pure]
  split
  · exact F.unexpected _ s hs ‹_› ‹_›
  · exact F.clientStart F.cli _ hP fun p o hp ho => F.first s p o hP ‹_› ‹_› hp ho
  · exact F.inRec hs ‹_›
  · exact wp_seq (F.last (by simp) (by simp) _ s hP) fun _ _ hs => hs

end ClientLaw

/-! ## Runs -/

section
variable {E : Env} {G : Guard} {n : Nat} {P : Obex → Prop}

/-- What the application's calls keep, at every level of nesting further in. -/
def CallsKeep (E : Env) (G : Guard) (P : Obex → Prop) (n : Nat) : Prop :=
  ∀ m, m < n → ∀ c s, P s → G.nested c s = true →
    wp (api (E.ctx G m) c) (fun _ => P) (fun _ => P) s

/-- Nesting: what the calls keep one level of it further in, for a family of invariants. -/
theorem callsKeep {ι : Type} {P : ι → Obex → Prop}
    (h : ∀ n, (∀ i, CallsKeep E G (P i) n) → ∀ i c s, P i s → G.nested c s = true →
      wp (api (E.ctx G n) c) (fun _ => P i) (fun _ => P i) s) (n : Nat) (i : ι) :
    CallsKeep E G (P i) n := by
  induction n generalizing i with
  | zero =>
    intro m hm
    omega
  | succ n ih =>
    intro m hm
    exact h m (fun j k hk => ih j k (by omega)) i

/-- The callback of an event, and the guard when it returns. -/
theorem CallsKeep.eventcb (h : CallsKeep E G P n) (notice : Notice) {s : Obex} (hs : P s) :
    wp ((E.ctx G n).eventcb notice) (fun _ s' => P s' ∧ G.after notice s' = true) (fun _ => P) s :=
  wp_eventcb (stops_still P) hs fun m hm c _ s hs hg => h m hm c s hs hg

theorem CallsKeep.deliver (h : CallsKeep E G P n) {e : Event} {cmd rsp : UInt8} {s : Obex}
    (hs : P (s.emit (.event (noticeOf s e cmd rsp)))) :
    wp (obexDeliverEvent (E.ctx G n) e cmd rsp false)
      (fun _ s' => P s' ∧ G.after (noticeOf s e cmd rsp) s' = true) (fun _ => P) s :=
  wp_deliverEvent (h.eventcb _ hs)

theorem CallsKeep.deliverLast (h : CallsKeep E G P n) (hdelete : ∀ s q, P s → P (s.setObject q none))
    {e : Event} {cmd rsp : UInt8} {s : Obex}
    (hs : P (({ s with object := none } : Obex).emit (.event (noticeOf s e cmd rsp)))) :
    wp (obexDeliverEvent (E.ctx G n) e cmd rsp true) (fun _ => P) (fun _ => P) s := by
  refine wp_deliverLast (wp_conseq (h.eventcb _ hs) fun _ s' hs' => ?_)
  exact ⟨fun p _ => ⟨hdelete s' p hs'.1, hs'.1⟩, fun _ => hs'.1⟩

theorem still_write (hio : ∀ s c r, P s → P (s.emit (.io c r))) (chunk : Bytes) :
    Still P ((E.ctx G n).write chunk) := by
  intro s hs
  rw [ctx_write]
  exact wp_transportWrite (fun _ => hio s _ _ hs) (hio s _ _ hs)

/-- Incoming data, where a packet is dispatched or the link fails. -/
theorem still_indication (hrx : ∀ s b, P s → P (s.setRxMsg b))
    (hread : ∀ s r, P s → P (s.emit (.read r)))
    (hlink : Still P (obexDeliverEvent (E.ctx G n) .linkerr 0 0 true))
    (hdispatch : ∀ final, Still P (dispatch (E.ctx G n) final)) (buf : Option Bytes) (buflen : Int) :
    Still P (obexDataIndication (E.ctx G n) buf buflen) := by
  intro s hs
  have F : ReadFrame G P (fun _ => P) False := ⟨stops_still P, hrx, hread, by simp⟩
  have hbytes (max : Nat) (buf : Bytes) (buflen : Int) (hmax : 0 < max) :
      Yields P (fun _ => P) (fun r => False → 0 < r) (obexTransportRead (E.ctx G n) max buf buflen) :=
    F.obexTransportRead buf buflen hmax (by simp) (by simp) (by simp)
  refine wp_dataIndication (P := P) (stops_still P) (fun _ h => h) hbytes
    (fun s final hs _ => hdispatch final s hs) hs fun _ _ s actual hs => ?_
  exact wp_seq (hlink s hs) fun _ _ hs => hs

/-- A whole packet goes to the side of the handle's mode. -/
theorem still_dispatch (hrx : ∀ s b, P s → P (s.setRxMsg b))
    (hrecv : ∀ s, P s → P (s.emit (.recv s.rxMsg.contents)))
    (hserver : ∀ s final, P s → G.recv s = true → s.mode = .srv →
      wp (obexServer (E.ctx G n) final) (fun _ => P) (fun _ => P) (s.emit (.recv s.rxMsg.contents)))
    (hclient : ∀ s, P s → G.recv s = true → s.mode = .cli →
      wp (obexClient (E.ctx G n) true) (fun _ => P) (fun _ => P) (s.emit (.recv s.rxMsg.contents)))
    (final : Bool) : Still P (dispatch (E.ctx G n) final) := by
  intro s hs
  rw [dispatch, ctx_recv, wp_bind]
  refine wp_packetReceived (fun hg => ?_) (hrecv s hs)
  rw [wp_bind, wp_get]
  cases hm : s.mode with
  | srv =>
    have hm' : (s.emit (.recv s.rxMsg.contents)).mode = .srv := hm
    rw [hm']
    exact wp_seq (hserver s final hs hg hm) fun _ s hs => hrx s _ hs
  | cli =>
    have hm' : (s.emit (.recv s.rxMsg.contents)).mode = .cli := hm
    rw [hm']
    exact wp_seq (hclient s hs hg hm) fun _ s hs => hrx s _ hs

/-- What every call and all incoming data keep, a run keeps. -/
theorem holds_run {R : Obex → Prop} (hR : ∀ s, P s → R s)
    (hcall : ∀ c s, P s → G.op (.call c) s = true →
      wp (api (E.ctx G n) c) (fun _ => P) (fun _ => R) s)
    (hconnect : ∀ s mtu, P s → P { s with trans := { s.trans with connected := true, mtu } })
    (hindication : ∀ buf buflen, Holds P R (obexDataIndication (E.ctx G n) buf buflen))
    (ops : List Op) : Holds P R (run (E.ctx G n) G ops) := by
  intro s hs
  refine wp_run (stops_holds hR) hs fun op _ s hs hg => ?_
  rw [runOp, wp_bind, wp_get, wp_bind, wp_allowed]
  refine ⟨fun _ => ?_, fun _ => hR s hs⟩
  cases op with
  | call c => exact wp_seq (hcall c s hs hg) fun _ _ hs => hs
  | transportConnect mtu => exact hconnect s _ hs
  | customDataFeed d => exact wp_seq (hindication _ _ s hs) fun _ _ hs => hs
  | handleInput =>
    refine wp_ite.2 ⟨fun _ => hs, fun _ => ?_⟩
    exact wp_seq (hindication _ _ s hs) fun _ _ hs => hs

end

end OpenObex
