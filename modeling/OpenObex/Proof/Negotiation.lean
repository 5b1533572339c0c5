import OpenObex.Proof.Law

/-!
# The negotiated MTU

`mtu_tx` comes from the peer's connect header, `mtu_tx_max` and the size of `tx_msg` from
`OBEX_SetTransportMTU`. Neither looks at the other: a connect header may announce less than
`OBEX_MINIMUM_MTU`, and a new `mtu_tx_max` may be less than the `mtu_tx` in use. `mtuGuard` bars these
two steps, and a connect header that announces more than a `tx_msg` that could not be enlarged holds;
in every run without them `mtu_tx` stays within its bounds (`mtu_bounds`).
-/

namespace OpenObex

open Mem Prog

/-- The negotiated MTU is one the code can work with. -/
structure MtuBounds (s : Obex) : Prop where
  minimum : obexMinimumMtu ≤ s.mtuTx
  maximum : s.mtuTx ≤ s.mtuTxMax
  capacity : s.mtuTx ≤ bufTotalSize s.txMsg

instance (s : Obex) : Decidable (MtuBounds s) :=
  decidable_of_iff (obexMinimumMtu ≤ s.mtuTx ∧ s.mtuTx ≤ s.mtuTxMax ∧ s.mtuTx ≤ bufTotalSize s.txMsg)
    ⟨fun ⟨h1, h2, h3⟩ => ⟨h1, h2, h3⟩, fun ⟨h1, h2, h3⟩ => ⟨h1, h2, h3⟩⟩

/-- Space at the end of a packet of up to `mtu_tx` bytes is reserved in the `tx_msg` there is. -/
def NeverMoves (s : Obex) : Prop :=
  ∀ (malloc : Nat → Bool) (p : Buf) (n : Nat), p.buffer.length = s.txMsg.buffer.length →
    p.data + p.dataSize + n ≤ s.mtuTx →
    ∃ r, bufReserveEnd malloc p n = some r ∧ r.1.buffer.length = s.txMsg.buffer.length

theorem MtuBounds.three_le {s : Obex} (h : MtuBounds s) : 3 ≤ s.mtuTx := by
  have h1 : 255 ≤ s.mtuTx := h.minimum
  omega

theorem MtuBounds.neverMoves {s : Obex} (h : MtuBounds s) : NeverMoves s := by
  intro malloc p n hp hn
  have hc := h.capacity
  rw [bufTotalSize_eq] at hc
  have hg : Granted malloc p n := .inl (by omega)
  obtain ⟨r, hr⟩ := bufReserveEnd_iff.2 hg
  refine ⟨r, hr, ?_⟩
  rw [bufReserveEnd_length hr, hp]
  omega

/-! ## The steps that break the bounds -/

/-- The connect header leaves an `mtu_tx` within the bounds. -/
def headerOk (s : Obex) : Bool :=
  decide (obexMinimumMtu ≤ announcedMtu s ∧ announcedMtu s ≤ bufTotalSize s.txMsg)

/-- The call does not lower `mtu_tx_max` below `mtu_tx`. -/
def mtuCall (c : Call) (s : Obex) : Bool := match c with
  | .setTransportMtu rx tx =>
    s.object.isSome || decide (rx.toNat < obexMinimumMtu ∨ tx.toNat < obexMinimumMtu ∨
      s.mtuTx ≤ tx.toNat)
  | _ => true

/-- A connect request is parsed when its `OBEX_EV_REQHINT` has returned, a connect response when it is
dispatched. -/
def mtuGuard : Guard where
  op op s := match op with
    | .call c => mtuCall c s
    | _ => true
  nested c s := mtuCall c s
  after n s := !decide (n.event = .reqhint ∧ n.cmd = obexCmdConnect) || headerOk s
  recv s := !(decide (s.mode = .cli ∧ s.state = .recv) &&
    s.current.any fun o => decide (o.opcode = obexCmdConnect)) || headerOk s

/-! ## The invariant -/

/-- What does not touch the three numbers keeps the bounds. -/
theorem MtuBounds.of_eq {s t : Obex} (h : MtuBounds s) (htx : t.mtuTx = s.mtuTx)
    (hmax : t.mtuTxMax = s.mtuTxMax) (hlen : s.txMsg.buffer.length ≤ t.txMsg.buffer.length) :
    MtuBounds t := by
  obtain ⟨h1, h2, h3⟩ := h
  rw [bufTotalSize_eq] at h3
  refine ⟨by rw [htx]; exact h1, by rw [htx, hmax]; exact h2, ?_⟩
  rw [bufTotalSize_eq, htx]
  omega

theorem announcedMtu_le {s : Obex} (h : s.mtuTx ≤ s.mtuTxMax) : announcedMtu s ≤ s.mtuTxMax := by
  unfold announcedMtu
  split
  · split
    · exact h
    · split <;> omega
  · exact h

theorem MtuBounds.connect {s : Obex} (h : MtuBounds s) (hok : headerOk s = true) :
    MtuBounds { s with mtuTx := announcedMtu s } := by
  have hok : obexMinimumMtu ≤ announcedMtu s ∧ announcedMtu s ≤ bufTotalSize s.txMsg := by
    simpa [headerOk] using hok
  exact ⟨hok.1, announcedMtu_le h.maximum, hok.2⟩

theorem MtuBounds.disconnect {s : Obex} (h : MtuBounds s) :
    MtuBounds { s with mtuTx := obexMinimumMtu } :=
  ⟨Nat.le_refl _, Nat.le_trans h.minimum h.maximum, Nat.le_trans h.minimum h.capacity⟩

/-- A buffer is resized to the new size or stays. -/
theorem le_bufResize_length (malloc : Nat → Bool) (p : Buf) (n : Nat) :
    min n p.buffer.length ≤ (bufResize malloc p n).buffer.length := by
  have h1 := (bufResize malloc p n).size_eq
  have h2 := p.size_eq
  by_cases h : n < bufTotalSize p
  · have hlen : (bufResize malloc p n).buffer.length = n := by
      unfold bufResize
      rw [dif_pos h]
      have hd := p.data_eq
      unfold bufTotalSize at h
      dsimp only [bufTotalSize]
      rw [List.length_take, length_move (by omega) (by omega)]
      omega
    omega
  · have hcases : bufResize malloc p n = p ∨ _ := bufResize_eq_of_le (Nat.le_of_not_lt h)
    rcases hcases with he | ⟨hb, -⟩
    · rw [he]
      omega
    · rw [hb, List.length_append]
      omega

theorem MtuBounds.setTransportMtu {s : Obex} (h : MtuBounds s) {malloc : Nat → Bool} {rx tx : Nat}
    (htx : s.mtuTx ≤ tx) : MtuBounds { s with
      mtuRx := rx, mtuTxMax := tx
      rxMsg := bufResize malloc s.rxMsg rx
      txMsg := bufResize malloc s.txMsg tx } := by
  have hc := h.capacity
  have hlen := le_bufResize_length malloc s.txMsg tx
  rw [bufTotalSize_eq] at hc
  refine ⟨h.minimum, htx, ?_⟩
  rw [bufTotalSize_eq]
  dsimp only
  omega

section
variable {E : Env} {n : Nat}

theorem mtu_write (chunk : Bytes) : Still MtuBounds ((E.ctx mtuGuard n).write chunk) :=
  still_write (fun _ _ _ h => h.of_eq rfl rfl (Nat.le_refl _)) chunk

section
variable (hcalls : CallsKeep E mtuGuard MtuBounds n)
include hcalls

theorem mtu_event (e : Event) (cmd rsp : UInt8) (del : Bool) :
    Still MtuBounds (obexDeliverEvent (E.ctx mtuGuard n) e cmd rsp del) := by
  intro s hs
  cases del with
  | true =>
    exact hcalls.deliverLast (fun _ _ h => h.of_eq rfl rfl (Nat.le_refl _))
      (hs.of_eq rfl rfl (Nat.le_refl _))
  | false => exact wp_conseq (hcalls.deliver (hs.of_eq rfl rfl (Nat.le_refl _))) fun _ _ h => h.1

theorem mtu_law : Law (E.ctx mtuGuard n) (fun _ => True) MtuBounds MtuBounds where
  stop _ h := h
  object _ _ _ _ h _ _ := h.of_eq rfl rfl (Nat.le_refl _)
  delete _ _ h := h.of_eq rfl rfl (Nat.le_refl _)
  new _ _ h _ := h.of_eq rfl rfl (Nat.le_refl _)
  fresh _ h := h.of_eq rfl rfl (Nat.le_refl _)
  txMsg _ _ hle h := h.of_eq rfl rfl hle
  rxMsg _ _ h := h.of_eq rfl rfl (Nat.le_refl _)
  idle _ h := h.of_eq rfl rfl (Nat.le_refl _)
  go _ _ _ _ _ _ _ := trivial
  send _ _ _ hs _ _ _ := by
    have htx (s : Obex) (b : Buf) (hle : s.txMsg.buffer.length ≤ b.buffer.length) (h : MtuBounds s) :
        MtuBounds (s.setTxMsg b) := h.of_eq rfl rfl hle
    refine ⟨MtuBounds, MtuBounds, hs, ⟨fun _ h => h, ?_, htx, mtu_event hcalls _ _ _ _, ?_, htx,
      mtu_write, fun _ h => h⟩, fun _ h => ⟨h, trivial⟩⟩
    · exact fun _ _ _ _ h _ _ => h.of_eq rfl rfl (Nat.le_refl _)
    · exact fun _ _ _ _ _ h _ _ => h.of_eq rfl rfl (Nat.le_refl _)
  stream := RxFrame.stream ⟨stops_still _, Holds.selfObject fun _ h => h,
    fun _ _ h => h.of_eq rfl rfl (Nat.le_refl _), fun _ h => h.of_eq rfl rfl (Nat.le_refl _),
    fun _ _ _ _ h _ _ => h.of_eq rfl rfl (Nat.le_refl _), mtu_event hcalls _ _ _ _⟩
  event _ _ _ s _ hs := mtu_event hcalls _ _ _ _ s hs
  final _ _ _ s _ _ hs := mtu_event hcalls _ _ _ _ s hs

theorem mtu_serverLaw : ServerLaw (E.ctx mtuGuard n) MtuBounds
    (fun cmd s => MtuBounds s ∧ (cmd = obexCmdConnect → headerOk s = true)) (fun _ => True) MtuBounds
    MtuBounds MtuBounds where
  toLaw := mtu_law hcalls
  ready _ _ := trivial
  writeTx _ _ hle h := h.of_eq rfl rfl hle
  write := mtu_write
  written _ h := h
  srv _ _ h := h.of_eq rfl rfl (Nat.le_refl _)
  response _ _ h := h.of_eq rfl rfl (Nat.le_refl _)
  denied _ h := h.of_eq rfl rfl (Nat.le_refl _)
  disconnect _ h := h.disconnect
  start _ h := h
  hint _ op hs _ _ _ := by
    refine wp_conseq (hcalls.deliver (hs.of_eq rfl rfl (Nat.le_refl _))) fun _ s' h =>
      ⟨h.1, fun hc => ?_⟩
    have hafter := h.2
    simpa [mtuGuard, noticeOf, hc] using hafter
  hinted _ _ h := h.1
  connect _ h := h.1.connect (h.2 rfl)

/-- A response whose connect header, if it is looked at, is within the bounds. -/
def MtuStart (s : Obex) : Prop :=
  MtuBounds s ∧ ∀ p o, s.mode = .cli → s.state = .recv → s.object = some p → s.objects p = some o →
    o.opcode = obexCmdConnect → headerOk s = true

theorem mtu_clientLaw : ClientLaw (E.ctx mtuGuard n) (fun _ s => MtuStart s ∧ s.mode = .cli)
    (fun _ => MtuBounds) (fun _ => True) MtuBounds where
  toLaw := mtu_law hcalls
  cli _ _ _ h := h.of_eq rfl rfl (Nat.le_refl _)
  first _ _ _ _ _ _ _ _ := trivial
  start _ _ h := h.1.1
  opened _ _ _ _ h _ _ _ := h.1.1
  connect _ _ p o h hst hp ho hc := h.1.1.connect (h.1.2 p o h.2 hst hp ho hc)
  answer _ _ h := h
  offset _ _ _ _ _ h _ := h.of_eq rfl rfl (Nat.le_refl _)
  disconnect _ _ h := h.disconnect
  receive _ := (mtu_law hcalls).rxStream.receive
  done _ s hs _ := (mtu_law hcalls).clientDone (fun _ s hs _ => mtu_event hcalls _ _ _ _ s hs) s hs
  unexpected _ s hs _ _ := (mtu_law hcalls).clientSend
    (fun _ _ _ h => h.of_eq rfl rfl (Nat.le_refl _)) (fun _ _ => trivial) _ s hs.1.1

end

/-- A call that the guard lets through. -/
theorem mtu_call_step (hcalls : CallsKeep E mtuGuard MtuBounds n) {c : Call} {s : Obex}
    (hs : MtuBounds s) (hg : mtuCall c s = true) :
    wp (api (E.ctx mtuGuard n) c) (fun _ => MtuBounds) (fun _ => MtuBounds) s := by
  by_cases hmtu : ∃ rx tx, c = .setTransportMtu rx tx
  · obtain ⟨rx, tx, rfl⟩ := hmtu
    rw [api, obexSetTransportMtu, wp_bind, wp_get]
    refine wp_ite.2 ⟨fun _ => hs, fun ho => wp_ite.2 ⟨fun _ => hs, fun hrx => wp_ite.2 ⟨fun _ => hs,
      fun htx => ?_⟩⟩⟩
    have hle : s.mtuTx ≤ tx.toNat := by
      simp only [mtuCall, Bool.or_eq_true, decide_eq_true_eq] at hg
      rcases hg with h | h | h | h
      · exact absurd h ho
      · exact absurd h hrx
      · exact absurd h htx
      · exact h
    exact hs.setTransportMtu hle
  cases hc : c.passive with
  | true =>
    have hframe : AppBase c MtuBounds (fun _ => MtuBounds) := ⟨stops_still _,
      fun _ h => h.of_eq rfl rfl (Nat.le_refl _), fun _ _ _ _ h _ _ => h.of_eq rfl rfl (Nat.le_refl _),
      fun _ _ h _ _ => h.of_eq rfl rfl (Nat.le_refl _), fun _ _ h => h.of_eq rfl rfl (Nat.le_refl _)⟩
    exact hframe.passive hc (fun rx tx h => absurd ⟨rx, tx, h⟩ hmtu) s hs
  | false =>
    cases c with
    | request p =>
      refine (mtu_law hcalls).requestCall (fun _ _ _ h => h.of_eq rfl rfl (Nat.le_refl _)) hs
        fun _ => ?_
      exact ⟨hs.of_eq rfl rfl (Nat.le_refl _), trivial⟩
    | cancelRequest nice =>
      cases nice with
      | true =>
        refine CancelLaw.cancel ⟨?_, ?_, fun _ _ hle h => h.of_eq rfl rfl hle, mtu_write, ?_, ?_⟩ s hs
        · exact fun _ _ h _ => h.of_eq rfl rfl (Nat.le_refl _)
        · exact fun _ _ h => h.of_eq rfl rfl (Nat.le_refl _)
        · exact fun _ _ _ _ h _ _ _ _ => h.of_eq rfl rfl (Nat.le_refl _)
        · exact fun _ _ _ h _ _ => h.of_eq rfl rfl (Nat.le_refl _)
      | false => exact (mtu_law hcalls).cancelHard (mtu_event hcalls _ _ _ _) s hs
    | resumeRequest =>
      rw [api, obexResumeRequest, wp_bind, wp_get]
      cases hp : s.object with
      | none => exact hs
      | some p =>
        refine (mtu_law hcalls).resume (fun _ h => ?_) hs hp fun _ _ _ _ => trivial
        exact h.of_eq rfl rfl (Nat.le_refl _)
    | _ => cases hc

theorem mtu_calls (n : Nat) : CallsKeep E mtuGuard MtuBounds n :=
  callsKeep (fun _ hcalls _ _ _ hs hg => mtu_call_step (hcalls ()) hs hg) n ()

theorem mtu_dispatch (final : Bool) : Still MtuBounds (dispatch (E.ctx mtuGuard n) final) := by
  have hcalls : CallsKeep E mtuGuard MtuBounds n := mtu_calls n
  have hrecv {s : Obex} (hs : MtuBounds s) : MtuBounds (s.emit (.recv s.rxMsg.contents)) :=
    hs.of_eq rfl rfl (Nat.le_refl _)
  refine still_dispatch (fun _ _ h => h.of_eq rfl rfl (Nat.le_refl _)) (fun _ => hrecv)
    (fun s final hs _ _ => (mtu_serverLaw hcalls).server final (hrecv hs)) (fun s hs hg hm => ?_) final
  refine (mtu_clientLaw hcalls).client (fun op _ => ⟨⟨hrecv hs, ?_⟩, hm⟩) (hrecv hs)
  intro p o hm hst hp ho hc
  have hm : s.mode = .cli := hm
  have hst : s.state = .recv := hst
  have hp : s.object = some p := hp
  have ho : s.objects p = some o := ho
  have hcur : s.current = some o := by rw [Obex.current, hp, Option.bind_some, ho]
  have hok : headerOk s = true := by simpa [mtuGuard, hm, hst, hcur, hc] using hg
  exact hok

/-- In every run without a connect header or a new `mtu_tx_max` outside the bounds, `mtu_tx` stays
within them, and no packet of `mtu_tx` bytes moves `tx_msg`. -/
theorem mtu_bounds (E : Env) (t : TransportType) (n : Nat) (ops : List Op) :
    wp (run (E.ctx mtuGuard n) mtuGuard ops)
      (fun _ s => MtuBounds s ∧ 3 ≤ s.mtuTx ∧ NeverMoves s)
      (fun _ s => MtuBounds s ∧ 3 ≤ s.mtuTx ∧ NeverMoves s) (obexInit t) := by
  have hinit : MtuBounds (obexInit t) := by
    cases t <;> decide
  have hind (buf : Option Bytes) (buflen : Int) :
      Still MtuBounds (obexDataIndication (E.ctx mtuGuard n) buf buflen) :=
    still_indication (fun _ _ h => h.of_eq rfl rfl (Nat.le_refl _))
      (fun _ _ h => h.of_eq rfl rfl (Nat.le_refl _)) (mtu_event (mtu_calls n) _ _ _ _) mtu_dispatch buf
      buflen
  have hrun := holds_run (fun _ h => h) (fun c s hs hg => mtu_call_step (mtu_calls n) hs hg)
    (fun _ _ h => h.of_eq rfl rfl (Nat.le_refl _)) hind ops _ hinit
  exact wp_mono hrun (fun _ s h => ⟨h, h.three_le, h.neverMoves⟩) fun _ s h =>
    ⟨h, h.three_le, h.neverMoves⟩

end

/-- A peer that announces an MTU of 10 bytes. -/
def smallConnect : Op := .customDataFeed [0x80, 0x00, 0x07, 0x10, 0x00, 0x00, 0x0a]

/-- Its connect request is accepted, and `mtu_tx` is 10. -/
theorem small_mtu_accepted :
    ¬ ∀ (E : Env) (t : TransportType) (n : Nat) (ops : List Op),
      wp (run (E.ctx .all n) .all ops) (fun _ s => MtuBounds s) (fun _ s => MtuBounds s)
        (obexInit t) := by
  intro h
  have hrun := h quietPeer .custom 9 [smallConnect]
  have hend : endsWith (run (quietPeer.ctx .all 9) .all [smallConnect]) (obexInit .custom)
      (fun s => decide (s.mtuTx = 10)) = true := by
    decide +kernel
  obtain ⟨-, s, hs, hb⟩ := exists_of_endsWith hend hrun
  have h1 : 255 ≤ s.mtuTx := hb.minimum
  simp only [decide_eq_true_eq] at hs
  omega

end OpenObex
