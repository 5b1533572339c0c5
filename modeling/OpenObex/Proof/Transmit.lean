import OpenObex.Proof.Fill
import OpenObex.Proof.Runs

/-!
# Handing a packet to the transport

With memory for every allocation `obex_data_request` always comes back, whatever the transport
answers: `Transmitted` says what it has changed.
-/

namespace OpenObex

open Mem Prog

/-- The answers of the transport's write function. -/
def Answers (xs : List Obs) : Prop := ∀ x ∈ xs, ∃ chunk r, x = .io chunk r

/-- On USB the transport has to be connected. -/
def CanWrite (s : Obex) : Prop := s.trans.type = .usb → s.trans.connected = true

/-- The write function never fails, and the transport can be written to. -/
def Accepts (E : Env) (s : Obex) : Prop := (∀ log chunk, 0 ≤ E.write log chunk) ∧ CanWrite s

/-- Nothing but `tx_msg` and the log has changed; `xs` has been logged. -/
def Transmitted (xs : List Obs) (s t : Obex) : Prop :=
  ∃ m, t = { s with txMsg := m, log := s.log ++ xs }

variable {E : Env} {n : Nat}

theorem wp_ctx_write {s : Obex} {chunk : Bytes} {Q : Int → Obex → Prop} {R : Stop → Obex → Prop}
    (h : Q (E.write s.log chunk) (s.emit (.io chunk (E.write s.log chunk)))) :
    wp ((E.ctx .all n).write chunk) Q R s := by
  rw [ctx_write, Env.transportWrite, wp_bind, wp_get, wp_bind, wp_emit, wp_bind, wp_allowed]
  exact ⟨fun _ => h, fun hf => by cases hf⟩

/-- The loop comes back, since every request that goes on has shortened the message. -/
theorem wp_doWriteLoop_total (mtu fuel : Nat) : ∀ (actual : Int) (s : Obex), s.txMsg.dataSize < fuel →
    wp (doWriteLoop (E.ctx .all n) mtu fuel actual) (fun r t => ∃ xs, Answers xs ∧ Transmitted xs s t ∧
      (Accepts E s → 0 < s.txMsg.dataSize ∨ 0 ≤ actual → 0 ≤ r)) (fun _ _ => False) s := by
  induction fuel with
  | zero =>
    intro actual s hfuel
    exact absurd hfuel (Nat.not_lt_zero _)
  | succ fuel ih =>
    intro actual s hfuel
    rw [doWriteLoop, wp_bind, wp_get]
    dsimp only
    by_cases hempty : s.txMsg.dataSize = 0
    · rw [if_pos hempty, wp_pure]
      refine ⟨[], fun _ h => (List.not_mem_nil h).elim, ⟨s.txMsg, by rw [List.append_nil]⟩, ?_⟩
      intro _ hr
      exact hr.resolve_left (by omega)
    · rw [if_neg hempty, wp_bind]
      refine wp_ctx_write ?_
      generalize hr : E.write s.log _ = r
      generalize s.txMsg.contents.take _ = chunk at hr ⊢
      by_cases hpos : r ≤ 0
      · rw [if_pos hpos, wp_pure]
        refine ⟨[_], fun x hx => ⟨chunk, r, List.mem_singleton.1 hx⟩, ⟨s.txMsg, rfl⟩, fun ha _ => ?_⟩
        rw [← hr]
        exact ha.1 _ _
      · rw [if_neg hpos, wp_bind, wp_modify]
        have hshort := bufRemoveBegin_dataSize s.txMsg r.toNat
        refine wp_conseq (ih r _ ?_) fun r' t h => ?_
        · show (bufRemoveBegin s.txMsg r.toNat).dataSize < fuel
          rw [hshort]
          omega
        · obtain ⟨xs, hxs, ⟨m, rfl⟩, hret⟩ := h
          refine ⟨.io chunk r :: xs, fun x hx => ?_, ⟨m, ?_⟩, fun ha _ => hret ha (.inr (by omega))⟩
          · cases hx with
            | head => exact ⟨chunk, r, rfl⟩
            | tail _ hx => exact hxs x hx
          · show ({ s with txMsg := m, log := (s.log ++ [.io chunk r]) ++ xs } : Obex) = _
            rw [List.append_assoc]
            rfl

theorem wp_transportWrite_total (s : Obex) :
    wp (obexTransportWrite (E.ctx .all n)) (fun r t => ∃ xs, Answers xs ∧ Transmitted xs s t ∧
      (Accepts E s → 0 < s.txMsg.dataSize → 0 ≤ r) ∧ (¬ CanWrite s → r < 0)) (fun _ _ => False) s := by
  have hloop (mtu : Nat) (hw : CanWrite s) : wp (doWrite (E.ctx .all n) mtu) (fun r t => ∃ xs,
      Answers xs ∧ Transmitted xs s t ∧ (Accepts E s → 0 < s.txMsg.dataSize → 0 ≤ r) ∧
      (¬ CanWrite s → r < 0)) (fun _ _ => False) s := by
    rw [doWrite, wp_bind, wp_get]
    refine wp_conseq (wp_doWriteLoop_total mtu _ (-1) s (Nat.lt_succ_self _)) fun r t h => ?_
    obtain ⟨xs, hxs, ht, hret⟩ := h
    exact ⟨xs, hxs, ht, fun ha hpos => hret ha (.inl hpos), fun hno => absurd hw hno⟩
  have hwrite (hw : CanWrite s) : wp ((E.ctx .all n).write s.txMsg.contents) (fun r t => ∃ xs,
      Answers xs ∧ Transmitted xs s t ∧ (Accepts E s → 0 < s.txMsg.dataSize → 0 ≤ r) ∧
      (¬ CanWrite s → r < 0)) (fun _ _ => False) s :=
    wp_ctx_write ⟨[_], fun x hx => ⟨_, _, List.mem_singleton.1 hx⟩, ⟨s.txMsg, rfl⟩,
      fun ha _ => ha.1 _ _, fun hno => absurd hw hno⟩
  have hother (hne : s.trans.type ≠ .usb) : CanWrite s := fun hu => absurd hu hne
  rw [obexTransportWrite, wp_bind, wp_get]
  cases ht : s.trans.type with
  | usb =>
    dsimp only
    by_cases hc : s.trans.connected = true
    · rw [if_pos hc]
      exact hwrite fun _ => hc
    · rw [if_neg hc, wp_pure]
      refine ⟨[], fun _ h => (List.not_mem_nil h).elim, ⟨s.txMsg, by rw [List.append_nil]⟩, ?_, ?_⟩
      · intro ha
        exact absurd (ha.2 ht) hc
      · intro _
        decide
  | custom => exact hwrite (hother (by rw [ht]; simp))
  | irda => exact hloop _ (hother (by rw [ht]; simp))
  | inet => exact hloop _ (hother (by rw [ht]; simp))
  | bluetooth => exact hloop _ (hother (by rw [ht]; simp))
  | fd => exact hloop _ (hother (by rw [ht]; simp))

/-- The packet is made of what `tx_msg` holds, and handed to the transport. -/
theorem wp_dataRequest_total (hm : ∀ k, E.malloc k = true) (object : Option Ptr) (kind : PacketKind)
    (opcode : UInt8) (s : Obex) :
    wp (obexDataRequest (E.ctx .all n) object kind opcode) (fun r t => ∃ xs, Answers xs ∧
      Transmitted (.write object kind (packet opcode s.txMsg.contents) :: xs) s t ∧
      (Accepts E s → 0 ≤ r) ∧ (¬ CanWrite s → r < 0)) (fun _ _ => False) s := by
  have hm' : ∀ k, (E.ctx .all n).malloc k = true := fun k => by rw [ctx_malloc]; exact hm k
  obtain ⟨b, hb⟩ := bufReserveBegin_total hm' s.txMsg 3
  obtain ⟨hsize, -⟩ := bufReserveBegin_some hb
  have hin := b.end_le
  obtain ⟨d, hd⟩ : ∃ d, bufPoke b b.data (opcode :: be16 b.dataSize) = some d := by
    refine bufPoke_of_le ?_
    show b.data + 3 ≤ _
    omega
  have hl : (opcode :: be16 b.dataSize).length = 3 := rfl
  have hc : d.contents = packet opcode s.txMsg.contents := by
    rw [contents_poke_begin (by rw [hl]; exact hb) hd, packet, length_contents, hsize]
  have hpos : 0 < d.dataSize := by
    rw [(bufPoke_some hd).2.1, hsize]
    omega
  rw [obexDataRequest, wp_bind, wp_get, hb, wp_bind, wp_require]
  refine ⟨fun b' hb' => ?_, fun hnone => by cases hnone⟩
  cases hb'
  rw [hd, wp_bind, wp_require]
  refine ⟨fun d' hd' => ?_, fun hnone => by cases hnone⟩
  cases hd'
  rw [wp_bind, wp_set, wp_bind, wp_emit, hc]
  refine wp_conseq (wp_transportWrite_total _) fun r t h => ?_
  obtain ⟨xs, hxs, ⟨m, rfl⟩, hret, hfail⟩ := h
  refine ⟨xs, hxs, ⟨m, ?_⟩, fun ha => hret ha hpos, hfail⟩
  show ({ s with txMsg := m, log := (s.log ++ [_]) ++ xs } : Obex) = _
  rw [List.append_assoc]
  rfl

/-- One call of `obex_object_send` for an object without streams: a packet with what fits is handed to
the transport, or the call gives up on a header that is too long. What `fill` does not describe is
undefined behaviour. -/
theorem wp_send_total (hm : ∀ k, E.malloc k = true) {s : Obex} {p : Ptr} {o : ObexObject}
    {allowfinalcmd forcefinalbit : Bool} (ho : s.objects p = some o)
    (hplain : ∀ e ∈ o.txHeaderq, e.stream = false) (hsuspend : o.suspend = false)
    {Q : Int → Obex → Prop} {R : Stop → Obex → Prop}
    (hok : ∀ x xs r t, fill s.mtuTx n o.txHeaderq (initialTxLeft s) = some x → Answers xs →
      (Accepts E s → 0 ≤ r) → (¬ CanWrite s → r < 0) →
      (∃ m, t = { (s.setObject p (some (sending { o with txNonhdrData := none } x.rest x.suspend))) with
        txMsg := m
        log := s.log ++ .write (some p)
          (chooseOpcode (sending o x.rest x.suspend) allowfinalcmd forcefinalbit).1
          (packet (chooseOpcode (sending o x.rest x.suspend) allowfinalcmd forcefinalbit).2
            (o.nonhdr ++ x.bytes)) :: xs }) →
      Q (if r < 0 then r else if (chooseOpcode (sending o x.rest x.suspend)
          allowfinalcmd forcefinalbit).1 = .last then 1 else 0) t)
    (hnone : ∀ m q, Overruns s.mtuTx n o.txHeaderq (initialTxLeft s) →
      Dropped (initialTxLeft s) o.txHeaderq q →
      Q (-1) (filling s p { o with txNonhdrData := none } m q false))
    (hstop : ∀ e t, fill s.mtuTx n o.txHeaderq (initialTxLeft s) = none →
      ¬ Overruns s.mtuTx n o.txHeaderq (initialTxLeft s) → R e t) :
    wp (obexObjectSend (E.ctx .all n) p allowfinalcmd forcefinalbit) Q R s := by
  have hm' : ∀ k, (E.ctx .all n).malloc k = true := fun k => by rw [ctx_malloc]; exact hm k
  have hfuel : (E.ctx .all n).fuel = n := by cases n <;> rfl
  refine wp_send_fill ho hplain hsuspend (fun x m hx hmc => ?_) (fun m q hover hsub => ?_)
    fun e m d q b hno _ => ?_
  · rw [hfuel] at hx
    refine wp_mono (wp_dataRequest_total hm (some p) _ _ _) (fun r t h => ?_) fun _ _ h => h.elim
    obtain ⟨xs, hxs, ⟨m', rfl⟩, hret, hfail⟩ := h
    refine hok x xs r _ hx hxs hret hfail ⟨m', ?_⟩
    rw [filling_txMsg, hmc]
    rfl
  · rw [hfuel] at hover
    exact hnone m q hover hsub
  · rw [hfuel] at hno
    refine hstop e _ ?_ fun hover => hno (.inr hover) hm'
    by_contra hsome
    exact hno (.inl hsome) hm'

end OpenObex
