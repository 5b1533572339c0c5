import OpenObex.Proof.Steady

/-!
# What a callback leaves of the current object

The library goes on with an object after an event it has delivered for it, though the callback may have
ended the request and begun another. While the object still exists, this has not happened: it is the
current one, `rx_msg` is as it was, and only a client has aborted it. This holds of every application
(`stays_deliver`), and of a packet sent with its `OBEX_EV_STREAMEMPTY` (`stays_send`).
-/

namespace OpenObex

open Mem Prog

/-- `p` is no object to come, and with `gone` none any more. -/
structure Known (p : Ptr) (gone : Bool) (s : Obex) : Prop where
  bound : p < s.fresh
  gone : gone = true → s.objects p = none

theorem known_loose (p : Ptr) (gone : Bool) : Loose (Known p gone) where
  object s q o o' h ho := by
    refine ⟨h.bound, fun hg => ?_⟩
    have hp := h.gone hg
    have hne : p ≠ q := by
      rintro rfl
      rw [hp] at ho
      cases ho
    rw [objects_setObject_ne s _ hne, hp]
  new s o h := by
    have hlt := h.bound
    refine ⟨Nat.lt_succ_of_lt hlt, fun hg => ?_⟩
    rw [objects_setObject_ne _ _ (Nat.ne_of_lt hlt)]
    exact h.gone hg
  delete s q h := by
    refine ⟨h.bound, fun hg => ?_⟩
    by_cases hq : p = q
    · subst hq
      exact objects_setObject _ _ _
    · rw [objects_setObject_ne s _ hq, h.gone hg]
  fresh s h := ⟨Nat.lt_succ_of_lt h.bound, h.gone⟩
  state s t ho hf _ _ h := ⟨by rw [hf]; exact h.bound, by rw [ho]; exact h.gone⟩
  emit _ _ _ h := ⟨h.bound, h.gone⟩

/-- While the object at `p` exists it is the current one; with `k`, only a client aborts it. -/
structure Stays (p : Ptr) (r : Buf) (k : Bool) (s : Obex) : Prop where
  bound : p < s.fresh
  object : ∀ o, s.objects p = some o → s.object = some p
  rxMsg : ∀ o, s.objects p = some o → s.rxMsg = r
  abort : k = true → ∀ o, s.objects p = some o → o.abort = true → s.mode = .cli

/-- The object at `p` is the current one. -/
structure Current (p : Ptr) (r : Buf) (k : Bool) (s : Obex) : Prop extends Stays p r k s where
  current : s.object = some p

section
variable {p : Ptr} {r : Buf} {k : Bool} {s : Obex}

theorem Known.stays (h : Known p true s) : Stays p r k s := by
  have hgone (o : ObexObject) : ¬ s.objects p = some o := by
    rw [h.gone rfl]
    exact fun h => by cases h
  exact ⟨h.bound, fun o ho => absurd ho (hgone o), fun o ho => absurd ho (hgone o),
    fun _ o ho => absurd ho (hgone o)⟩

namespace Stays

theorem init {o : ObexObject} (hb : p < s.fresh) (hp : s.object = some p) (ho : s.objects p = some o)
    (ha : k = true → o.abort = true → s.mode = .cli) : Stays p s.rxMsg k s := by
  refine ⟨hb, fun _ _ => hp, fun _ _ => rfl, fun hk o' ho' h => ha hk ?_⟩
  cases ho.symm.trans ho'
  exact h

theorem toCurrent (h : Stays p r k s) {o : ObexObject} (ho : s.objects p = some o) : Current p r k s :=
  ⟨h, h.object o ho⟩

theorem of_eq {t : Obex} (h : Stays p r k s) (ho : t.objects = s.objects) (hf : t.fresh = s.fresh)
    (hobject : t.object = s.object) (hr : t.rxMsg = s.rxMsg) (hm : t.mode = s.mode) :
    Stays p r k t := by
  refine ⟨by rw [hf]; exact h.bound, ?_, ?_, ?_⟩
  · rw [ho, hobject]
    exact h.object
  · rw [ho, hr]
    exact h.rxMsg
  · rw [ho, hm]
    exact h.abort

theorem setObject (h : Stays p r k s) {q : Ptr} {o o' : ObexObject} (ho : s.objects q = some o)
    (ha : o'.abort = true → o.abort = true) : Stays p r k (s.setObject q (some o')) := by
  refine ⟨h.bound, fun x hx => ?_, fun x hx => ?_, fun hk x hx hab => ?_⟩
  all_goals rcases objects_setObject_some hx with ⟨rfl, he⟩ | ⟨-, hx⟩
  · exact h.object o ho
  · exact h.object x hx
  · exact h.rxMsg o ho
  · exact h.rxMsg x hx
  · cases he
    exact h.abort hk o ho (ha hab)
  · exact h.abort hk x hx hab

theorem delete (h : Stays p r k s) (q : Ptr) : Stays p r k (s.setObject q none) := by
  have hat {x : ObexObject} (hx : (s.setObject q none).objects p = some x) : s.objects p = some x := by
    rcases objects_setObject_some hx with ⟨-, he⟩ | ⟨-, hx⟩
    · cases he
    · exact hx
  exact ⟨h.bound, fun x hx => h.object x (hat hx), fun x hx => h.rxMsg x (hat hx),
    fun hk x hx => h.abort hk x (hat hx)⟩

theorem fresh (h : Stays p r k s) : Stays p r k { s with fresh := s.fresh + 1 } :=
  ⟨Nat.lt_succ_of_lt h.bound, h.object, h.rxMsg, h.abort⟩

theorem new (h : Stays p r k s) (o : ObexObject) :
    Stays p r k (({ s with fresh := s.fresh + 1 } : Obex).setObject s.fresh (some o)) := by
  have hlt := h.bound
  have hat {x : ObexObject} (hx : (({ s with fresh := s.fresh + 1 } : Obex).setObject s.fresh
      (some o)).objects p = some x) : s.objects p = some x := by
    rcases objects_setObject_some hx with ⟨he, -⟩ | ⟨-, hx⟩
    · exact absurd he (Nat.ne_of_lt hlt)
    · exact hx
  exact ⟨Nat.lt_succ_of_lt hlt, fun x hx => h.object x (hat hx), fun x hx => h.rxMsg x (hat hx),
    fun hk x hx => h.abort hk x (hat hx)⟩

theorem abortFlag (h : Stays p r k s) {q : Ptr} {o : ObexObject} (ho : s.objects q = some o) :
    Stays p r k ((s.setObject q (some { o with abort := true })).setState .cli .recv) := by
  refine ⟨h.bound, fun x hx => ?_, fun x hx => ?_, fun _ _ _ _ => rfl⟩
  all_goals rcases objects_setObject_some hx with ⟨rfl, -⟩ | ⟨-, hx⟩
  · exact h.object o ho
  · exact h.object x hx
  · exact h.rxMsg o ho
  · exact h.rxMsg x hx

theorem known (h : Stays p r k s) (hn : s.object ≠ some p) : Known p true s := by
  refine ⟨h.bound, fun _ => ?_⟩
  cases ho : s.objects p with
  | none => rfl
  | some o => exact absurd (h.object o ho) hn

end Stays

end

/-- What may happen does. -/
abbrev Unchecked (_ : Stop) (_ : Obex) : Prop := True

section
variable {E : Env} {G : Guard} {n : Nat} {p : Ptr} {r : Buf} {k : Bool}

theorem stays_write (chunk : Bytes) : Still (Current p r k) ((E.ctx G n).write chunk) :=
  still_write (fun _ _ _ h => ⟨h.toStays.of_eq rfl rfl rfl rfl rfl, h.current⟩) chunk

section
variable (hcalls : ∀ m, m < n → ∀ c s, Stays p r k s →
  wp (api (E.ctx G m) c) (fun _ => Stays p r k) Unchecked s)
include hcalls

theorem stays_event {e : Event} {cmd rsp : UInt8} {s : Obex} (hs : Stays p r k s) :
    wp (obexDeliverEvent (E.ctx G n) e cmd rsp false) (fun _ => Stays p r k) Unchecked s := by
  have hemit : Stays p r k (s.emit (.event (noticeOf s e cmd rsp))) := hs.of_eq rfl rfl rfl rfl rfl
  refine wp_deliverEvent (wp_conseq (wp_eventcb (fun _ _ _ _ => trivial) hemit ?_) fun _ _ h => h.1)
  exact fun m hm c _ s hs _ => hcalls m hm c s hs

omit hcalls in
theorem gone_final {e : Event} {cmd rsp : UInt8} {s : Obex} (hs : Current p r k s) :
    wp (obexDeliverEvent (E.ctx G n) e cmd rsp true) (fun _ => Known p true) Unchecked s := by
  have hnone : Known p false
    (({ s with object := none } : Obex).emit (.event (noticeOf s e cmd rsp))) :=
    ⟨hs.bound, by simp⟩
  refine wp_deliverLast (wp_mono (((known_loose p false).calls n).eventcb _ hnone) (fun _ s' h => ?_)
    fun _ _ _ => trivial)
  refine ⟨fun q hq => ⟨?_, trivial⟩, fun hn => ?_⟩
  · cases hs.current.symm.trans hq
    exact ⟨h.1.bound, fun _ => objects_setObject _ _ _⟩
  · rw [hs.current] at hn
    cases hn

omit hcalls in
/-- What is done with an object that is gone leaves it gone. -/
theorem gone_keeps {α : Type} {m : M α} (h : Still (Known p true) m) {s : Obex} (hs : Known p true s) :
    wp m (fun _ => Stays p r k) Unchecked s :=
  wp_mono (h s hs) (fun _ _ h => h.stays) fun _ _ _ => trivial

theorem stays_send {s : Obex} (hs : Current p r k s) (a f : Bool) :
    wp (obexObjectSend (E.ctx G n) p a f) (fun _ => Current p r k) Unchecked s := by
  have hF : SendFrame (E.ctx G n) p (Current p r k) Unchecked False := by
    refine ⟨fun _ _ _ _ => trivial, fun _ h => h.current,
      fun _ _ h => ⟨h.toStays.of_eq rfl rfl rfl rfl rfl, h.current⟩,
      fun s o o' h ho ht => ⟨h.setObject ho fun ha => ?_, h.current⟩, fun s h => ?_, by simp⟩
    · have herase : o'.eraseTx = o.eraseTx := ht.erase
      have habort := congrArg ObexObject.abort herase
      have habort : o'.abort = o.abort := habort
      rwa [habort] at ha
    · refine wp_conseq (stays_event hcalls h.toStays) fun _ s' h => ?_
      cases ho : s'.objects p with
      | none => exact .inr ⟨rfl, trivial⟩
      | some o => exact .inl ⟨h.toCurrent ho, by simp⟩
  refine hF.send hs (fun _ _ _ => hs) (fun _ _ h => h) fun s o h _ => ?_
  have htx (s : Obex) (b : Buf) (_ : s.txMsg.buffer.length ≤ b.buffer.length) (h : Current p r k s) :
      Current p r k (s.setTxMsg b) := ⟨h.toStays.of_eq rfl rfl rfl rfl rfl, h.current⟩
  refine wp_mono (holds_dataRequest (fun _ _ => trivial) htx htx stays_write (fun _ h => h) h
    fun b d h _ => ?_) (fun _ _ h => h) fun _ _ _ => trivial
  exact ⟨h.toStays.of_eq rfl rfl rfl rfl rfl, h.current⟩

theorem stays_resume {s : Obex} (hs : Current p r k s) :
    wp (obexObjectResume (E.ctx G n) p) (fun _ => Stays p r k) Unchecked s := by
  have hgone : CallsKeep E G (Known p true) n := (known_loose p true).calls n
  rw [obexObjectResume, wp_bind, wp_deref]
  refine ⟨fun o ho => ?_, fun _ => trivial⟩
  refine wp_ite.2 ⟨fun _ => hs.toStays, fun _ => ?_⟩
  rw [wp_bind, wp_update]
  refine ⟨fun o ho => ?_, fun _ => trivial⟩
  have hs' : Current p r k (s.setObject p (some { o with suspend := false })) :=
    ⟨hs.setObject ho id, hs.current⟩
  refine wp_ite.2 ⟨fun _ => hs'.toStays, fun _ => ?_⟩
  refine wp_seq (stays_send hcalls hs' true false) fun ret s₁ hs₁ => ?_
  rw [wp_bind, wp_deref]
  refine ⟨fun o₁ _ => ?_, fun _ => trivial⟩
  refine wp_ite.2 ⟨fun _ => ?_, fun _ => wp_ite.2 ⟨fun _ => ?_, fun _ => ?_⟩⟩
  · exact wp_seq (gone_final hs₁) fun _ _ h => h.stays
  · refine wp_seq (stays_event hcalls hs₁.toStays) fun _ s₂ hs₂ => ?_
    rw [wp_bind, wp_update]
    refine ⟨fun o₂ ho₂ => ?_, fun _ => trivial⟩
    rw [wp_bind, wp_modify]
    have hs₃ : Stays p r k (s₂.setObject p
        (some { o₂ with firstPacketSent := true, continueReceived := false })) :=
      hs₂.setObject ho₂ id
    exact hs₃.of_eq rfl rfl rfl rfl rfl
  · rw [wp_bind, wp_get]
    refine wp_ite.2 ⟨fun _ => ?_, fun _ => ?_⟩
    · refine wp_seq (gone_final hs₁) fun _ s₂ hs₂ => ?_
      rw [wp_bind, wp_modify]
      have hs₃ : Known p true (s₂.setState .srv .idle) := ⟨hs₂.bound, hs₂.gone⟩
      exact hs₃.stays
    · rw [wp_bind, wp_modify]
      exact hs₁.toStays.of_eq rfl rfl rfl rfl rfl

omit hcalls in
/-- `OBEX_CancelRequest` without an ABORT ends the request. -/
theorem stays_cancelHard {s : Obex} (hs : Current p r k s) :
    wp (obexCancelrequest (E.ctx G n) false) (fun _ => Stays p r k) Unchecked s := by
  have hloose := known_loose p true
  rw [obexCancelrequest, wp_bind, wp_get, if_neg (by simp [hs.current]), if_pos (by simp)]
  refine wp_seq (gone_final hs) fun _ s₁ hs₁ => ?_
  rw [wp_bind, wp_modify, wp_bind, wp_modify]
  have hs₂ : Known p true ((s₁.setTxMsg (bufReuse s₁.txMsg)).setRxMsg
      (bufReuse (s₁.setTxMsg (bufReuse s₁.txMsg)).rxMsg)) := ⟨hs₁.bound, hs₁.gone⟩
  refine wp_seq (wp_mono (hloose.event (hloose.calls n) _ _ _ _ _ hs₂) (fun _ _ h => h)
    fun _ _ _ => trivial) fun _ _ h => ?_
  exact Known.stays h

theorem stays_call (c : Call) {s : Obex} (hs : Stays p r k s) :
    wp (api (E.ctx G n) c) (fun _ => Stays p r k) Unchecked s := by
  cases ho : s.objects p with
  | none =>
    have hgone : Known p true s := ⟨hs.bound, fun _ => ho⟩
    exact gone_keeps ((known_loose p true).call ((known_loose p true).calls n) c) hgone
  | some o =>
    have hcur := hs.toCurrent ho
    cases hc : c.passive with
    | true =>
      have hbase : AppBase c (Stays p r k) Unchecked := ⟨fun _ _ _ _ => trivial, fun _ h => h.fresh,
        fun _ _ o o' h ho hstep => h.setObject ho fun ha => ?_, fun _ o h _ _ => h.new o,
        fun _ q h => h.delete q⟩
      · refine hbase.passive hc (fun rx tx h => ?_) s hs
        rw [h]
        refine Keeps.get_bind fun s hs => Keeps.ite (fun _ => Keeps.pure _) fun hn =>
          Keeps.ite (fun _ => Keeps.pure _) fun _ => Keeps.ite (fun _ => Keeps.pure _) fun _ => ?_
        have hgone : Known p true s := hs.known (by simp_all)
        refine Keeps.bind (Keeps.set ?_) fun _ => Keeps.pure _
        have hset : Known p true { s with
            mtuRx := rx.toNat, mtuTxMax := tx.toNat
            rxMsg := bufResize (E.ctx G n).malloc s.rxMsg rx.toNat
            txMsg := bufResize (E.ctx G n).malloc s.txMsg tx.toNat } := ⟨hgone.bound, hgone.gone⟩
        exact hset.stays
      · have habort : o'.abort = o.abort := congrArg Prod.fst hstep.flags
        rwa [habort] at ha
    | false =>
      cases c with
      | request q =>
        rw [api, obexRequest, wp_bind, wp_get, if_pos (by simp [hcur.current])]
        exact hs
      | cancelRequest nice =>
        cases nice with
        | true =>
          have hcancel : CancelLaw (E.ctx G n) (Stays p r k) := by
            refine ⟨fun _ o h _ => h.new o, fun _ q h => h.delete q,
              fun _ _ _ h => h.of_eq rfl rfl rfl rfl rfl, fun chunk => ?_, ?_, ?_⟩
            · exact still_write (fun _ _ _ h => h.of_eq rfl rfl rfl rfl rfl) chunk
            · exact fun _ _ _ _ h _ _ _ _ => h.of_eq rfl rfl rfl rfl rfl
            · exact fun s q o h _ ho => h.abortFlag ho
          exact wp_mono (hcancel.cancel s hs) (fun _ _ h => h) fun _ _ _ => trivial
        | false => exact stays_cancelHard hcur
      | resumeRequest =>
        rw [api, obexResumeRequest, wp_bind, wp_get, hcur.current]
        exact stays_resume hcalls hcur
      | _ => cases hc

end

theorem stays_calls (n : Nat) : ∀ m, m < n → ∀ c s, Stays p r k s →
    wp (api (E.ctx G m) c) (fun _ => Stays p r k) Unchecked s := by
  induction n with
  | zero =>
    intro m hm
    omega
  | succ n ih => exact fun m hm c s hs => stays_call (fun k hk => ih k (by omega)) c hs

/-- An event after which the object is the current one or gone. -/
theorem stays_deliver {e : Event} {cmd rsp : UInt8} {s : Obex} (hs : Stays p r k s) :
    wp (obexDeliverEvent (E.ctx G n) e cmd rsp false) (fun _ => Stays p r k) Unchecked s :=
  stays_event (stays_calls n) hs

end

end OpenObex
