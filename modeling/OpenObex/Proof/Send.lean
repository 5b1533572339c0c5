import OpenObex.Proof.Receive

/-!
# What sending a packet touches

`obex_object_send` fills `tx_msg`, takes headers off the queue of the object it sends (`TxStep`) and
delivers `OBEX_EV_STREAMEMPTY`. An invariant closed under these is kept by it, and where every
`OBEX_EV_STREAMEMPTY` is answered and no header is too long for the peer (`total`), the packet is
built. The callback of an `OBEX_EV_STREAMEMPTY` may delete the object, which stops the library.
-/

namespace OpenObex

open Mem Prog

/-- A header whose value is in the queue, sent as a whole. -/
def HeaderElement.Plain (h : HeaderElement) : Prop :=
  h.stream = false ∧ h.hi ≠ obexHdrBody ∧ h.hi ≠ obexHdrEmpty

instance (h : HeaderElement) : Decidable h.Plain := inferInstanceAs (Decidable (_ ∧ _))

/-- No queued header is too long for the peer. -/
def FitsMtu (mtuTx : Nat) (o : ObexObject) : Prop :=
  ∀ h ∈ o.txHeaderq, h.Plain → h.length ≤ mtuTx

instance (n : Nat) (o : ObexObject) : Decidable (FitsMtu n o) :=
  inferInstanceAs (Decidable (∀ h ∈ o.txHeaderq, _))

/-- The application has handed out data, ended the stream or suspended it. -/
def Answered (o : ObexObject) : Prop := o.sStop = true ∨ o.suspend = true ∨ o.sBuf ≠ none

instance (o : ObexObject) : Decidable (Answered o) := inferInstanceAs (Decidable (_ ∨ _))

/-- `o` without its transmit side. -/
def ObexObject.eraseTx (o : ObexObject) : ObexObject :=
  { o with
    txHeaderq := [], txNonhdrData := none, suspend := false, sBuf := none, sLen := 0
    sOffset := 0 }

/-- Only the transmit side changes, and headers only leave. -/
structure TxStep (o o' : ObexObject) : Prop where
  erase : o'.eraseTx = o.eraseTx
  queue : ∀ h ∈ o'.txHeaderq, h.Plain → h ∈ o.txHeaderq
  suspend : o.suspend = true → o'.suspend = true

structure SendFrame (C : Ctx) (p : Ptr) (P : Obex → Prop) (E : Stop → Obex → Prop) (total : Prop) :
    Prop where
  stop : Stops P E
  current : ∀ s, P s → s.object = some p
  txMsg : ∀ s b, P s → P (s.setTxMsg b)
  object : ∀ s o o', P s → s.objects p = some o → TxStep o o' → P (s.setObject p (some o'))
  event : ∀ s, P s → wp (obexDeliverEvent C .streamempty 0 0 false)
    (fun _ s' => P s' ∧ (total → ∀ o, s'.objects p = some o → Answered o) ∨
      s'.objects p = none ∧ E (.fault .dangling) s') E s
  fits : total → ∀ s o, P s → s.objects p = some o → FitsMtu s.mtuTx o

theorem distinct_of_sorted {α : Type} [Addressed α] {l : List α} (h : (l.map addr).Pairwise (· < ·)) :
    Distinct l := h.imp fun hlt => Nat.ne_of_lt hlt

/-- The first element leaves the list as it is behind it. -/
theorem slistRemove_first {α : Type} [Addressed α] {e : α} {es : List α} (h : Distinct (e :: es)) :
    slistRemove (e :: es) e = es := by
  obtain ⟨hne, -⟩ := List.nodup_cons.1 h
  unfold slistRemove
  rw [List.filter_cons_of_neg (by simp), List.filter_eq_self]
  intro x hx
  refine decide_eq_true fun he => hne ?_
  rw [← he]
  exact List.mem_map_of_mem hx

theorem slistRemove_subset {α : Type} [Addressed α] {l : List α} {x y : α}
    (h : y ∈ slistRemove l x) : y ∈ l := by
  unfold slistRemove at h
  exact (List.mem_filter.1 h).1

theorem txStep_remove (o : ObexObject) (h : HeaderElement) :
    TxStep o { o with txHeaderq := slistRemove o.txHeaderq h } :=
  ⟨rfl, fun _ hm _ => slistRemove_subset hm, id⟩

theorem txStep_suspend (o : ObexObject) : TxStep o { o with suspend := true } :=
  ⟨rfl, fun _ hm _ => hm, fun _ => rfl⟩

theorem txStep_stream (o : ObexObject) (b : Option Bytes) (n k : Nat) :
    TxStep o { o with sBuf := b, sLen := n, sOffset := k } :=
  ⟨rfl, fun _ hm _ => hm, id⟩

theorem txStep_nonhdr (o : ObexObject) : TxStep o { o with txNonhdrData := none } :=
  ⟨rfl, fun _ hm _ => hm, id⟩

theorem txStep_body (o : ObexObject) {h h' : HeaderElement} (hh : ¬ h'.Plain) :
    TxStep o { o with txHeaderq := o.txHeaderq.map fun e => if addr e = addr h then h' else e } := by
  refine ⟨rfl, fun e he hp => ?_, id⟩
  obtain ⟨x, hx, rfl⟩ := List.mem_map.1 he
  by_cases ha : addr x = addr h
  · rw [if_pos ha] at hp
    exact absurd hp hh
  · rwa [if_neg ha]

namespace SendFrame

variable {C : Ctx} {p : Ptr} {P : Obex → Prop} {E : Stop → Obex → Prop} {total : Prop}
  (F : SendFrame C p P E total)
include F

theorem update {f : ObexObject → ObexObject} (h : ∀ o, TxStep o (f o)) : Keeps P E (update p f) :=
  keeps_update F.stop fun s o hs ho => F.object s o _ hs ho (h o)

theorem askForData : Yields P E (fun r => total → r ≠ .failed) (askForData C p) := by
  refine Yields.bind_keeps (keeps_deref F.stop p) fun o =>
    Yields.ite (fun _ => ?_) fun _ => Yields.pure (by simp)
  refine Yields.bind_keeps (F.update fun o => txStep_stream o none o.sLen 0) fun _ => ?_
  intro s hs
  rw [wp_bind]
  refine wp_mono (F.event s hs) ?_ fun _ _ he => he
  rintro - s' (⟨hs', ha⟩ | ⟨hgone, he⟩)
  rotate_left
  · rw [wp_bind, wp_deref, hgone]
    exact ⟨by simp, fun _ => he⟩
  rw [wp_bind, wp_deref]
  refine ⟨fun o ho => ?_, fun _ => F.stop _ _ (by simp) hs'⟩
  have ha : total → o.sStop = true ∨ o.suspend = true ∨ o.sBuf ≠ none := fun h => ha h o ho
  split
  · exact ⟨hs', by simp⟩
  · split
    · exact ⟨hs', by simp⟩
    · split
      · refine ⟨hs', fun h => ?_⟩
        have := ha h
        simp_all
      · exact ⟨hs', by simp⟩

theorem streamLoop (fuel n k : Nat) :
    Yields P E (fun r => total → r ≠ none) (sendStreamLoop C p fuel n k) := by
  induction fuel generalizing n k with
  | zero => exact Yields.throw fun s hs => F.stop _ s (by simp) hs
  | succ fuel ih =>
    refine Yields.bind F.askForData fun r hr => ?_
    cases r with
    | failed => exact Yields.pure fun h => absurd rfl (hr h)
    | stop => exact Yields.pure (by simp)
    | data =>
      refine Yields.bind_keeps (keeps_deref F.stop p) fun o => Yields.ite (fun _ => ?_) fun _ => ?_
      · refine Yields.bind_keeps (keeps_copyFrom F.stop _ _ _) fun bs => ?_
        refine Yields.bind_keeps (keeps_txInsertEnd F.stop F.txMsg bs) fun _ => ?_
        refine Yields.bind_keeps (F.update fun o => txStep_stream o _ _ _) fun _ => ?_
        exact Yields.pure (by simp)
      · refine Yields.bind_keeps (keeps_copyFrom F.stop _ _ _) fun bs => ?_
        refine Yields.bind_keeps (keeps_txInsertEnd F.stop F.txMsg bs) fun _ => ?_
        refine Yields.bind_keeps (F.update fun o => txStep_stream o _ _ _) fun _ => ?_
        exact Yields.ite (fun _ => ih _ _) fun _ => Yields.pure (by simp)

theorem sendStream (h : HeaderElement) (n : Nat) :
    Yields P E (fun r => total → r ≠ none) (sendStream C h n) := by
  intro s hs
  refine Yields.bind (S := fun q => q = p) ?_ ?_ s hs
  · intro s hs
    rw [wp_selfObject, F.current s hs]
    exact ⟨fun q hq => ⟨hs, by simpa using hq.symm⟩, by simp⟩
  intro q hq
  rw [show q = p from hq]
  refine Yields.get_bind fun s hs => ?_
  refine Yields.bind_keeps (keeps_require F.stop (by simp) _) fun b => ?_
  refine Yields.bind_keeps (Keeps.set (F.txMsg s _ hs)) fun _ => ?_
  refine Yields.bind (F.streamLoop _ _ _) fun r hr => ?_
  cases r with
  | none => exact Yields.pure fun h => absurd rfl (hr h)
  | some actual =>
    refine Yields.bind_keeps (keeps_deref F.stop _) fun o => Yields.ite (fun _ => ?_) fun _ => ?_
    · exact Yields.throw fun s hs => F.stop _ s (by simp) hs
    refine Yields.bind_keeps (keeps_when fun _ => F.update fun o => txStep_remove o h) fun _ => ?_
    refine Yields.get_bind fun s hs => Yields.ite (fun _ => ?_) fun _ => ?_
    · exact Yields.throw fun s hs => F.stop _ s (by simp) hs
    refine Yields.bind_keeps (keeps_require F.stop (by simp) _) fun b => ?_
    exact Yields.bind_keeps (Keeps.set (F.txMsg s _ hs)) fun _ => Yields.pure (by simp)

theorem sendBody {h : HeaderElement} (hh : h.hi = obexHdrBody) (n : Nat) :
    Keeps P E (sendBody C p h n) := by
  refine Keeps.get_bind fun s hs => Keeps.bind (keeps_require F.stop (by simp) _) fun m => ?_
  refine Keeps.bind (keeps_require F.stop (by simp) _) fun b => Keeps.ite (fun _ => ?_) fun _ => ?_
  · refine Keeps.bind (keeps_peek F.stop _ _ _) fun d => ?_
    refine Keeps.bind (keeps_require F.stop (by simp) _) fun m => ?_
    refine Keeps.bind (Keeps.set (F.txMsg s _ hs)) fun _ => ?_
    refine Keeps.bind (keeps_txInsertEnd F.stop F.txMsg _) fun _ => ?_
    exact Keeps.bind (F.update fun o => txStep_body o (by simp [HeaderElement.Plain, hh])) fun _ =>
      Keeps.pure _
  · refine Keeps.bind (keeps_require F.stop (by simp) _) fun m => ?_
    refine Keeps.bind (Keeps.set (F.txMsg s _ hs)) fun _ => ?_
    refine Keeps.bind (keeps_txInsertEnd F.stop F.txMsg _) fun _ => ?_
    exact Keeps.bind (F.update fun o => txStep_remove o h) fun _ => Keeps.pure _

theorem suspendAfter (h : HeaderElement) : Keeps P E (suspendAfter p h) :=
  keeps_when fun _ => F.update fun o => txStep_suspend o

/-- One header; `hm`: with `total`, a header of the queue is not too long. -/
theorem sendHeader {h : HeaderElement} {s : Obex} (hs : P s)
    (hm : total → h.Plain → h.length ≤ s.mtuTx) (n : Nat) :
    wp (sendHeader C p h n) (fun r s' => P s' ∧ (total → r ≠ none)) E s := by
  have yields {m : M (Option (Nat × Bool))} (hy : Yields P E (fun r => total → r ≠ none) m) :
    wp m (fun r s' => P s' ∧ (total → r ≠ none)) E s := hy s hs
  unfold OpenObex.sendHeader
  rw [wp_bind, wp_get]
  split
  · refine yields (Yields.bind_keeps (F.suspendAfter h) fun _ => ?_)
    refine Yields.bind (F.sendStream h n) fun r hr => ?_
    cases r with
    | none => exact Yields.pure fun h => absurd rfl (hr h)
    | some _ => exact Yields.pure (by simp)
  split
  · refine yields (Yields.bind_keeps (F.suspendAfter h) fun _ => ?_)
    exact Yields.bind_keeps (F.sendBody ‹_› n) fun _ => Yields.pure (by simp)
  split
  · refine yields (Yields.bind_keeps (F.suspendAfter h) fun _ => ?_)
    exact Yields.bind_keeps (F.update fun o => txStep_remove o h) fun _ => Yields.pure (by simp)
  split
  · refine yields (Yields.bind_keeps (keeps_require F.stop (by simp) _) fun b => ?_)
    refine Yields.bind_keeps (keeps_peek F.stop _ _ _) fun d => ?_
    refine Yields.bind_keeps (keeps_txInsertEnd F.stop F.txMsg _) fun _ => ?_
    refine Yields.bind_keeps (F.suspendAfter h) fun _ => ?_
    exact Yields.bind_keeps (F.update fun o => txStep_remove o h) fun _ => Yields.pure (by simp)
  split
  · refine ⟨hs, fun ht => absurd (hm ht ⟨by simpa using ‹¬ h.stream = true›, ‹_›, ‹_›⟩) (by omega)⟩
  · exact ⟨hs, by simp⟩

theorem sendHeaders (fuel n : Nat) :
    Yields P E (fun b => total → b = true) (sendHeaders C p fuel n) := by
  induction fuel generalizing n with
  | zero => exact Yields.throw fun s hs => F.stop _ s (by simp) hs
  | succ fuel ih =>
    intro s hs
    rw [OpenObex.sendHeaders, wp_bind, wp_deref]
    refine ⟨fun o ho => ?_, fun _ => F.stop _ _ (by simp) hs⟩
    cases hq : o.txHeaderq with
    | nil => exact ⟨hs, fun _ => rfl⟩
    | cons h hs' =>
      have hm (ht : total) (hp : h.Plain) : h.length ≤ s.mtuTx :=
        F.fits ht s o hs ho h (by simp [hq]) hp
      refine wp_bind.2 (wp_mono (F.sendHeader hs hm n) ?_ fun _ _ he => he)
      rintro r s' ⟨hs', hr⟩
      cases r with
      | none => exact ⟨hs', fun h => absurd rfl (hr h)⟩
      | some x =>
        refine Yields.bind_keeps (keeps_deref F.stop p) (fun o => ?_) s' hs'
        exact Yields.ite (fun _ => ih _) fun _ => Yields.pure fun _ => rfl

theorem sendNonhdr : Keeps P E (sendNonhdr C p) := by
  refine Keeps.bind (keeps_deref F.stop p) fun o => ?_
  split
  · exact Keeps.pure _
  refine Keeps.bind (keeps_txInsertEnd F.stop F.txMsg _) fun _ => ?_
  exact F.update fun o => txStep_nonhdr o

/-- The packet is built, then sent with the opcode chosen by what is left in the queue. -/
theorem send {s : Obex} {allowfinalcmd forcefinalbit : Bool} {Q : Int → Obex → Prop} (hs : P s)
    (hsuspend : ∀ o, s.objects p = some o → o.suspend = true → Q 0 s)
    (hfail : ¬ total → ∀ s, P s → Q (-1) s)
    (hsent : ∀ s o, P s → s.objects p = some o →
      wp (obexDataRequest C (some p) (chooseOpcode o allowfinalcmd forcefinalbit).1
        (chooseOpcode o allowfinalcmd forcefinalbit).2)
        (fun r s' => Q (if r < 0 then r
          else if (chooseOpcode o allowfinalcmd forcefinalbit).1 = .last then 1 else 0) s') E s) :
    wp (obexObjectSend C p allowfinalcmd forcefinalbit) Q E s := by
  rw [obexObjectSend, wp_bind, wp_deref]
  refine ⟨fun o ho => ?_, fun _ => F.stop _ _ (by simp) hs⟩
  split
  · exact hsuspend o ho ‹_›
  rw [wp_bind, wp_get, wp_bind, wp_set, wp_bind]
  refine wp_mono (F.sendNonhdr _ (F.txMsg s _ hs)) (fun _ s₁ hs₁ => ?_) fun _ _ he => he
  rw [wp_bind]
  refine wp_mono (F.sendHeaders _ _ s₁ hs₁) ?_ fun _ _ he => he
  rintro b s₂ ⟨hs₂, hb⟩
  cases b with
  | false => exact hfail (fun ht => by simp at hb; exact hb ht) s₂ hs₂
  | true =>
    rw [if_pos rfl, wp_bind, wp_deref]
    refine ⟨fun o ho => ?_, fun _ => F.stop _ _ (by simp) hs₂⟩
    rw [wp_bind]
    refine wp_mono (hsent s₂ o hs₂ ho) (fun r s₃ hr => ?_) fun _ _ he => he
    split at hr
    · rwa [if_pos ‹_›]
    · rwa [if_neg ‹_›]

end SendFrame

end OpenObex
