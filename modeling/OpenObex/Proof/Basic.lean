import OpenObex.Model.Api
import OpenObex.Proof.Buffer

/-!
# The primitives

What each primitive of `M` needs and does, as `wp` equations for straight-line code and as `Keeps`
rules for invariants. `Keeps` asks of the errors only what `Stops` says: a fault that is no null
`self->object` may end a run anywhere.
-/

namespace OpenObex

open Mem Prog

section
variable {α : Type} {E : Stop → Obex → Prop} {s : Obex}

@[simp] theorem wp_fault {f : Fault} {Q : α → Obex → Prop} :
    wp (fault f) Q E s ↔ E (.fault f) s := Iff.rfl

@[simp] theorem wp_require {f : Fault} {x : Option α} {Q : α → Obex → Prop} :
    wp (require f x) Q E s ↔ (∀ a, x = some a → Q a s) ∧ (x = none → E (.fault f) s) := by
  cases x <;> simp [require]

@[simp] theorem wp_deref {p : Ptr} {Q : ObexObject → Obex → Prop} :
    wp (deref p) Q E s ↔
      (∀ o, s.objects p = some o → Q o s) ∧ (s.objects p = none → E (.fault .dangling) s) := by
  simp [deref]

@[simp] theorem wp_update {p : Ptr} {f : ObexObject → ObexObject} {Q : Unit → Obex → Prop} :
    wp (update p f) Q E s ↔
      (∀ o, s.objects p = some o → Q () (s.setObject p (some (f o)))) ∧
        (s.objects p = none → E (.fault .dangling) s) := by
  simp [update]

@[simp] theorem wp_selfObject {Q : Ptr → Obex → Prop} :
    wp selfObject Q E s ↔
      (∀ p, s.object = some p → Q p s) ∧ (s.object = none → E (.fault .nullObject) s) := by
  simp [selfObject]

@[simp] theorem wp_emit {x : Obs} {Q : Unit → Obex → Prop} :
    wp (emit x) Q E s ↔ Q () (s.emit x) := Iff.rfl

theorem wp_peek {p : Buf} {off n : Nat} {Q : Bytes → Obex → Prop}
    (h : ∀ d, bufPeek p off n = some d → Q d s) (he : E (.fault .outOfBounds) s) :
    wp (peek p off n) Q E s := by
  rw [peek, wp_require]
  exact ⟨h, fun _ => he⟩

/-- A byte read at an offset in the data is one of the data. -/
theorem wp_byteAt {p : Buf} {off : Nat} {Q : UInt8 → Obex → Prop}
    (h : ∀ b, (off < p.dataSize → p.contents[off]? = some b) → Q b s)
    (he : E (.fault .outOfBounds) s) : wp (byteAt p off) Q E s := by
  rw [byteAt, wp_bind]
  refine wp_peek (fun d hd => ?_) he
  obtain ⟨hle, rfl⟩ := bufPeek_some hd
  rw [slice_one (by omega)]
  refine h _ fun hlt => ?_
  have hs : slice p.buffer (p.data + off) 1 = slice p.contents off 1 := slice_data (by omega)
  rw [slice_one (by omega), slice_one (by rw [length_contents]; exact hlt)] at hs
  rw [List.getElem?_eq_getElem (by rw [length_contents]; exact hlt)]
  simpa using hs.symm

/-- A byte read from a buffer, behind its data too. -/
theorem wp_byteAt_reach {m : Buf} {off : Nat} {Q : UInt8 → Obex → Prop}
    (h : ∀ b, m.reach[off]? = some b → Q b s)
    (he : m.reach.length ≤ off → E (.fault .outOfBounds) s) : wp (byteAt m off) Q E s := by
  rw [byteAt, wp_bind, peek, bufPeek_reach, wp_require]
  by_cases hle : off + 1 ≤ m.reach.length
  · rw [if_pos hle, slice_one (by omega)]
    refine ⟨?_, by simp⟩
    rintro _ ⟨⟩
    exact h _ (List.getElem?_eq_getElem (by omega))
  · rw [if_neg hle]
    exact ⟨by simp, fun _ => he (by omega)⟩

theorem wp_byteAt_some {m : Buf} {off : Nat} {b : UInt8} {f : UInt8 → M α}
    {Q : α → Obex → Prop} (hb : m.reach[off]? = some b) (h : wp (f b) Q E s) :
    wp (byteAt m off >>= f) Q E s := by
  rw [wp_bind]
  refine wp_byteAt_reach (fun c hc => ?_) fun hle => ?_
  · rw [hb] at hc
    cases hc
    exact h
  · rw [List.getElem?_eq_none hle] at hb
    cases hb

theorem wp_when {c : Prop} [Decidable c] {m : M Unit} {Q : Unit → Obex → Prop} :
    wp (when c m) Q E s ↔ (c → wp m Q E s) ∧ (¬ c → Q () s) := wp_ite

@[simp] theorem wp_allowed {b : Bool} {Q : Unit → Obex → Prop} :
    wp (allowed b) Q E s ↔ (b = true → Q () s) ∧ (b = false → E .barred s) := by
  cases b <;> simp [allowed]

end

theorem objects_setObject (s : Obex) (p : Ptr) (o : Option ObexObject) :
    (s.setObject p o).objects p = o := if_pos rfl

theorem objects_setObject_ne (s : Obex) {p q : Ptr} (o : Option ObexObject) (h : q ≠ p) :
    (s.setObject p o).objects q = s.objects q := if_neg h

theorem objects_setObject_some {s : Obex} {p q : Ptr} {o : Option ObexObject} {x : ObexObject}
    (h : (s.setObject p o).objects q = some x) :
    q = p ∧ o = some x ∨ q ≠ p ∧ s.objects q = some x := by
  by_cases hq : q = p
  · subst hq
    rw [objects_setObject] at h
    exact .inl ⟨rfl, h⟩
  · rw [objects_setObject_ne s o hq] at h
    exact .inr ⟨hq, h⟩

theorem setObject_setObject (s : Obex) (p : Ptr) (x y : Option ObexObject) :
    (s.setObject p x).setObject p y = s.setObject p y := by
  unfold Obex.setObject
  congr 1
  funext q
  by_cases h : q = p
  · simp [h]
  · simp [h]

theorem setObject_self {s : Obex} {p : Ptr} {o : ObexObject} (h : s.objects p = some o) :
    s.setObject p (some o) = s := by
  unfold Obex.setObject
  congr 1
  funext q
  by_cases hq : q = p
  · rw [if_pos hq, hq, h]
  · rw [if_neg hq]

/-! ## Keeping an invariant -/

/-- Every error but the use of a null `self->object` is one of `E`. -/
def Stops (P : Obex → Prop) (E : Stop → Obex → Prop) : Prop :=
  ∀ e s, e ≠ .fault .nullObject → P s → E e s

section
variable {α : Type} {P : Obex → Prop} {E : Stop → Obex → Prop}

theorem keeps_selfObject (h : ∀ s, P s → s.object ≠ none) : Keeps P E selfObject := by
  intro s hs
  rw [wp_selfObject]
  exact ⟨fun _ _ => hs, fun hn => absurd hn (h s hs)⟩

theorem keeps_when {c : Prop} [Decidable c] {m : M Unit} (h : c → Keeps P E m) :
    Keeps P E (when c m) :=
  Keeps.ite h fun _ => Keeps.pure _

theorem keeps_alloc (h : ∀ s, P s → P { s with fresh := s.fresh + 1 }) : Keeps P E alloc :=
  Keeps.get_bind fun t ht => Keeps.bind (Keeps.set (h t ht)) fun _ => Keeps.pure _

variable (hE : Stops P E)
include hE

theorem keeps_stop {e : Stop} (he : e ≠ .fault .nullObject) :
    Keeps P E (throw e : M α) := fun s hs => hE e s he hs

theorem keeps_fault {f : Fault} (hf : f ≠ .nullObject) : Keeps P E (fault f : M α) :=
  fun s hs => hE _ s (by simpa using hf) hs

theorem keeps_require {f : Fault} (hf : f ≠ .nullObject) (x : Option α) :
    Keeps P E (require f x) := by
  cases x with
  | none => exact keeps_fault hE hf
  | some a => exact Keeps.pure a

theorem keeps_deref (p : Ptr) : Keeps P E (deref p) :=
  Keeps.get_bind fun _ _ => keeps_require hE (by simp) _

theorem keeps_update {p : Ptr} {f : ObexObject → ObexObject}
    (h : ∀ s o, P s → s.objects p = some o → P (s.setObject p (some (f o)))) :
    Keeps P E (update p f) := by
  intro s hs
  rw [wp_update]
  exact ⟨fun o ho => h s o hs ho, fun _ => hE _ s (by simp) hs⟩

theorem keeps_peek (b : Buf) (off n : Nat) : Keeps P E (peek b off n) :=
  keeps_require hE (by simp) _

theorem keeps_byteAt (b : Buf) (off : Nat) : Keeps P E (byteAt b off) := by
  refine Keeps.bind (keeps_peek hE b off 1) fun bs => ?_
  split
  · exact Keeps.pure _
  · exact keeps_fault hE (by simp)

theorem keeps_copyFrom (bs : Option Bytes) (off n : Nat) : Keeps P E (copyFrom bs off n) := by
  unfold copyFrom
  cases bs with
  | none => exact Keeps.ite (fun _ => Keeps.pure _) fun _ => keeps_fault hE (by simp)
  | some b => exact Keeps.ite (fun _ => Keeps.pure _) fun _ => keeps_fault hE (by simp)

theorem keeps_txInsertEnd {C : Ctx} (h : ∀ s b, P s → P (s.setTxMsg b)) (d : Bytes) :
    Keeps P E (txInsertEnd C d) :=
  Keeps.get_bind fun t ht =>
    Keeps.bind (keeps_require hE (by simp) _) fun b => Keeps.set (h t b ht)

theorem keeps_currentOpcode (h : ∀ s, P s → s.object ≠ none) : Keeps P E currentOpcode :=
  Keeps.bind (keeps_selfObject h) fun p => Keeps.bind (keeps_deref hE p) fun _ => Keeps.pure _

theorem keeps_updateCurrent {f : ObexObject → ObexObject} (h : ∀ s, P s → s.object ≠ none)
    (hf : ∀ s p o, P s → s.objects p = some o → P (s.setObject p (some (f o)))) :
    Keeps P E (updateCurrent f) :=
  Keeps.bind (keeps_selfObject h) fun p => keeps_update hE fun s o hs ho => hf s p o hs ho

end

end OpenObex
