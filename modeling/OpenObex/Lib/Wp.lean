import Mathlib.Init

/-!
# Weakest preconditions for computations that may stop

A computation `EStateM ε σ α` runs on a state `σ` and either returns a value or stops with an
`ε`, the state being kept in both cases. `wp m Q E s`: run from `s`, `m` returns with `Q` or stops
with `E`. The `simp` set computes `wp` through straight-line code; `wp_mono` uses a lemma about a
part of it; `Keeps.iterate` is the induction over a list of commands.
-/

namespace Prog

variable {ε σ α β : Type}

def wp (m : EStateM ε σ α) (Q : α → σ → Prop) (E : ε → σ → Prop) (s : σ) : Prop :=
  match m s with
  | .ok a s' => Q a s'
  | .error e s' => E e s'

section
variable {Q Q' : α → σ → Prop} {E E' : ε → σ → Prop} {s : σ}

@[simp] theorem wp_pure {a : α} : wp (pure a : EStateM ε σ α) Q E s ↔ Q a s := Iff.rfl

@[simp] theorem wp_bind {m : EStateM ε σ β} {f : β → EStateM ε σ α} :
    wp (m >>= f) Q E s ↔ wp m (fun b s' => wp (f b) Q E s') E s := by
  simp only [wp, bind, EStateM.bind]
  cases m s <;> rfl

@[simp] theorem wp_map {m : EStateM ε σ β} {f : β → α} :
    wp (f <$> m) Q E s ↔ wp m (fun b s' => Q (f b) s') E s := by
  simp only [wp, Functor.map, EStateM.map]
  cases m s <;> rfl

@[simp] theorem wp_get {Q : σ → σ → Prop} : wp (get : EStateM ε σ σ) Q E s ↔ Q s s := Iff.rfl

@[simp] theorem wp_set {Q : PUnit → σ → Prop} {t : σ} :
    wp (set t : EStateM ε σ PUnit) Q E s ↔ Q ⟨⟩ t := Iff.rfl

@[simp] theorem wp_modify {Q : PUnit → σ → Prop} {f : σ → σ} :
    wp (modify f : EStateM ε σ PUnit) Q E s ↔ Q ⟨⟩ (f s) := Iff.rfl

@[simp] theorem wp_throw {e : ε} : wp (throw e : EStateM ε σ α) Q E s ↔ E e s := Iff.rfl

theorem wp_ite {c : Prop} [Decidable c] {m n : EStateM ε σ α} :
    wp (if c then m else n) Q E s ↔ (c → wp m Q E s) ∧ (¬ c → wp n Q E s) := by
  split <;> simp_all

/-- A lemma about `m` used at weaker postconditions. -/
theorem wp_mono {m : EStateM ε σ α} (h : wp m Q E s) (hq : ∀ a s', Q a s' → Q' a s')
    (he : ∀ e s', E e s' → E' e s') : wp m Q' E' s := by
  unfold wp at *
  cases hm : m s with
  | ok a s' => rw [hm] at h; exact hq a s' h
  | error e s' => rw [hm] at h; exact he e s' h

/-- A lemma about the first of two parts. -/
theorem wp_seq {m : EStateM ε σ β} {f : β → EStateM ε σ α} {P : β → σ → Prop} (h : wp m P E s)
    (hf : ∀ b s', P b s' → wp (f b) Q E s') : wp (m >>= f) Q E s := by
  rw [wp_bind]
  exact wp_mono h hf fun _ _ he => he

/-- A lemma about `m` used at a weaker postcondition. -/
theorem wp_conseq {m : EStateM ε σ α} (h : wp m Q E s) (hq : ∀ a s', Q a s' → Q' a s') :
    wp m Q' E s := wp_mono h hq fun _ _ he => he

theorem wp_and {m : EStateM ε σ α} (h : wp m Q E s) (h' : wp m Q' E' s) :
    wp m (fun a s' => Q a s' ∧ Q' a s') (fun e s' => E e s' ∧ E' e s') s := by
  unfold wp at *
  cases hm : m s with
  | ok a s' => rw [hm] at h h'; exact ⟨h, h'⟩
  | error e s' => rw [hm] at h h'; exact ⟨h, h'⟩

theorem wp_true {m : EStateM ε σ α} : wp m (fun _ _ => True) (fun _ _ => True) s := by
  unfold wp
  cases m s <;> trivial

theorem not_wp_false {m : EStateM ε σ α} : ¬ wp m (fun _ _ => False) (fun _ _ => False) s := by
  intro h
  unfold wp at h
  cases hm : m s with
  | ok a s' => rwa [hm] at h
  | error e s' => rwa [hm] at h

/-- The outcome of a run. -/
theorem wp_ok {m : EStateM ε σ α} (h : wp m Q E s) {a : α} {s' : σ} (hm : m s = .ok a s') :
    Q a s' := by
  unfold wp at h
  rwa [hm] at h

/-- A run decides. -/
theorem wp_iff_ok {m : EStateM ε σ α} {a : α} {s' : σ} (hm : m s = .ok a s') :
    wp m Q E s ↔ Q a s' := by
  unfold wp
  rw [hm]

theorem wp_iff_error {m : EStateM ε σ α} {e : ε} {s' : σ} (hm : m s = .error e s') :
    wp m Q E s ↔ E e s' := by
  unfold wp
  rw [hm]

theorem wp_error {m : EStateM ε σ α} (h : wp m Q E s) {e : ε} {s' : σ}
    (hm : m s = .error e s') : E e s' := by
  unfold wp at h
  rwa [hm] at h

end

/-- Running the commands of a list in order. -/
def iterate {γ : Type} (run : γ → EStateM ε σ PUnit) : List γ → EStateM ε σ PUnit
  | [] => pure ⟨⟩
  | c :: cs => do
    run c
    iterate run cs

theorem wp_iterate_append {γ : Type} {run : γ → EStateM ε σ PUnit} {cs ds : List γ}
    {Q : PUnit → σ → Prop} {E : ε → σ → Prop} {s : σ} :
    wp (iterate run (cs ++ ds)) Q E s ↔ wp (iterate run cs) (fun _ s' => wp (iterate run ds) Q E s')
      E s := by
  induction cs generalizing s with
  | nil => exact Iff.rfl
  | cons c cs ih =>
    rw [List.cons_append, iterate, iterate, wp_bind, wp_bind]
    constructor
    · exact fun h => wp_conseq h fun _ _ h' => ih.1 h'
    · exact fun h => wp_conseq h fun _ _ h' => ih.2 h'

/-! ## Invariants

`Keeps P E m`: from every state of `P`, `m` returns to `P` or stops with `E`. -/

def Keeps (P : σ → Prop) (E : ε → σ → Prop) (m : EStateM ε σ α) : Prop :=
  ∀ s, P s → wp m (fun _ => P) E s

namespace Keeps

variable {P : σ → Prop} {E : ε → σ → Prop}

theorem pure (a : α) : Keeps P E (pure a : EStateM ε σ α) := fun _ hs => hs

theorem bind {m : EStateM ε σ β} {f : β → EStateM ε σ α} (hm : Keeps P E m)
    (hf : ∀ b, Keeps P E (f b)) : Keeps P E (m >>= f) := by
  intro s hs
  exact wp_seq (hm s hs) fun b s' hs' => hf b s' hs'

/-- The state read is one of `P`. -/
theorem get_bind {f : σ → EStateM ε σ α} (h : ∀ t, P t → Keeps P E (f t)) :
    Keeps P E (get >>= f) := by
  intro s hs
  rw [wp_bind]
  exact h s hs s hs

theorem set {t : σ} (h : P t) : Keeps P E (set t : EStateM ε σ PUnit) := fun _ _ => h

theorem modify {f : σ → σ} (h : ∀ s, P s → P (f s)) :
    Keeps P E (modify f : EStateM ε σ PUnit) := h

theorem ite {c : Prop} [Decidable c] {m n : EStateM ε σ α} (hm : c → Keeps P E m)
    (hn : ¬ c → Keeps P E n) : Keeps P E (if c then m else n) := by
  split
  · exact hm ‹_›
  · exact hn ‹_›

theorem trivial {m : EStateM ε σ α} : Keeps (fun _ => True) (fun _ _ => True) m := fun _ _ => wp_true

theorem iterate {γ : Type} {run : γ → EStateM ε σ PUnit} (cs : List γ)
    (h : ∀ c ∈ cs, Keeps P E (run c)) : Keeps P E (iterate run cs) := by
  induction cs with
  | nil => exact fun _ hs => hs
  | cons c cs ih =>
    exact bind (h c List.mem_cons_self) fun _ => ih fun d hd => h d (List.mem_cons_of_mem _ hd)

end Keeps

/-- `m` keeps `P` and its value satisfies `R`. -/
def Yields (P : σ → Prop) (E : ε → σ → Prop) (R : α → Prop) (m : EStateM ε σ α) : Prop :=
  ∀ s, P s → wp m (fun a s' => P s' ∧ R a) E s

namespace Yields

variable {P : σ → Prop} {E : ε → σ → Prop} {R : α → Prop} {S : β → Prop}

theorem pure {a : α} (h : R a) : Yields P E R (pure a : EStateM ε σ α) := fun _ hs => ⟨hs, h⟩

theorem bind {m : EStateM ε σ β} {f : β → EStateM ε σ α} (hm : Yields P E S m)
    (hf : ∀ b, S b → Yields P E R (f b)) : Yields P E R (m >>= f) := by
  intro s hs
  exact wp_seq (hm s hs) fun b s' hs' => hf b hs'.2 s' hs'.1

theorem bind_keeps {m : EStateM ε σ β} {f : β → EStateM ε σ α} (hm : Keeps P E m)
    (hf : ∀ b, Yields P E R (f b)) : Yields P E R (m >>= f) := by
  intro s hs
  exact wp_seq (hm s hs) fun b s' hs' => hf b s' hs'

theorem get_bind {f : σ → EStateM ε σ α} (h : ∀ t, P t → Yields P E R (f t)) :
    Yields P E R (get >>= f) := by
  intro s hs
  rw [wp_bind]
  exact h s hs s hs

theorem throw {e : ε} (h : ∀ s, P s → E e s) : Yields P E R (throw e : EStateM ε σ α) := h

theorem ite {c : Prop} [Decidable c] {m n : EStateM ε σ α} (hm : c → Yields P E R m)
    (hn : ¬ c → Yields P E R n) : Yields P E R (if c then m else n) := by
  split
  · exact hm ‹_›
  · exact hn ‹_›

end Yields

end Prog
