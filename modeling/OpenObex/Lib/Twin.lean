import OpenObex.Lib.Wp

/-!
# Two runs

`Twin R E m n s t`: `m` from `s` and `n` from `t` both return, with values and states of `R`, or both
stop with the same error, in states of `E`. The rules follow the two programs in step.
-/

namespace Prog

variable {ε σ α β γ δ : Type}

def Twin (R : α → β → σ → σ → Prop) (E : σ → σ → Prop) (m : EStateM ε σ α) (n : EStateM ε σ β)
    (s t : σ) : Prop :=
  match m s, n t with
  | .ok a s', .ok b t' => R a b s' t'
  | .error e s', .error f t' => e = f ∧ E s' t'
  | _, _ => False

namespace Twin

variable {R : α → β → σ → σ → Prop} {E : σ → σ → Prop} {s t : σ}

theorem pure {a : α} {b : β} (h : R a b s t) :
    Twin R E (pure a : EStateM ε σ α) (pure b) s t := h

theorem throw {e : ε} (h : E s t) :
    Twin R E (throw e : EStateM ε σ α) (throw e) s t := ⟨rfl, h⟩

theorem bind {S : γ → δ → σ → σ → Prop} {m : EStateM ε σ γ} {n : EStateM ε σ δ}
    {f : γ → EStateM ε σ α} {g : δ → EStateM ε σ β} (h : Twin S E m n s t)
    (hf : ∀ a b s' t', S a b s' t' → Twin R E (f a) (g b) s' t') :
    Twin R E (m >>= f) (n >>= g) s t := by
  unfold Twin at *
  simp only [Bind.bind, EStateM.bind]
  cases hm : m s with
  | ok a s' =>
    cases hn : n t with
    | ok b t' =>
      rw [hm, hn] at h
      exact hf a b s' t' h
    | error e t' =>
      rw [hm, hn] at h
      exact h.elim
  | error e s' =>
    cases hn : n t with
    | ok b t' =>
      rw [hm, hn] at h
      exact h.elim
    | error f t' =>
      rw [hm, hn] at h
      exact h

theorem get_bind {f : σ → EStateM ε σ α} {g : σ → EStateM ε σ β} (h : Twin R E (f s) (g t) s t) :
    Twin R E (get >>= f) (get >>= g) s t := h

theorem set_bind {f : PUnit → EStateM ε σ α} {g : PUnit → EStateM ε σ β} {s' t' : σ}
    (h : Twin R E (f ⟨⟩) (g ⟨⟩) s' t') : Twin R E (set s' >>= f) (set t' >>= g) s t := h

theorem modify_bind {f : PUnit → EStateM ε σ α} {g : PUnit → EStateM ε σ β} {k l : σ → σ}
    (h : Twin R E (f ⟨⟩) (g ⟨⟩) (k s) (l t)) :
    Twin R E (modify k >>= f) (modify l >>= g) s t := h

theorem mono {R' : α → β → σ → σ → Prop} {E' : σ → σ → Prop} {m : EStateM ε σ α}
    {n : EStateM ε σ β} (h : Twin R E m n s t) (hR : ∀ a b s' t', R a b s' t' → R' a b s' t')
    (hE : ∀ s' t', E s' t' → E' s' t') : Twin R' E' m n s t := by
  unfold Twin at *
  cases hm : m s with
  | ok a s' =>
    cases hn : n t with
    | ok b t' =>
      rw [hm, hn] at h
      exact hR _ _ _ _ h
    | error e t' =>
      rw [hm, hn] at h
      exact h.elim
  | error e s' =>
    cases hn : n t with
    | ok b t' =>
      rw [hm, hn] at h
      exact h.elim
    | error f t' =>
      rw [hm, hn] at h
      exact ⟨h.1, hE _ _ h.2⟩

/-- Two runs that both return. -/
theorem of_wp {m : EStateM ε σ α} {n : EStateM ε σ β} {Q : α → σ → Prop} {S : β → σ → Prop}
    (hm : wp m Q (fun _ _ => False) s) (hn : wp n S (fun _ _ => False) t)
    (h : ∀ a b s' t', Q a s' → S b t' → R a b s' t') : Twin R E m n s t := by
  unfold Twin
  unfold wp at hm hn
  cases hms : m s with
  | ok a s' =>
    cases hnt : n t with
    | ok b t' =>
      rw [hms] at hm
      rw [hnt] at hn
      exact h _ _ _ _ hm hn
    | error e t' =>
      rw [hnt] at hn
      exact hn.elim
  | error e s' =>
    rw [hms] at hm
    exact hm.elim

/-- What is known of each of two runs that return holds where they end together. -/
theorem both {m : EStateM ε σ α} {n : EStateM ε σ β} {Q : α → σ → Prop} {S : β → σ → Prop}
    (h : Twin R E m n s t) (hm : wp m Q (fun _ _ => False) s) (hn : wp n S (fun _ _ => False) t) :
    ∃ a b s' t', R a b s' t' ∧ Q a s' ∧ S b t' := by
  unfold Twin at h
  unfold wp at hm hn
  cases hms : m s with
  | ok a s' =>
    cases hnt : n t with
    | ok b t' =>
      rw [hms, hnt] at h
      rw [hms] at hm
      rw [hnt] at hn
      exact ⟨a, b, s', t', h, hm, hn⟩
    | error e t' =>
      rw [hnt] at hn
      exact hn.elim
  | error e s' =>
    rw [hms] at hm
    exact hm.elim

theorem ite {c : Prop} [Decidable c] {m n : EStateM ε σ α} {m' n' : EStateM ε σ β}
    (hm : c → Twin R E m m' s t) (hn : ¬ c → Twin R E n n' s t) :
    Twin R E (if c then m else n) (if c then m' else n') s t := by
  split
  · exact hm ‹_›
  · exact hn ‹_›

end Twin

end Prog
