import Mathlib.Data.Fintype.Card
import Mathlib.Order.WellFounded

/-!
# Walks

A loop whose next state depends on the present one alone: `turn` says whether it is done at a state,
cannot go on there, or which state is next. With finitely many states in reach it ends iff none of
them is stuck and none leads back to itself (`ends_iff`).
-/

namespace Walk

open Relation

inductive Turn (σ : Type*) where
  | done
  | stuck
  | on (t : σ)

variable {σ : Type*} {turn : σ → Turn σ} {s t u : σ}

def Goes (turn : σ → Turn σ) (s t : σ) : Prop := turn s = .on t

def Reaches (turn : σ → Turn σ) : σ → σ → Prop := ReflTransGen (Goes turn)

def Ends (turn : σ → Turn σ) (s : σ) : Prop := ∃ t, Reaches turn s t ∧ turn t = .done

theorem rightUnique_goes : Relator.RightUnique (Goes turn) := by
  intro s t u ht hu
  unfold Goes at ht hu
  cases ht.symm.trans hu
  rfl

theorem reaches_total (ht : Reaches turn s t) (hu : Reaches turn s u) :
    Reaches turn t u ∨ Reaches turn u t :=
  ht.total_of_right_unique rightUnique_goes hu

theorem reaches_done (h : turn s = .done) (ht : Reaches turn s t) : t = s := by
  cases ht.cases_head with
  | inl heq => exact heq.symm
  | inr hstep =>
    obtain ⟨u, hu, -⟩ := hstep
    cases h.symm.trans hu

/-- From a round trip every state in reach leads back. -/
theorem reaches_back (h : TransGen (Goes turn) s s) (ht : Reaches turn s t) : Reaches turn t s := by
  induction ht with
  | refl => exact .refl
  | @tail t u _ hu ih =>
    cases ih.cases_head with
    | inl heq =>
      obtain ⟨v, hv, hback⟩ := TransGen.head'_iff.1 h
      rw [heq] at hu
      rw [rightUnique_goes hu hv]
      exact hback
    | inr hstep =>
      obtain ⟨v, hv, hback⟩ := hstep
      rw [rightUnique_goes hu hv]
      exact hback

theorem Ends.not_stuck (h : Ends turn s) (ht : Reaches turn s t) : turn t ≠ .stuck := by
  obtain ⟨u, hu, hdone⟩ := h
  intro hstuck
  cases reaches_total ht hu with
  | inl htu =>
    cases htu.cases_head with
    | inl heq =>
      rw [heq, hdone] at hstuck
      cases hstuck
    | inr hstep =>
      obtain ⟨v, hv, -⟩ := hstep
      cases hstuck.symm.trans hv
  | inr hut =>
    rw [reaches_done hdone hut, hdone] at hstuck
    cases hstuck

theorem Ends.acyclic (h : Ends turn s) (ht : Reaches turn s t) : ¬ TransGen (Goes turn) t t := by
  obtain ⟨u, hu, hdone⟩ := h
  intro hcycle
  have hut : Reaches turn u t := by
    cases reaches_total ht hu with
    | inl htu => exact reaches_back hcycle htu
    | inr hut => exact hut
  rw [reaches_done hdone hut] at hcycle
  obtain ⟨v, hv, -⟩ := TransGen.head'_iff.1 hcycle
  cases hdone.symm.trans hv

theorem ends_iff (hfin : {t | Reaches turn s t}.Finite) : Ends turn s ↔
    (∀ t, Reaches turn s t → turn t ≠ .stuck) ∧
      ∀ t, Reaches turn s t → ¬ TransGen (Goes turn) t t := by
  constructor
  · exact fun h => ⟨fun t => h.not_stuck, fun t => h.acyclic⟩
  · rintro ⟨hstuck, hcycle⟩
    have : Finite {t // Reaches turn s t} := hfin
    -- "is reached later than" has no infinite descent on the states in reach
    let later (a b : {t // Reaches turn s t}) : Prop := TransGen (Goes turn) b.1 a.1
    have htrans : IsTrans _ later := ⟨fun _ _ _ hab hbc => hbc.trans hab⟩
    have hirrefl : Std.Irrefl later := ⟨fun a => hcycle a.1 a.2⟩
    have hwf : WellFounded later := Finite.wellFounded_of_trans_of_irrefl later
    obtain ⟨⟨m, hm⟩, -, hlast⟩ := hwf.has_min Set.univ ⟨⟨s, .refl⟩, trivial⟩
    refine ⟨m, hm, ?_⟩
    cases hturn : turn m with
    | done => rfl
    | stuck => exact absurd hturn (hstuck m hm)
    | on t => exact absurd (.single hturn) (hlast ⟨t, hm.tail hturn⟩ trivial)

/-- A walk whose states only grow comes back to none of them. -/
theorem acyclic_of_lt [Preorder σ] (h : ∀ a b, Reaches turn s a → Goes turn a b → a < b)
    (ht : Reaches turn s t) : ¬ TransGen (Goes turn) t t := by
  have hlt : ∀ u, TransGen (Goes turn) t u → t < u := by
    intro u hu
    induction hu with
    | single hgo => exact h _ _ ht hgo
    | tail hr hgo ih => exact ih.trans (h _ _ (ReflTransGen.trans ht hr.to_reflTransGen) hgo)
  exact fun hcycle => lt_irrefl t (hlt t hcycle)

end Walk
