import Mathlib.Data.List.Basic
import Mathlib.Data.List.Infix

/-!
# Traces

A trace is the list of what has happened so far. `after` folds a monitor over it; `Always f` says
that `f` held all along, that is of every prefix.
-/

namespace Trace

variable {α σ : Type}

/-- The monitor's state after a trace. -/
def after (step : σ → α → σ) (init : σ) (t : List α) : σ := t.foldl step init

@[simp] theorem after_append (step : σ → α → σ) (init : σ) (t : List α) (x : α) :
    after step init (t ++ [x]) = step (after step init t) x := by
  simp only [after, List.foldl_append, List.foldl_cons, List.foldl_nil]

/-- `f` holds of every prefix of the trace. -/
def Always (f : List α → Prop) (t : List α) : Prop := ∀ pre, pre <+: t → f pre

namespace Always

variable {f : List α → Prop} {t : List α}

theorem nil (h : f []) : Always f [] := by
  intro pre hpre
  rw [List.prefix_nil] at hpre
  rw [hpre]
  exact h

theorem last (h : Always f t) : f t := h t (List.prefix_refl t)

theorem append (h : Always f t) {x : α} (hx : f (t ++ [x])) : Always f (t ++ [x]) := by
  intro pre hpre
  rcases List.prefix_concat_iff.1 hpre with he | hp
  · rw [he]
    exact hx
  · exact h pre hp

end Always

/-- `f` held of every element when it was added. -/
def Steps (f : List α → α → Prop) (t : List α) : Prop := ∀ pre x, pre ++ [x] <+: t → f pre x

namespace Steps

variable {f : List α → α → Prop} {t : List α}

theorem nil : Steps f [] := by
  intro pre x h
  simp at h

theorem append (h : Steps f t) {x : α} (hx : f t x) : Steps f (t ++ [x]) := by
  intro pre y hpre
  rcases List.prefix_concat_iff.1 hpre with he | hp
  · obtain ⟨rfl, hy⟩ := List.append_inj' he rfl
    cases hy
    exact hx
  · exact h pre y hp

theorem getElem? (h : Steps f t) {k : Nat} {x : α} (hx : t[k]? = some x) : f (t.take k) x := by
  have htake : t.take (k + 1) = t.take k ++ [x] := by rw [List.take_add_one, hx, Option.toList_some]
  exact h _ x (htake ▸ List.take_prefix _ _)

end Steps

end Trace
