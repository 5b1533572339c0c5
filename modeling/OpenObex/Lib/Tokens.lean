import Mathlib.Data.List.Infix

/-!
# Concatenations of tokens

A language of tokens `H`, none of them empty and none a proper prefix of another (`Code`). Every
list is a concatenation of tokens followed by a rest that starts with none (`exists_split`), and it
is a concatenation of tokens exactly when that rest is empty.
-/

namespace Tokens

variable {α : Type} {H : List α → Prop}

structure Code (H : List α → Prop) : Prop where
  ne_nil : ∀ {a}, H a → a ≠ []
  unique : ∀ {a b x y}, H a → H b → a ++ x = b ++ y → a = b

/-- A concatenation of tokens. -/
def Concat (H : List α → Prop) (w : List α) : Prop :=
  ∃ ts : List (List α), (∀ t ∈ ts, H t) ∧ ts.flatten = w

/-- A token followed by something. -/
def Starts (H : List α → Prop) (w : List α) : Prop := ∃ t x, H t ∧ t ++ x = w

theorem concat_nil : Concat H ([] : List α) := ⟨[], by simp, rfl⟩

theorem Concat.cons {t w : List α} (ht : H t) (hw : Concat H w) : Concat H (t ++ w) := by
  obtain ⟨ts, hts, rfl⟩ := hw
  refine ⟨t :: ts, ?_, List.flatten_cons⟩
  intro u hu
  cases List.mem_cons.1 hu with
  | inl h => rwa [h]
  | inr h => exact hts u h

/-- What is a concatenation and not empty starts with a token. -/
theorem Concat.starts {w : List α} (hw : Concat H w) (hne : w ≠ []) : Starts H w := by
  obtain ⟨ts, hts, rfl⟩ := hw
  cases ts with
  | nil => exact absurd rfl hne
  | cons t ts => exact ⟨t, ts.flatten, hts t List.mem_cons_self, List.flatten_cons.symm⟩

/-- The tokens up to the first place where none starts. -/
theorem exists_split (hH : ∀ a, H a → a ≠ []) (w : List α) :
    ∃ (ts : List (List α)) (rest : List α), (∀ t ∈ ts, H t) ∧ w = ts.flatten ++ rest ∧
      ¬ Starts H rest := by
  induction hn : w.length using Nat.strong_induction_on generalizing w with
  | _ n ih =>
    by_cases hs : Starts H w
    · obtain ⟨t, x, ht, rfl⟩ := hs
      have hpos : 0 < t.length := List.length_pos_iff.2 (hH t ht)
      obtain ⟨ts, rest, hts, rfl, hr⟩ := ih x.length (by rw [← hn, List.length_append]; omega) x rfl
      refine ⟨t :: ts, rest, ?_, by rw [List.flatten_cons, List.append_assoc], hr⟩
      intro u hu
      cases List.mem_cons.1 hu with
      | inl h => rwa [h]
      | inr h => exact hts u h
    · exact ⟨[], w, by simp, rfl, hs⟩

namespace Code

variable (hH : Code H)
include hH

theorem concat_of_cons {t w : List α} (ht : H t) (hw : Concat H (t ++ w)) : Concat H w := by
  obtain ⟨ts, hts, he⟩ := hw
  cases ts with
  | nil =>
    have : t = [] := (List.append_eq_nil_iff.1 he.symm).1
    exact absurd this (hH.ne_nil ht)
  | cons u ts =>
    rw [List.flatten_cons] at he
    have hu : u = t := hH.unique (hts u List.mem_cons_self) ht he
    rw [hu] at he
    exact ⟨ts, fun v hv => hts v (List.mem_cons_of_mem _ hv), List.append_cancel_left he⟩

theorem concat_split_iff {ts : List (List α)} (hts : ∀ t ∈ ts, H t) {rest : List α}
    (hr : ¬ Starts H rest) : Concat H (ts.flatten ++ rest) ↔ rest = [] := by
  induction ts with
  | nil =>
    rw [List.flatten_nil, List.nil_append]
    constructor
    · intro h
      by_contra hne
      exact hr (h.starts hne)
    · intro h
      rw [h]
      exact concat_nil
  | cons t ts ih =>
    have ht : H t := hts t List.mem_cons_self
    rw [List.flatten_cons, List.append_assoc, ← ih fun u hu => hts u (List.mem_cons_of_mem _ hu)]
    exact ⟨hH.concat_of_cons ht, Concat.cons ht⟩

end Code

end Tokens
