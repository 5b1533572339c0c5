import Mathlib.Order.Basic

/-!
# Dialogs

Two parties take turns: the responder makes an answer of each message, and the requester makes the next
message of the answer, or none. A party is given by what is sure to hold of its next state, so that a
dialog ends (`Ends`) where it ends whatever the parties are free to do. It does if a rank falls from
message to message (`ends_of_rank`).
-/

namespace Dialog

variable {α β μ : Type*}

/-- `serve m b P`: a responder at `b` makes an answer and a state of `m`, and `P` holds of them. -/
abbrev Serve (β μ : Type*) := μ → β → (μ → β → Prop) → Prop

/-- `hear r a P`: of `r`, a requester at `a` makes a message or none, and a state, and `P` holds of
them. -/
abbrev Hear (α μ : Type*) := μ → α → (Option μ → α → Prop) → Prop

/-- What holds of more holds. -/
structure Lawful (serve : Serve β μ) (hear : Hear α μ) : Prop where
  serve : ∀ {m b P Q}, (∀ r b', P r b' → Q r b') → serve m b P → serve m b Q
  hear : ∀ {r a P Q}, (∀ m a', P m a' → Q m a') → hear r a P → hear r a Q

/-- The message `m` is on its way. The dialog comes to its end with `n` messages at most, and then `Q`
holds of both. -/
def Ends (serve : Serve β μ) (hear : Hear α μ) (Q : α → β → Prop) : Nat → μ → α → β → Prop
  | 0, _, _, _ => False
  | n + 1, m, a, b => serve m b fun r b' => hear r a fun m' a' => m'.elim (Q a' b') fun m' =>
    Ends serve hear Q n m' a' b'

variable {serve : Serve β μ} {hear : Hear α μ} {Q Q' : α → β → Prop} {m : μ} {a : α} {b : β} {n k : Nat}

theorem Ends.mono (hl : Lawful serve hear) (hQ : ∀ a b, Q a b → Q' a b) (hnk : n ≤ k)
    (h : Ends serve hear Q n m a b) : Ends serve hear Q' k m a b := by
  induction n generalizing k m a b with
  | zero => exact h.elim
  | succ n ih =>
    obtain ⟨k, rfl⟩ : ∃ j, k = j + 1 := ⟨k - 1, by omega⟩
    rw [Ends] at h ⊢
    apply hl.serve _ h
    intro r b' hr
    apply hl.hear _ hr
    intro m' a' hm'
    cases m' with
    | none => exact hQ _ _ hm'
    | some m' => exact ih (by omega) hm'

/-- The end is reached if each message but the last is followed by one of lower rank. -/
theorem ends_of_rank (hl : Lawful serve hear) {I : Nat → μ → α → β → Prop}
    (hstep : ∀ n m a b, I n m a b → serve m b fun r b' => hear r a fun m' a' =>
      m'.elim (Q a' b') fun m' => ∃ k < n, I k m' a' b')
    (h : I n m a b) : Ends serve hear Q (n + 1) m a b := by
  induction n using Nat.strongRecOn generalizing m a b with
  | ind n ih =>
    rw [Ends]
    apply hl.serve _ (hstep n m a b h)
    intro r b' hr
    apply hl.hear _ hr
    intro m' a' hm'
    cases m' with
    | none => exact hm'
    | some m' =>
      obtain ⟨k, hk, hI⟩ := hm'
      exact (ih k hk hI).mono hl (fun _ _ hQ => hQ) hk

end Dialog
