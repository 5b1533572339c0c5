import Mathlib.Data.List.Basic

/-!
# A reel that is read through and wound back

A `Reel` is a list in two parts: what has been read since it was wound back, and what is left. It
grows at its end at any time, is read from the front, and is wound back when nothing is left. What
has been put is never lost or reordered (`Plays.contents`), and a pass from a winding back to the end
of the reel reads all of it (`Plays.pass`).
-/

structure Reel (α : Type) where
  seen : List α
  left : List α

namespace Reel

variable {α : Type} {r r' : Reel α}

def empty : Reel α := ⟨[], []⟩

def contents (r : Reel α) : List α := r.seen ++ r.left

inductive Step (α : Type)
  | put (a : α)
  /-- What is read, nothing at the end. -/
  | next (a : Option α)
  /-- Whether the reel is wound back. -/
  | rewind (done : Bool)

inductive Moves : Reel α → Step α → Reel α → Prop
  | put (seen left : List α) (a : α) : Moves ⟨seen, left⟩ (.put a) ⟨seen, left ++ [a]⟩
  | next (seen left : List α) (a : α) : Moves ⟨seen, a :: left⟩ (.next (some a)) ⟨seen ++ [a], left⟩
  | atEnd (seen : List α) : Moves ⟨seen, []⟩ (.next none) ⟨seen, []⟩
  | rewind (seen : List α) : Moves ⟨seen, []⟩ (.rewind true) ⟨[], seen⟩
  | refuse (seen left : List α) : left ≠ [] → Moves ⟨seen, left⟩ (.rewind false) ⟨seen, left⟩

/-- A history of steps. -/
def Plays : Reel α → List (Step α) → Reel α → Prop
  | r, [], r' => r' = r
  | r, x :: t, r'' => ∃ r', Moves r x r' ∧ Plays r' t r''

theorem plays_append {r r'' : Reel α} {t u : List (Step α)} :
    Plays r (t ++ u) r'' ↔ ∃ r', Plays r t r' ∧ Plays r' u r'' := by
  induction t generalizing r with
  | nil =>
    constructor
    · intro h
      exact ⟨r, rfl, h⟩
    · rintro ⟨_, rfl, h⟩
      exact h
  | cons x t ih =>
    constructor
    · rintro ⟨r₁, hx, h⟩
      obtain ⟨r', ht, hu⟩ := ih.1 h
      exact ⟨r', ⟨r₁, hx, ht⟩, hu⟩
    · rintro ⟨r', ⟨r₁, hx, ht⟩, hu⟩
      exact ⟨r₁, hx, ih.2 ⟨r', ht, hu⟩⟩

theorem Moves.plays {x : Step α} (h : Moves r x r') : Plays r [x] r' := ⟨r', h, rfl⟩

/-! ## What a history puts and reads -/

def Step.puts : Step α → List α
  | .put a => [a]
  | _ => []

def Step.reads : Step α → List α
  | .next (some a) => [a]
  | _ => []

/-- What has been put, in order. -/
def puts (t : List (Step α)) : List α := t.flatMap Step.puts

/-- What has been read, in order. -/
def reads (t : List (Step α)) : List α := t.flatMap Step.reads

@[simp] theorem puts_nil : puts ([] : List (Step α)) = [] := rfl

@[simp] theorem puts_append (t u : List (Step α)) : puts (t ++ u) = puts t ++ puts u :=
  List.flatMap_append

@[simp] theorem puts_cons (x : Step α) (t : List (Step α)) : puts (x :: t) = x.puts ++ puts t := rfl

@[simp] theorem reads_cons (x : Step α) (t : List (Step α)) : reads (x :: t) = x.reads ++ reads t :=
  rfl

theorem Moves.contents {x : Step α} (h : Moves r x r') : r'.contents = r.contents ++ x.puts := by
  cases h <;> simp [Reel.contents, Step.puts]

theorem Plays.contents {t : List (Step α)} (h : Plays r t r') :
    r'.contents = r.contents ++ puts t := by
  induction t generalizing r with
  | nil =>
    rw [h, puts_nil, List.append_nil]
  | cons x t ih =>
    obtain ⟨r₁, hx, ht⟩ := h
    rw [ih ht, hx.contents, puts_cons, List.append_assoc]

theorem Moves.seen {x : Step α} (h : Moves r x r') (hx : x ≠ .rewind true) :
    r'.seen = r.seen ++ x.reads := by
  cases h with
  | rewind => exact absurd rfl hx
  | next seen left a => rfl
  | _ => simp [Step.reads]

/-- What has been read since the reel was wound back. -/
theorem Plays.seen {t : List (Step α)} (h : Plays r t r') (ht : .rewind true ∉ t) :
    r'.seen = r.seen ++ reads t := by
  induction t generalizing r with
  | nil =>
    rw [h]
    exact (List.append_nil _).symm
  | cons x t ih =>
    obtain ⟨r₁, hx, h⟩ := h
    rw [List.mem_cons, not_or] at ht
    rw [ih h ht.2, hx.seen fun he => ht.1 he.symm, reads_cons, List.append_assoc]

theorem Plays.pass {t₁ t₂ t₃ : List (Step α)}
    (h : Plays empty (t₁ ++ .rewind true :: (t₂ ++ .next none :: t₃)) r)
    (ht : .rewind true ∉ t₂) : reads t₂ = puts (t₁ ++ t₂) := by
  obtain ⟨r₁, h₁, r₂, hrewind, h⟩ := plays_append.1 h
  obtain ⟨r₃, h₂, r₄, hend, -⟩ := plays_append.1 h
  have hall : r₃.contents = puts (t₁ ++ t₂) := by
    rw [h₂.contents, hrewind.contents, h₁.contents, puts_append]
    simp [Reel.contents, empty, Step.puts]
  have hseen := h₂.seen ht
  cases hrewind
  cases hend
  rw [← hall, Reel.contents, hseen]
  simp

end Reel
