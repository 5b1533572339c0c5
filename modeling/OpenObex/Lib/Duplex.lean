import Mathlib.Data.List.Basic
import Mathlib.Logic.Relation

/-!
# Two parties and the links between them

A requester and a responder exchange messages over two links that lose and reorder nothing. Where the
requester waits for an answer to each message before it sends the next (`Requester`), and the responder
sends at most one answer to each message it receives and nothing of its own accord (`Responder`), there
is at most one message under way in any interleaving, and it belongs to the message the requester waits
on (`Calm`). `tag` tells what a message belongs to: an answer carries the tag of the message it answers.
-/

namespace Duplex

open Relation

variable {σ τ μ ι : Type}

/-- What one party can do: a step of its own, or to receive a message. Both may send messages. -/
structure Party (σ μ : Type) where
  act : σ → σ → List μ → Prop
  receive : σ → μ → σ → List μ → Prop

/-- The two parties, and what is under way in either direction. -/
structure Session (σ τ μ : Type) where
  requester : σ
  responder : τ
  up : List μ
  down : List μ

inductive Step (A : Party σ μ) (B : Party τ μ) : Session σ τ μ → Session σ τ μ → Prop
  | request {a a' b up down out} (h : A.act a a' out) :
    Step A B ⟨a, b, up, down⟩ ⟨a', b, up ++ out, down⟩
  | hear {a a' b up down m out} (h : A.receive a m a' out) :
      Step A B ⟨a, b, up, m :: down⟩ ⟨a', b, up ++ out, down⟩
  | serve {a b b' up down out} (h : B.act b b' out) : Step A B ⟨a, b, up, down⟩ ⟨a, b', up, down ++ out⟩
  | answer {a b b' up down m out} (h : B.receive b m b' out) :
      Step A B ⟨a, b, m :: up, down⟩ ⟨a, b', up, down ++ out⟩

/-- What a requester sends: nothing while it waits, otherwise at most the message it then waits on. -/
structure Sends (tag : μ → ι) (before after : Option ι) (out : List μ) : Prop where
  quiet : before ≠ none → out = [] ∧ after = before
  one : out.length ≤ 1
  waits : ∀ m ∈ out, after = some (tag m)

/-- A party that waits for the answer to each of its messages. -/
structure Requester (A : Party σ μ) (inv : σ → Prop) (tag : μ → ι) (waiting : σ → Option ι) : Prop where
  act : ∀ a a' out, inv a → A.act a a' out → inv a' ∧ Sends tag (waiting a) (waiting a') out
  receive : ∀ a m a' out, inv a → waiting a = some (tag m) → A.receive a m a' out →
    inv a' ∧ Sends tag none (waiting a') out

/-- A party that answers a message at most once. -/
structure Responder (B : Party τ μ) (inv : τ → Prop) (tag : μ → ι) : Prop where
  act : ∀ b b' out, inv b → B.act b b' out → inv b' ∧ out = []
  receive : ∀ b m b' out, inv b → B.receive b m b' out →
    inv b' ∧ out.length ≤ 1 ∧ ∀ r ∈ out, tag r = tag m

/-- At most one message is under way, and the requester waits on it. -/
structure Calm (P : σ → Prop) (Q : τ → Prop) (tag : μ → ι) (waiting : σ → Option ι)
    (x : Session σ τ μ) : Prop where
  requester : P x.requester
  responder : Q x.responder
  one : (x.up ++ x.down).length ≤ 1
  waits : ∀ m ∈ x.up ++ x.down, waiting x.requester = some (tag m)

section
variable {A : Party σ μ} {B : Party τ μ} {P : σ → Prop} {Q : τ → Prop} {tag : μ → ι}
  {waiting : σ → Option ι}

theorem append_eq_nil_of_length_le {l l' : List μ} {m : μ} (h : (l ++ m :: l').length ≤ 1) :
    l = [] ∧ l' = [] := by
  simp only [List.length_append, List.length_cons] at h
  exact ⟨List.eq_nil_of_length_eq_zero (by omega), List.eq_nil_of_length_eq_zero (by omega)⟩

/-- Where the requester waits on nothing, nothing is under way. -/
theorem Calm.idle {x : Session σ τ μ} (h : Calm P Q tag waiting x) (hw : waiting x.requester = none) :
    x.up = [] ∧ x.down = [] := by
  rcases hx : x.up ++ x.down with _ | ⟨m, ms⟩
  · simpa using hx
  · have hm := h.waits m (by simp [hx])
    simp [hw] at hm

theorem Step.calm (hA : Requester A P tag waiting) (hB : Responder B Q tag) {x y : Session σ τ μ}
    (h : Step A B x y) (hx : Calm P Q tag waiting x) : Calm P Q tag waiting y := by
  cases h with
  | @request a a' b up down out h =>
    obtain ⟨ha, hs⟩ := hA.act a a' out hx.requester h
    cases hw : waiting a with
    | none =>
      obtain ⟨rfl, rfl⟩ := hx.idle hw
      exact ⟨ha, hx.responder, by simpa using hs.one, by simpa using hs.waits⟩
    | some i =>
      obtain ⟨rfl, hsame⟩ := hs.quiet (by simp [hw])
      refine ⟨ha, hx.responder, by simpa using hx.one, fun m hm => ?_⟩
      exact hsame.trans (hx.waits m (by simpa using hm))
  | @hear a a' b up down m out h =>
    obtain ⟨rfl, rfl⟩ := append_eq_nil_of_length_le hx.one
    obtain ⟨ha, hs⟩ := hA.receive a m a' out hx.requester (hx.waits m (by simp)) h
    exact ⟨ha, hx.responder, by simpa using hs.one, by simpa using hs.waits⟩
  | @serve a b b' up down out h =>
    obtain ⟨hb, rfl⟩ := hB.act b b' out hx.responder h
    exact ⟨hx.requester, hb, by simpa using hx.one, by simpa using hx.waits⟩
  | @answer a b b' up down m out h =>
    obtain ⟨hb, hone, htag⟩ := hB.receive b m b' out hx.responder h
    have hnil : up = [] ∧ down = [] := by
      have hlen := hx.one
      simp only [List.length_append, List.length_cons] at hlen
      exact ⟨List.eq_nil_of_length_eq_zero (by omega), List.eq_nil_of_length_eq_zero (by omega)⟩
    obtain ⟨rfl, rfl⟩ := hnil
    refine ⟨hx.requester, hb, by simpa using hone, fun r hr => ?_⟩
    rw [htag r (by simpa using hr)]
    exact hx.waits m (by simp)

theorem calm_of_reaches (hA : Requester A P tag waiting) (hB : Responder B Q tag) {x y : Session σ τ μ}
    (hx : Calm P Q tag waiting x) (h : ReflTransGen (Step A B) x y) : Calm P Q tag waiting y := by
  induction h with
  | refl => exact hx
  | tail _ hstep ih => exact hstep.calm hA hB ih

end

end Duplex
