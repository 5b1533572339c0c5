import OpenObex.Lib.Tokens
import OpenObex.Model.State

/-!
# The grammar of headers

What a packet's headers are meant to be: a concatenation of complete ones. A header says at its
start how long it is, so that a byte string is such a concatenation in one way at most.
-/

namespace OpenObex

open Mem Tokens

/-- A complete header. -/
inductive Header : Bytes → Prop
  | byte {hi : UInt8} (h : hiType hi = .byte) (v : UInt8) : Header [hi, v]
  | int {hi : UInt8} (h : hiType hi = .int) (a b c d : UInt8) : Header [hi, a, b, c, d]
  | sized {hi : UInt8} (h : hiType hi = .unicode ∨ hiType hi = .byteStream) {a b : UInt8}
      {v : Bytes} (hl : ofBe16 a b = v.length + 3) : Header (hi :: a :: b :: v)

/-- A well-formed sequence of headers. -/
def WellFormed (w : Bytes) : Prop := Concat Header w

theorem Header.ne_nil {t : Bytes} (h : Header t) : t ≠ [] := by
  cases h <;> simp

theorem Header.two_le_length {t : Bytes} (h : Header t) : 2 ≤ t.length := by
  cases h <;> simp

theorem header_code : Code Header := by
  refine ⟨Header.ne_nil, ?_⟩
  intro a b x y ha hb he
  cases ha with
  | byte h v =>
    cases hb with
    | byte h' v' => simp_all
    | int h' => simp_all
    | sized h' => simp_all
  | int h =>
    cases hb with
    | byte h' => simp_all
    | int h' => simp_all
    | sized h' => simp_all
  | sized h hl =>
    cases hb with
    | byte h' => simp_all
    | int h' => simp_all
    | sized h' hl' =>
      simp only [List.cons_append, List.cons.injEq] at he ⊢
      obtain ⟨hi, ha, hb, hv⟩ := he
      rw [ha, hb] at hl
      exact ⟨hi, ha, hb, (List.append_inj hv (by omega)).1⟩

end OpenObex
