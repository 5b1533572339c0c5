import OpenObex.Model.Unicode
import Mathlib.Data.Nat.Find

/-!
# Strings

`OBEX_UnicodeToChar` looks for a zero at the odd offsets of its source and knows no end of it: a name
is decoded within its bytes exactly when it has such a zero (`name_in_bounds_iff`).
`OBEX_CharToUnicode` writes the pairs from the last one back, so that the two strings may share a
block: `halfway n` is that block when `n` characters are left. Its size check is done in `int`; where
that wraps, it lets through a string that does not fit (`char_to_unicode_iff`).
-/

namespace OpenObex

open Mem Prog

variable {m : Memory} {p c uc : Ptr} {B D s : Bytes} {R : Stop → Memory → Prop}

theorem i32_natCast {k : Nat} (h : k < 2147483648) : i32 k = k := by
  unfold i32
  omega

/-- The offset of the low byte of character `n`, and the next index. -/
theorem i32_index {n : Nat} (h : 2 * n + 1 < 2147483648) :
    i32 ((n : Int) * 2 + 1) = ((2 * n + 1 : Nat) : Int) ∧ i32 ((n : Int) + 1) =
      ((n + 1 : Nat) : Int) := by
  unfold i32
  omega

/-! ## Loads and stores -/

theorem wp_block {Q : Bytes → Memory → Prop} (hm : m p = some B) : wp (block p) Q R m ↔ Q B m := by
  rw [block, wp_bind, wp_get, hm]
  exact wp_pure

/-- A load reads a byte of its block, or it is a fault. -/
theorem wp_load {Q : UInt8 → Memory → Prop} {i : Int} (hm : m p = some B) :
    wp (load p i) Q R m ↔ (∀ x, 0 ≤ i → B[i.toNat]? = some x → Q x m) ∧
      (¬ (0 ≤ i ∧ i.toNat < B.length) → R (.fault .outOfBounds) m) := by
  rw [load, wp_bind, wp_block hm]
  by_cases h : 0 ≤ i ∧ i.toNat < B.length
  · rw [dif_pos h, wp_pure]
    constructor
    · intro hq
      refine ⟨fun x _ hx => ?_, fun hn => absurd h hn⟩
      rw [List.getElem?_eq_getElem h.2, Option.some_inj] at hx
      rwa [← hx]
    · intro hq
      exact hq.1 _ h.1 (List.getElem?_eq_getElem h.2)
  · rw [dif_neg h, wp_throw]
    constructor
    · intro hr
      refine ⟨fun x h0 hx => ?_, fun _ => hr⟩
      obtain ⟨hlt, -⟩ := List.getElem?_eq_some_iff.1 hx
      exact absurd ⟨h0, hlt⟩ h
    · intro hq
      exact hq.2 h

theorem wp_load_nat {Q : UInt8 → Memory → Prop} {k : Nat} {x : UInt8} (hm : m p = some B)
    (hx : B[k]? = some x) : wp (load p k) Q R m ↔ Q x m := by
  obtain ⟨hlt, -⟩ := List.getElem?_eq_some_iff.1 hx
  rw [wp_load hm, Int.toNat_natCast]
  constructor
  · intro h
    exact h.1 x (Int.natCast_nonneg k) hx
  · intro hq
    refine ⟨fun y _ hy => ?_, fun hn => absurd ⟨Int.natCast_nonneg k, hlt⟩ hn⟩
    rw [hx, Option.some_inj] at hy
    rwa [← hy]

theorem wp_store_nat {Q : Unit → Memory → Prop} {k : Nat} {x : UInt8} (hm : m p = some B)
    (hk : k < B.length) :
    wp (store p k x) Q R m ↔ Q () (Function.update m p (some (B.set k x))) := by
  rw [store, wp_bind, wp_block hm, Int.toNat_natCast, if_pos ⟨Int.natCast_nonneg k, hk⟩]
  exact wp_modify

/-! ## From Unicode -/

/-- The low bytes of `B` spell `s`, up to the first zero. -/
structure Spells (B s : Bytes) : Prop where
  chars : ∀ j x, s[j]? = some x → B[2 * j + 1]? = some x
  nonzero : ∀ x ∈ s, x ≠ 0
  stop : B[2 * s.length + 1]? = some 0

theorem Spells.char (h : Spells B s) {j : Nat} (hj : j < s.length) :
    ∃ x, x ≠ 0 ∧ s[j]? = some x ∧ B[2 * j + 1]? = some x :=
  ⟨s[j], h.nonzero _ (List.getElem_mem hj), List.getElem?_eq_getElem hj,
    h.chars j _ (List.getElem?_eq_getElem hj)⟩

theorem Spells.length_lt (h : Spells B s) : 2 * s.length + 1 < B.length :=
  (List.getElem?_eq_some_iff.1 h.stop).1

/-- Bytes with a zero at an odd offset spell something. -/
theorem exists_spells (h : ∃ k, B[2 * k + 1]? = some 0) : ∃ s, Spells B s := by
  classical
  have hlow : ∀ j < Nat.find h, ∃ x, x ≠ 0 ∧ B[2 * j + 1]? = some x := by
    intro j hj
    have hlt : 2 * Nat.find h + 1 < B.length := (List.getElem?_eq_some_iff.1 (Nat.find_spec h)).1
    have hx : B[2 * j + 1]? = some B[2 * j + 1] := List.getElem?_eq_getElem (by omega)
    refine ⟨_, fun hz => Nat.find_min h hj ?_, hx⟩
    rw [hx, hz]
  refine ⟨(List.range (Nat.find h)).map fun j => (B[2 * j + 1]?).getD 0, ?_, ?_, ?_⟩
  · intro j x hx
    rw [List.getElem?_map] at hx
    obtain ⟨i, hi, rfl⟩ := Option.map_eq_some_iff.1 hx
    obtain ⟨hlt, rfl⟩ := List.getElem?_eq_some_iff.1 hi
    rw [List.length_range] at hlt
    obtain ⟨y, -, hy⟩ := hlow j hlt
    rw [List.getElem_range, hy]
    rfl
  · intro x hx
    obtain ⟨j, hj, rfl⟩ := List.mem_map.1 hx
    obtain ⟨y, hy0, hy⟩ := hlow j (List.mem_range.1 hj)
    rw [hy]
    exact hy0
  · rw [List.length_map, List.length_range]
    exact Nat.find_spec h

/-- The scan stops at the first zero. -/
theorem wp_scanUnicode {Q : Int → Memory → Prop} (hm : m uc = some B) (hs : Spells B s)
    (hlt : 2 * s.length + 1 < 2147483648) (fuel : Nat) : ∀ n : Nat, n ≤ s.length →
    s.length - n < fuel → (wp (scanUnicode uc fuel n) Q R m ↔ Q s.length m) := by
  induction fuel with
  | zero =>
    intro n _ hfuel
    exact absurd hfuel (Nat.not_lt_zero _)
  | succ fuel ih =>
    intro n hn hfuel
    obtain ⟨hi, hnext⟩ := i32_index (n := n) (by omega)
    rw [scanUnicode, wp_bind, hi]
    by_cases hend : n = s.length
    · rw [hend, wp_load_nat hm hs.stop, if_pos rfl, wp_pure]
    · obtain ⟨x, hx0, -, hx⟩ := hs.char (j := n) (by omega)
      rw [wp_load_nat hm hx, if_neg hx0, hnext]
      exact ih (n + 1) (by omega) (by omega)

/-- Without a zero at an odd offset the scan leaves its block. -/
theorem scanUnicode_faults {Q : Int → Memory → Prop} (hm : m uc = some B)
    (hodd : ∀ k, B[2 * k + 1]? ≠ some 0) (fuel : Nat) :
    ∀ n, ¬ wp (scanUnicode uc fuel n) Q (fun _ _ => False) m := by
  induction fuel with
  | zero =>
    intro n h
    exact h
  | succ fuel ih =>
    intro n h
    rw [scanUnicode, wp_bind, wp_load hm] at h
    obtain ⟨hok, hout⟩ := h
    by_cases hin : 0 ≤ i32 (n * 2 + 1) ∧ (i32 (n * 2 + 1)).toNat < B.length
    · obtain ⟨k, hk⟩ : ∃ k, (i32 (n * 2 + 1)).toNat = 2 * k + 1 := by
        refine ⟨((i32 (n * 2 + 1)).toNat - 1) / 2, ?_⟩
        have h0 := hin.1
        unfold i32 at h0 ⊢
        omega
      have hx := List.getElem?_eq_getElem hin.2
      have hnext := hok _ hin.1 hx
      rw [if_neg] at hnext
      · exact ih _ hnext
      · intro hz
        rw [hz, hk] at hx
        exact hodd k hx
    · exact hout hin

theorem set_drop {a : Bytes} {n : Nat} (ha : a.length = n) (hn : n < D.length) (x : UInt8) :
    (a ++ D.drop n).set n x = a ++ [x] ++ D.drop (n + 1) := by
  rw [List.drop_eq_getElem_cons hn, List.set_append_right _ _ (by omega), ha, Nat.sub_self,
    List.set_cons_zero, List.append_assoc]
  rfl

/-- The copy stops there too. -/
theorem wp_copyChars {Q : Int → Memory → Prop} (hm : m uc = some B) (hs : Spells B s)
    (hlt : 2 * s.length + 1 < 2147483648) (hne : uc ≠ c) (hD : s.length < D.length) (fuel : Nat) :
    ∀ n : Nat, n ≤ s.length → s.length - n < fuel →
    (wp (copyChars c uc fuel n) Q R (Function.update m c (some (s.take n ++ D.drop n))) ↔
      Q s.length (Function.update m c (some (s ++ D.drop s.length)))) := by
  induction fuel with
  | zero =>
    intro n _ hfuel
    exact absurd hfuel (Nat.not_lt_zero _)
  | succ fuel ih =>
    intro n hn hfuel
    obtain ⟨hi, hnext⟩ := i32_index (n := n) (by omega)
    have huc : Function.update m c (some (s.take n ++ D.drop n)) uc = some B := by
      rw [Function.update_of_ne hne, hm]
    rw [copyChars, wp_bind, hi]
    by_cases hend : n = s.length
    · rw [hend] at huc ⊢
      rw [wp_load_nat huc hs.stop, if_pos rfl, wp_pure, List.take_length]
    · obtain ⟨x, hx0, hsx, hx⟩ := hs.char (j := n) (by omega)
      have hlen : (s.take n).length = n := List.length_take_of_le hn
      have hc : Function.update m c (some (s.take n ++ D.drop n)) c = some (s.take n ++ D.drop n) :=
        Function.update_self _ _ _
      have hin : n < (s.take n ++ D.drop n).length := by
        rw [List.length_append, hlen, List.length_drop]
        omega
      have htake : s.take n ++ [x] = s.take (n + 1) := by
        rw [List.take_add_one, hsx]
        rfl
      rw [wp_load_nat huc hx, if_neg hx0, wp_bind, wp_load_nat huc hx, wp_bind, wp_store_nat hc hin,
        Function.update_idem, set_drop hlen (by omega), htake, hnext]
      exact ih (n + 1) (by omega) (by omega)

/-- What is spelled is decoded, with a terminator behind it. -/
theorem wp_unicodeToChar {Q : Int → Memory → Prop} {size : Int} (hm : m uc = some B)
    (hc : m c = some D) (hne : uc ≠ c) (hs : Spells B s) (hlt : 2 * s.length + 1 < 2147483648)
    (hD : s.length < D.length) (hsize : (s.length : Int) < size) :
    wp (obexUnicodeToChar (some c) (some uc) size) Q R m ↔
      Q 0 (Function.update m c (some (s ++ 0 :: D.drop (s.length + 1)))) := by
  have hfuel : s.length - 0 < B.length + 1 := by
    have hlen := hs.length_lt
    omega
  have hstart : Function.update m c (some (s.take 0 ++ D.drop 0)) = m := by
    rw [List.take_zero, List.nil_append, List.drop_zero, ← hc, Function.update_eq_self]
  have hscan := wp_scanUnicode (R := R) (Q := fun n m' => wp (if n < size then do
      let n ← copyChars c uc (B.length + 1) 0
      store c n 0
      pure 0
    else pure (-1)) Q R m') hm hs hlt (B.length + 1) 0 (Nat.zero_le _) hfuel
  have hcopy := wp_copyChars (R := R) (Q := fun n m' => wp (do
      store c n 0
      pure 0) Q R m') hm hs hlt hne hD (B.length + 1) 0 (Nat.zero_le _) hfuel
  rw [hstart] at hcopy
  have hend : Function.update m c (some (s ++ D.drop s.length)) c = some (s ++ D.drop s.length) :=
    Function.update_self _ _ _
  have hin : s.length < (s ++ D.drop s.length).length := by
    rw [List.length_append, List.length_drop]
    omega
  rw [obexUnicodeToChar, wp_bind, wp_block hm, wp_bind]
  refine hscan.trans ?_
  rw [if_pos hsize, wp_bind]
  refine hcopy.trans ?_
  rw [wp_bind, wp_store_nat hend hin, wp_pure, Function.update_idem, set_drop rfl hD,
    List.append_assoc]
  rfl

/-! ## Names -/

/-- The name is decoded with reads from the value and writes to the new block only, and the new block
then holds a terminated string. -/
def InBounds (malloc : Nat → Bool) (name : Ptr) (junk : Bytes) (bs : Ptr) (hlen : Nat) (m : Memory) :
    Prop :=
  wp (receiveName malloc name junk bs hlen) (fun r m' => match r with
    | none => m' = m
    | some p => p = name ∧ ∃ s rest, (∀ x ∈ s, x ≠ 0) ∧ (s ++ 0 :: rest).length = hlen / 2 ∧
        m' = Function.update m p (some (s ++ 0 :: rest)))
    (fun _ _ => False) m

theorem inBounds_of_zero {malloc : Nat → Bool} {name : Ptr} {junk : Bytes} {bs : Ptr}
    (hm : m bs = some B) (hne : bs ≠ name) (hlen : B.length + 3 < 65536)
    (hjunk : junk.length = B.length / 2) (hz : ∃ k, B[2 * k + 1]? = some 0) :
    InBounds malloc name junk bs B.length m := by
  unfold InBounds receiveName
  by_cases hmalloc : malloc (B.length / 2) = true
  · obtain ⟨s, hs⟩ := exists_spells hz
    have hlt := hs.length_lt
    have hroom : s.length < junk.length := by omega
    have hbs : Function.update m name (some junk) bs = some B := by
      rw [Function.update_of_ne hne, hm]
    have hname : Function.update m name (some junk) name = some junk := Function.update_self _ _ _
    rw [if_pos hmalloc, wp_bind, wp_modify, wp_bind,
      wp_unicodeToChar hbs hname hne hs (by omega) hroom (by rw [i32_natCast (by omega)]; omega),
      wp_pure, Function.update_idem]
    refine ⟨rfl, s, junk.drop (s.length + 1), hs.nonzero, ?_, rfl⟩
    rw [List.length_append, List.length_cons, List.length_drop]
    omega
  · rw [if_neg hmalloc, wp_pure]

theorem zero_of_inBounds {malloc : Nat → Bool} {name : Ptr} {junk : Bytes} {bs : Ptr}
    (hm : m bs = some B) (hne : bs ≠ name) (hmalloc : malloc (B.length / 2) = true)
    (h : InBounds malloc name junk bs B.length m) : ∃ k, B[2 * k + 1]? = some 0 := by
  by_contra hno
  have hodd : ∀ k, B[2 * k + 1]? ≠ some 0 := fun k hk => hno ⟨k, hk⟩
  have hbs : Function.update m name (some junk) bs = some B := by
    rw [Function.update_of_ne hne, hm]
  unfold InBounds receiveName at h
  rw [if_pos hmalloc, wp_bind, wp_modify, wp_bind, obexUnicodeToChar, wp_bind, wp_block hbs,
    wp_bind] at h
  exact scanUnicode_faults hbs hodd _ 0 h

/-- A name is decoded within its bytes exactly when one of its odd offsets holds a zero (or there is
no memory for it). -/
theorem name_in_bounds_iff (malloc : Nat → Bool) (name bs : Ptr) (junk value : Bytes) (m : Memory)
    (hm : m bs = some value) (hne : bs ≠ name) (hlen : value.length + 3 < 65536)
    (hjunk : junk.length = value.length / 2) :
    InBounds malloc name junk bs value.length m ↔
      (malloc (value.length / 2) = true → ∃ k, 2 * k + 1 < value.length ∧ value[2 * k + 1]? =
        some 0) := by
  constructor
  · intro h hmalloc
    obtain ⟨k, hk⟩ := zero_of_inBounds hm hne hmalloc h
    obtain ⟨hlt, -⟩ := List.getElem?_eq_some_iff.1 hk
    exact ⟨k, hlt, hk⟩
  · intro h
    by_cases hmalloc : malloc (value.length / 2) = true
    · obtain ⟨k, -, hk⟩ := h hmalloc
      exact inBounds_of_zero hm hne hlen hjunk ⟨k, hk⟩
    · unfold InBounds receiveName
      rw [if_neg hmalloc, wp_pure]

/-- A memory with one block. -/
def oneBlock (p : Ptr) (b : Bytes) : Memory := Function.update (fun _ => none) p (some b)

theorem name_in_bounds_iff_a :
    InBounds (fun _ => true) 1 [7, 7] 0 4 (oneBlock 0 [0, 97, 0, 0]) ↔
      ((fun _ => true) (4 / 2) = true →
        ∃ k, 2 * k + 1 < 4 ∧ ([0, 97, 0, 0] : Bytes)[2 * k + 1]? = some 0) :=
  name_in_bounds_iff (fun _ => true) 1 0 [7, 7] [0, 97, 0, 0] (oneBlock 0 [0, 97, 0, 0]) rfl (by decide)
    (by decide) rfl

/-- A name without a terminator. -/
theorem unterminated_not_inBounds : ¬ ∀ (malloc : Nat → Bool) (name bs : Ptr) (junk value : Bytes)
    (m : Memory), m bs = some value → bs ≠ name → value.length + 3 < 65536 →
    junk.length = value.length / 2 → InBounds malloc name junk bs value.length m := by
  intro h
  have hin := h (fun _ => true) 1 0 [7] [0, 97] (oneBlock 0 [0, 97]) rfl (by decide) (by decide) rfl
  obtain ⟨k, hk⟩ := zero_of_inBounds rfl (by decide) rfl hin
  obtain ⟨hlt, -⟩ := List.getElem?_eq_some_iff.1 hk
  have h0 : k = 0 := by
    rw [List.length_cons, List.length_cons, List.length_nil] at hlt
    omega
  rw [h0] at hk
  cases hk

/-! ## To Unicode -/

/-- Each byte as a big-endian pair. -/
def wide (s : Bytes) : Bytes := s.flatMap fun x => [0, x]

theorem wide_cons (x : UInt8) (s : Bytes) : wide (x :: s) = 0 :: x :: wide s := rfl

theorem length_wide (s : Bytes) : (wide s).length = 2 * s.length := by
  induction s with
  | nil => rfl
  | cons x s ih =>
    rw [wide_cons, List.length_cons, List.length_cons, List.length_cons, ih]
    omega

theorem getElem_wide (s rest : Bytes) (j : Nat) (x : UInt8) (h : s[j]? = some x) :
    (wide s ++ rest)[2 * j + 1]? = some x := by
  induction s generalizing j with
  | nil => cases h
  | cons y s ih =>
    cases j with
    | zero => exact h
    | succ j => exact ih j h

theorem spells_wide (hz : ∀ x ∈ s, x ≠ 0) (rest : Bytes) : Spells (wide s ++ 0 :: 0 :: rest) s := by
  refine ⟨fun j x hx => getElem_wide s _ j x hx, hz, ?_⟩
  rw [List.getElem?_append_right (by rw [length_wide]; omega), length_wide, Nat.add_sub_cancel_left]
  rfl

theorem wp_strlen {Q : Nat → Memory → Prop} {rest : Bytes} (hc : m c = some (s ++ 0 :: rest))
    (hz : ∀ x ∈ s, x ≠ 0) (fuel : Nat) : ∀ n : Nat, n ≤ s.length → s.length - n < fuel →
    (wp (strlen c fuel n) Q R m ↔ Q s.length m) := by
  induction fuel with
  | zero =>
    intro n _ hfuel
    exact absurd hfuel (Nat.not_lt_zero _)
  | succ fuel ih =>
    intro n hn hfuel
    rw [strlen, wp_bind]
    by_cases hend : n = s.length
    · have hx : (s ++ 0 :: rest)[n]? = some 0 := by
        rw [hend, List.getElem?_append_right (Nat.le_refl _), Nat.sub_self]
        rfl
      rw [wp_load_nat hc hx, if_pos rfl, wp_pure, hend]
    · have hlt : n < s.length := by omega
      have hx : (s ++ 0 :: rest)[n]? = some s[n] := by
        rw [List.getElem?_append_left hlt, List.getElem?_eq_getElem hlt]
      rw [wp_load_nat hc hx, if_neg (hz _ (List.getElem_mem hlt))]
      exact ih (n + 1) (by omega) (by omega)

/-- The destination when `n` characters are left: its first `2 n` bytes are still the old ones. -/
def halfway (B s : Bytes) (n : Nat) : Bytes :=
  B.take (2 * n) ++ (wide (s.drop n) ++ 0 :: 0 :: B.drop (2 * s.length + 2))

/-- A pair is stored behind the bytes that are still the old ones. -/
theorem set_pair {n : Nat} (h : 2 * n + 2 ≤ B.length) (t : Bytes) (x : UInt8) :
    ((B.take (2 * n + 2) ++ t).set (2 * n + 1) x).set (2 * n) 0 = B.take (2 * n) ++ 0 :: x :: t := by
  have hlen : (B.take (2 * n)).length = 2 * n := List.length_take_of_le (by omega)
  have htake : B.take (2 * n + 2) = B.take (2 * n) ++ [B[2 * n], B[2 * n + 1]] := by
    rw [List.take_add_one, List.take_add_one, List.getElem?_eq_getElem (by omega),
      List.getElem?_eq_getElem (by omega), List.append_assoc]
    rfl
  rw [htake, List.append_assoc, List.set_append_right _ _ (by omega), hlen,
    List.set_append_right _ _ (by omega), hlen, Nat.add_sub_cancel_left, Nat.sub_self]
  rfl

theorem halfway_step {n : Nat} (hn : n < s.length) (h : 2 * s.length + 2 ≤ B.length) :
    ((halfway B s (n + 1)).set (2 * n + 1) s[n]).set (2 * n) 0 = halfway B s n := by
  unfold halfway
  have hdrop : s.drop n = s[n] :: s.drop (n + 1) := List.drop_eq_getElem_cons hn
  have hindex : 2 * (n + 1) = 2 * n + 2 := by omega
  rw [hindex, set_pair (by omega), hdrop, wide_cons]
  rfl

/-- The first character that is left is still in place, be the source the destination or another
block. -/
theorem source_left {rest : Bytes} {n : Nat} (hc : m c = some (s ++ 0 :: rest)) (huc : m uc = some B)
    (hn : n < s.length) (h : 2 * s.length + 2 ≤ B.length) :
    ∃ X, Function.update m uc (some (halfway B s (n + 1))) c = some X ∧ X[n]? = some s[n] := by
  have hx : (s ++ 0 :: rest)[n]? = some s[n] := by
    rw [List.getElem?_append_left hn, List.getElem?_eq_getElem hn]
  by_cases heq : c = uc
  · refine ⟨_, by rw [heq, Function.update_self], ?_⟩
    rw [heq, huc, Option.some_inj] at hc
    unfold halfway
    rw [List.getElem?_append_left (by rw [List.length_take]; omega),
      List.getElem?_take_of_lt (by omega), hc, hx]
  · exact ⟨_, by rw [Function.update_of_ne heq, hc], hx⟩

/-- The loop, from the last pair back to the first. -/
theorem wp_storePairs {Q : Unit → Memory → Prop} {rest : Bytes} (hc : m c = some (s ++ 0 :: rest))
    (huc : m uc = some B) (h : 2 * s.length + 2 ≤ B.length) (hlt : 2 * s.length + 2 < 2147483648)
    (fuel : Nat) : ∀ n : Nat, n ≤ s.length → n < fuel →
    (wp (storePairs uc c fuel n) Q R (Function.update m uc (some (halfway B s n))) ↔
      Q () (Function.update m uc (some (halfway B s 0)))) := by
  induction fuel with
  | zero =>
    intro n _ hfuel
    exact absurd hfuel (Nat.not_lt_zero _)
  | succ fuel ih =>
    intro n hn hfuel
    rw [storePairs]
    cases n with
    | zero =>
      have h0 : ((0 : Nat) : Int) = 0 := rfl
      rw [if_pos h0, wp_pure]
    | succ n =>
      have hprev : i32 (((n + 1 : Nat) : Int) - 1) = n := by
        unfold i32
        omega
      obtain ⟨hodd, -⟩ := i32_index (n := n) (by omega)
      have heven : i32 ((n : Int) * 2) = ((2 * n : Nat) : Int) := by
        unfold i32
        omega
      obtain ⟨X, hX, hx⟩ := source_left hc huc hn h
      have hlen : (halfway B s (n + 1)).length = B.length := by
        unfold halfway
        rw [List.length_append, List.length_append, List.length_cons, List.length_cons, length_wide,
          List.length_take, List.length_drop, List.length_drop]
        omega
      have hself : Function.update m uc (some (halfway B s (n + 1))) uc =
          some (halfway B s (n + 1)) := Function.update_self _ _ _
      rw [if_neg (by omega)]
      dsimp only
      rw [hprev, wp_bind, wp_load_nat hX hx, wp_bind, hodd, wp_store_nat hself (by omega),
        Function.update_idem, wp_bind, heven, wp_store_nat (Function.update_self _ _ _)
          (by rw [List.length_set]; omega), Function.update_idem, halfway_step hn h]
      exact ih n (by omega) (by omega)

/-- `OBEX_CharToUnicode` from the length of its source on. -/
theorem wp_charToUnicode {Q : Int → Memory → Prop} {rest : Bytes} {size : Int}
    (hc : m c = some (s ++ 0 :: rest)) (hz : ∀ x ∈ s, x ≠ 0) :
    wp (obexCharToUnicode (some uc) (some c) size) Q R m ↔
      if i32 (i32 s.length * 2 + 2) ≤ size then wp (do
        store uc (i32 (i32 s.length * 2 + 1)) 0
        store uc (i32 (i32 s.length * 2)) 0
        storePairs uc c (u32 (i32 s.length) + 1) (i32 s.length)
        pure (i32 (i32 s.length * 2 + 2))) Q R m
      else Q (-1) m := by
  have hfuel : s.length - 0 < (s ++ 0 :: rest).length + 1 := by
    rw [List.length_append]
    omega
  rw [obexCharToUnicode, wp_bind, wp_block hc, wp_bind, wp_strlen hc hz _ 0 (Nat.zero_le _) hfuel]
  by_cases hsize : i32 (i32 s.length * 2 + 2) ≤ size
  · rw [if_pos hsize, if_pos hsize]
  · rw [if_neg hsize, if_neg hsize, wp_pure]

/-- Where the size check does not wrap, a string that fits is converted. -/
theorem wp_charToUnicode_fits {Q : Int → Memory → Prop} {rest : Bytes} {size : Int}
    (hc : m c = some (s ++ 0 :: rest)) (hz : ∀ x ∈ s, x ≠ 0) (huc : m uc = some B)
    (hB : size ≤ B.length) (hint : size < 2147483648) (hsize : 2 * (s.length : Int) + 2 ≤ size) :
    wp (obexCharToUnicode (some uc) (some c) size) Q R m ↔ Q (2 * s.length + 2)
      (Function.update m uc (some (wide s ++ 0 :: 0 :: B.drop (2 * s.length + 2)))) := by
  have hlen : i32 s.length = s.length := i32_natCast (by omega)
  have hret : i32 ((s.length : Int) * 2 + 2) = 2 * s.length + 2 := by
    unfold i32
    omega
  obtain ⟨hodd, -⟩ := i32_index (n := s.length) (by omega)
  have heven : i32 ((s.length : Int) * 2) = ((2 * s.length : Nat) : Int) := by
    unfold i32
    omega
  have hfuel : s.length < u32 s.length + 1 := by
    unfold u32
    omega
  -- the terminator is stored first, with nothing of the source read yet
  have hstart : ((B.set (2 * s.length + 1) 0).set (2 * s.length) 0) = halfway B s s.length := by
    have hpair := set_pair (B := B) (n := s.length) (by omega) (B.drop (2 * s.length + 2)) 0
    rw [List.take_append_drop] at hpair
    rw [hpair, halfway, List.drop_length]
    rfl
  have hdone : halfway B s 0 = wide s ++ 0 :: 0 :: B.drop (2 * s.length + 2) := by
    rw [halfway, Nat.mul_zero, List.take_zero, List.nil_append, List.drop_zero]
  have hloop := wp_storePairs (R := R)
    (Q := fun _ m' => wp (pure (2 * (s.length : Int) + 2)) Q R m') hc huc (by omega) (by omega)
    (u32 s.length + 1) s.length (Nat.le_refl _) hfuel
  rw [wp_charToUnicode hc hz, hlen, hret, if_pos hsize, wp_bind, hodd, wp_store_nat huc (by omega),
    wp_bind, heven, wp_store_nat (Function.update_self _ _ _) (by rw [List.length_set]; omega),
    Function.update_idem, hstart, wp_bind]
  refine hloop.trans ?_
  rw [wp_pure, hdone]

/-- A string that fits is encoded, nothing else is changed, and decoding gives it back; for one that
does not fit nothing is written. `B` is the destination, which may be the block of the string. -/
def Converts (uc c : Ptr) (s B : Bytes) (size : Int) (m : Memory) : Prop :=
  (2 * (s.length : Int) + 2 ≤ size →
    wp (obexCharToUnicode (some uc) (some c) size) (fun r m' => r = 2 * s.length + 2 ∧
      m' = Function.update m uc (some (wide s ++ 0 :: 0 :: B.drop (2 * s.length + 2))) ∧
      ∀ d D (size' : Int), d ≠ uc → m' d = some D → s.length < size' → size' ≤ D.length →
        wp (obexUnicodeToChar (some d) (some uc) size') (fun r m'' => r = 0 ∧
          m'' = Function.update m' d (some (s ++ 0 :: D.drop (s.length + 1)))) (fun _ _ => False) m')
      (fun _ _ => False) m) ∧
  (size < 2 * (s.length : Int) + 2 →
    wp (obexCharToUnicode (some uc) (some c) size) (fun r m' => r = -1 ∧ m' = m)
      (fun _ _ => False) m)

theorem converts_of_fits {rest : Bytes} {size : Int} (hc : m c = some (s ++ 0 :: rest))
    (hz : ∀ x ∈ s, x ≠ 0) (huc : m uc = some B) (hB : size ≤ B.length) (hint : size < 2147483648)
    (hsize : 2 * (s.length : Int) + 2 ≤ size) : Converts uc c s B size m := by
  refine ⟨fun _ => ?_, fun hlt => absurd hsize (by omega)⟩
  rw [wp_charToUnicode_fits hc hz huc hB hint hsize]
  refine ⟨rfl, rfl, fun d D size' hne hd hlt hD => ?_⟩
  rw [wp_unicodeToChar (Function.update_self _ _ _) hd hne.symm (spells_wide hz _) (by omega)
    (by omega) hlt]
  exact ⟨rfl, rfl⟩

/-- The size check in `int`. -/
theorem i32_double (n : Nat) : i32 (i32 n * 2 + 2) = i32 (2 * n + 2) := by
  unfold i32
  omega

theorem converts_of_refused {rest : Bytes} {size : Int} (hc : m c = some (s ++ 0 :: rest))
    (hz : ∀ x ∈ s, x ≠ 0) (hint : -2147483648 ≤ size ∧ size < 2147483648)
    (hsize : size < i32 (2 * s.length + 2)) : Converts uc c s B size m := by
  refine ⟨fun hfits => ?_, fun _ => ?_⟩
  · unfold i32 at hsize
    omega
  · rw [wp_charToUnicode hc hz, i32_double, if_neg (by omega)]
    exact ⟨rfl, rfl⟩

/-- A check that wraps lets a string through that does not fit. -/
theorem not_converts {rest : Bytes} {size : Int} (hc : m c = some (s ++ 0 :: rest))
    (hz : ∀ x ∈ s, x ≠ 0) (hlong : size < 2 * (s.length : Int) + 2)
    (hwrap : i32 (2 * s.length + 2) ≤ size) : ¬ Converts uc c s B size m := by
  intro h
  have hrun := h.2 hlong
  rw [wp_charToUnicode hc hz, i32_double, if_pos hwrap] at hrun
  have heven : i32 (2 * s.length + 2) ≠ -1 := by
    unfold i32
    omega
  -- whatever the stores do, the value returned is not −1
  have hret (i j n r : Int) (fuel : Nat) (hr : r ≠ -1) : wp (do
      store uc i 0
      store uc j 0
      storePairs uc c fuel n
      pure r) (fun r _ => r ≠ -1) (fun _ _ => True) m := by
    refine wp_seq (P := fun _ _ => True) wp_true fun _ _ _ => ?_
    refine wp_seq (P := fun _ _ => True) wp_true fun _ _ _ => ?_
    refine wp_seq (P := fun _ _ => True) wp_true fun _ _ _ => ?_
    rw [wp_pure]
    exact hr
  have hboth := wp_and hrun (hret _ _ _ _ _ heven)
  exact not_wp_false (wp_mono hboth (fun r _ hr => hr.2 hr.1.1) fun _ _ he => he.1)

/-- `OBEX_CharToUnicode` converts as it should exactly when the string fits or its size check, in
`int`, refuses it. -/
theorem char_to_unicode_iff (uc c : Ptr) (s rest B : Bytes) (size : Int) (m : Memory)
    (hc : m c = some (s ++ 0 :: rest)) (hz : ∀ x ∈ s, x ≠ 0) (huc : m uc = some B)
    (hB : size ≤ B.length) (hint : -2147483648 ≤ size ∧ size < 2147483648) :
    Converts uc c s B size m ↔
      2 * (s.length : Int) + 2 ≤ size ∨ size < i32 (2 * s.length + 2) := by
  constructor
  · intro h
    by_cases hlong : size < 2 * (s.length : Int) + 2
    · right
      by_contra hwrap
      exact not_converts hc hz hlong (by omega) h
    · left
      omega
  · intro h
    cases h with
    | inl hfits => exact converts_of_fits hc hz huc hB hint.2 hfits
    | inr hrefused => exact converts_of_refused hc hz hint hrefused

/-- In place. -/
theorem char_to_unicode_iff_ab :
    Converts 0 0 [97, 98] [97, 98, 0, 0, 0, 0, 9] 6 (oneBlock 0 [97, 98, 0, 0, 0, 0, 9]) ↔
      2 * ((2 : Nat) : Int) + 2 ≤ 6 ∨ (6 : Int) < i32 (2 * (2 : Nat) + 2) :=
  char_to_unicode_iff 0 0 [97, 98] [0, 0, 0, 9] [97, 98, 0, 0, 0, 0, 9] 6
    (oneBlock 0 [97, 98, 0, 0, 0, 0, 9]) rfl (by simp) rfl (by decide) (by decide)

theorem exists_string (n : Nat) : ∃ s : Bytes, s.length = n ∧ ∀ x ∈ s, x ≠ 0 := by
  refine ⟨List.replicate n 97, List.length_replicate, fun x hx => ?_⟩
  rw [List.eq_of_mem_replicate hx]
  decide

/-- A string of `2 ^ 30 - 1` bytes passes every size check. -/
theorem long_not_converted : ¬ ∀ (uc c : Ptr) (s rest B : Bytes) (size : Int) (m : Memory),
    m c = some (s ++ 0 :: rest) → (∀ x ∈ s, x ≠ 0) → m uc = some B → size ≤ B.length →
    -2147483648 ≤ size ∧ size < 2147483648 → Converts uc c s B size m := by
  intro h
  obtain ⟨s, hlen, hz⟩ := exists_string 1073741823
  have hc : (oneBlock 0 (s ++ 0 :: [])) 0 = some (s ++ 0 :: []) := Function.update_self _ _ _
  have hconv := h 0 0 s [] (s ++ 0 :: []) 0 _ hc hz hc (Int.natCast_nonneg _) (by decide)
  refine not_converts hc hz ?_ ?_ hconv
  · omega
  · rw [hlen]
    decide

end OpenObex
