import Mathlib.Data.List.Basic

/-!
# Memory blocks

A block of memory is a list of bytes, an address in it an offset. `slice` reads a range, `write`
stores into one, `move` is `memmove`. `be16` and `be32` are the big-endian encodings. Every fact
about a buffer's bytes reduces to the lemmas on `slice` and `write` here.
-/

namespace Mem

abbrev Bytes := List UInt8

/-- The `n` bytes at offset `off`, fewer where the block ends before. -/
def slice (m : Bytes) (off n : Nat) : Bytes := (m.drop off).take n

/-- The block with the bytes `d` stored at offset `off`. -/
def write (m : Bytes) (off : Nat) (d : Bytes) : Bytes := m.take off ++ d ++ m.drop (off + d.length)

/-- `memmove` inside a block. -/
def move (m : Bytes) (dst src n : Nat) : Bytes := write m dst (slice m src n)

/-! ## Slices -/

theorem length_slice {m : Bytes} {off n : Nat} (h : off + n ≤ m.length) :
    (slice m off n).length = n := by
  simp only [slice, List.length_take, List.length_drop]
  omega

@[simp] theorem slice_zero (m : Bytes) (off : Nat) : slice m off 0 = [] := by simp [slice]

theorem slice_append_left {a b : Bytes} {off n : Nat} (h : off + n ≤ a.length) :
    slice (a ++ b) off n = slice a off n := by
  unfold slice
  rw [List.drop_append_of_le_length (by omega), List.take_append_of_le_length]
  simp only [List.length_drop]
  omega

/-- A range is the one in front followed by the one behind. -/
theorem slice_add (m : Bytes) (off n k : Nat) :
    slice m off (n + k) = slice m off n ++ slice m (off + n) k := by
  simp only [slice, List.take_add, List.drop_drop]

theorem take_slice (m : Bytes) (off n k : Nat) :
    (slice m off n).take k = slice m off (min k n) := by
  simp only [slice, List.take_take]

theorem drop_slice (m : Bytes) (off n k : Nat) :
    (slice m off n).drop k = slice m (off + k) (n - k) := by
  simp only [slice, List.drop_take, List.drop_drop]

theorem slice_take {m : Bytes} {off n k : Nat} (h : off + n ≤ k) :
    slice (m.take k) off n = slice m off n := by
  simp only [slice, List.drop_take, List.take_take]
  rw [Nat.min_eq_left (by omega)]

theorem slice_one {m : Bytes} {off : Nat} (h : off < m.length) : slice m off 1 = [m[off]] := by
  unfold slice
  rw [List.drop_eq_getElem_cons h]
  rfl

/-! ## Stores -/

theorem length_write {m d : Bytes} {off : Nat} (h : off + d.length ≤ m.length) :
    (write m off d).length = m.length := by
  simp only [write, List.length_append, List.length_take, List.length_drop]
  omega

theorem length_move {m : Bytes} {dst src n : Nat} (hs : src + n ≤ m.length)
    (hd : dst + n ≤ m.length) : (move m dst src n).length = m.length :=
  length_write (by rw [length_slice hs]; exact hd)

theorem slice_write_same {m d : Bytes} {off : Nat} (h : off ≤ m.length) :
    slice (write m off d) off d.length = d := by
  unfold slice write
  rw [List.append_assoc, List.drop_append_of_le_length (by simp; omega),
    List.drop_of_length_le (List.length_take_le _ _), List.nil_append, List.take_left]

/-- A store does not change what lies in front of it. -/
theorem slice_write_before {m d : Bytes} {off o n : Nat} (h : o + n ≤ off) (hm : off ≤ m.length) :
    slice (write m off d) o n = slice m o n := by
  unfold write
  rw [List.append_assoc, slice_append_left (by simp; omega), slice_take h]

theorem drop_write_after {m d : Bytes} {off o : Nat} (h : off + d.length ≤ o)
    (hm : off ≤ m.length) : (write m off d).drop o = m.drop o := by
  unfold write
  rw [List.append_assoc, List.drop_append, List.drop_append, List.drop_of_length_le (by simp; omega),
    List.drop_of_length_le (by simp; omega), List.nil_append, List.nil_append, List.drop_drop]
  congr 1
  simp only [List.length_take]
  omega

theorem slice_write_after {m d : Bytes} {off o n : Nat} (h : off + d.length ≤ o)
    (hm : off ≤ m.length) : slice (write m off d) o n = slice m o n := by
  unfold slice
  rw [drop_write_after h hm]

theorem slice_move {m : Bytes} {dst src n : Nat} (hs : src + n ≤ m.length) (hd : dst ≤ m.length) :
    slice (move m dst src n) dst n = slice m src n := by
  have := slice_write_same (m := m) (d := slice m src n) hd
  rwa [length_slice hs] at this

/-! ## Big-endian numbers -/

/-- The two bytes of `n` in network byte order, `n` taken modulo `2 ^ 16`. -/
def be16 (n : Nat) : Bytes := [UInt8.ofNat (n / 256), UInt8.ofNat n]

/-- The four bytes of `n` in network byte order, `n` taken modulo `2 ^ 32`. -/
def be32 (n : Nat) : Bytes :=
  [UInt8.ofNat (n / 16777216), UInt8.ofNat (n / 65536), UInt8.ofNat (n / 256), UInt8.ofNat n]

def ofBe16 (a b : UInt8) : Nat := a.toNat * 256 + b.toNat

def ofBe32 (a b c d : UInt8) : Nat :=
  a.toNat * 16777216 + b.toNat * 65536 + c.toNat * 256 + d.toNat

@[simp] theorem length_be16 (n : Nat) : (be16 n).length = 2 := rfl

@[simp] theorem length_be32 (n : Nat) : (be32 n).length = 4 := rfl

theorem ofBe16_lt (a b : UInt8) : ofBe16 a b < 65536 := by
  have ha := a.toNat_lt
  have hb := b.toNat_lt
  unfold ofBe16
  omega

theorem ofBe32_lt (a b c d : UInt8) : ofBe32 a b c d < 4294967296 := by
  have ha := a.toNat_lt
  have hb := b.toNat_lt
  have hc := c.toNat_lt
  have hd := d.toNat_lt
  unfold ofBe32
  omega

theorem ofBe16_be16 (n : Nat) :
    ofBe16 (UInt8.ofNat (n / 256)) (UInt8.ofNat n) = n % 65536 := by
  simp only [ofBe16, UInt8.toNat_ofNat']
  omega

theorem ofBe32_be32 (n : Nat) :
    ofBe32 (UInt8.ofNat (n / 16777216)) (UInt8.ofNat (n / 65536)) (UInt8.ofNat (n / 256))
      (UInt8.ofNat n) = n % 4294967296 := by
  simp only [ofBe32, UInt8.toNat_ofNat']
  omega

theorem be16_ofBe16 (a b : UInt8) : be16 (ofBe16 a b) = [a, b] := by
  have ha := a.toNat_lt
  have hb := b.toNat_lt
  have h1 : UInt8.ofNat (ofBe16 a b / 256) = a := by
    rw [← UInt8.toNat_inj, UInt8.toNat_ofNat', ofBe16]
    omega
  have h2 : UInt8.ofNat (ofBe16 a b) = b := by
    rw [← UInt8.toNat_inj, UInt8.toNat_ofNat', ofBe16]
    omega
  rw [be16, h1, h2]

theorem be32_ofBe32 (a b c d : UInt8) : be32 (ofBe32 a b c d) = [a, b, c, d] := by
  have ha := a.toNat_lt
  have hb := b.toNat_lt
  have hc := c.toNat_lt
  have hd := d.toNat_lt
  have h1 : UInt8.ofNat (ofBe32 a b c d / 16777216) = a := by
    rw [← UInt8.toNat_inj, UInt8.toNat_ofNat', ofBe32]
    omega
  have h2 : UInt8.ofNat (ofBe32 a b c d / 65536) = b := by
    rw [← UInt8.toNat_inj, UInt8.toNat_ofNat', ofBe32]
    omega
  have h3 : UInt8.ofNat (ofBe32 a b c d / 256) = c := by
    rw [← UInt8.toNat_inj, UInt8.toNat_ofNat', ofBe32]
    omega
  have h4 : UInt8.ofNat (ofBe32 a b c d) = d := by
    rw [← UInt8.toNat_inj, UInt8.toNat_ofNat', ofBe32]
    omega
  rw [be32, h1, h2, h3, h4]

end Mem
