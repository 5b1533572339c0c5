import OpenObex.Lib.Mem

/-!
# Lists and buffers (`databuffer.c`)

`slist_t` is a list whose nodes hold pointers to their elements; an element here carries its
address, and `slistRemove` drops every node with the element's address.

`Buf` is `buf_t`: one allocation split into the free space in front of the data (`headAvail`), the
data (`dataSize`) and the free space behind (`dataAvail` and `tailAvail`, with no boundary in
memory between the two). The `data` pointer and the sum of the four counters are fields of the
structure, so every function below carries the proof that it keeps them. Sizes are natural numbers:
`size_t` sums do not wrap.

`malloc n` tells whether the C library grants a block of `n` bytes; shrinking a block always
succeeds. Fresh bytes are zero.
-/

namespace OpenObex

open Mem

/-! ## Lists -/

/-- An element that knows its address. -/
class Addressed (α : Type) where
  addr : α → Nat

export Addressed (addr)

section
variable {α : Type} [Addressed α]

def slistAppend (list : List α) (element : α) : List α := list ++ [element]

def slistRemove (list : List α) (element : α) : List α :=
  list.filter fun e => addr e ≠ addr element

/-- No two nodes hold the same element. -/
def Distinct (list : List α) : Prop := (list.map addr).Nodup

end

/-! ## Buffers -/

structure Buf where
  buffer : Bytes
  data : Nat
  headAvail : Nat
  dataAvail : Nat
  tailAvail : Nat
  dataSize : Nat
  data_eq : data = headAvail
  size_eq : headAvail + dataAvail + tailAvail + dataSize = buffer.length

namespace Buf

/-- The valid data. -/
def contents (p : Buf) : Bytes := slice p.buffer p.data p.dataSize

/-- What the allocation holds behind the valid data. -/
def behind (p : Buf) : Bytes := p.buffer.drop (p.data + p.dataSize)

theorem end_le (p : Buf) : p.data + p.dataSize ≤ p.buffer.length := by
  have h1 := p.data_eq
  have h2 := p.size_eq
  omega

end Buf

/-- A new buffer of `n` bytes. -/
def freshBuf (n : Nat) : Buf :=
  { buffer := List.replicate n 0, data := 0, headAvail := 0, dataAvail := n, tailAvail := 0
    dataSize := 0, data_eq := rfl, size_eq := by simp }

def bufNew (malloc : Nat → Bool) (defaultSize : Nat) : Option Buf :=
  if malloc defaultSize then some (freshBuf defaultSize) else none

def bufTotalSize (p : Buf) : Nat := p.headAvail + p.dataAvail + p.tailAvail + p.dataSize

/-- Shrinking takes from `dataAvail`, then `tailAvail`, then `headAvail` (the data moves down),
then from the end of the data: each truncated subtraction is the two branches of one `if`. -/
def bufResize (malloc : Nat → Bool) (p : Buf) (newSize : Nat) : Buf :=
  let bSize := bufTotalSize p
  if h : newSize < bSize then
    let itRem := bSize - newSize
    let itRem₁ := itRem - p.dataAvail
    let itRem₂ := itRem₁ - p.tailAvail
    let headAvail := p.headAvail - itRem₂
    let itRem₃ := itRem₂ - p.headAvail
    { buffer := (move p.buffer headAvail p.data p.dataSize).take newSize
      data := headAvail, headAvail
      dataAvail := p.dataAvail - itRem
      tailAvail := p.tailAvail - itRem₁
      dataSize := p.dataSize - itRem₃
      data_eq := rfl
      size_eq := by
        have h1 := p.size_eq
        have h2 := p.data_eq
        have h3 : headAvail ≤ p.headAvail := Nat.sub_le _ _
        rw [List.length_take, length_move (by omega) (by omega)]
        simp only [bufTotalSize, bSize, itRem, itRem₁, itRem₂, itRem₃, headAvail] at h h3 ⊢
        omega }
  else if malloc newSize then
    { p with
      buffer := p.buffer ++ List.replicate (newSize - bSize) 0
      dataAvail := p.dataAvail + (newSize - bSize)
      size_eq := by
        have h1 := p.size_eq
        simp only [List.length_append, List.length_replicate]
        omega }
  else p

def bufReuse (p : Buf) : Buf :=
  { buffer := p.buffer, data := 0, headAvail := 0, dataAvail := bufTotalSize p, tailAvail := 0
    dataSize := 0, data_eq := rfl
    size_eq := by
      have h := p.size_eq
      simp only [bufTotalSize]
      omega }

theorem bufResize_eq_of_le {malloc : Nat → Bool} {p : Buf} {n : Nat} (h : bufTotalSize p ≤ n) :
    bufResize malloc p n = p ∨
      ((bufResize malloc p n).buffer = p.buffer ++ List.replicate (n - bufTotalSize p) 0 ∧
        (bufResize malloc p n).dataAvail = p.dataAvail + (n - bufTotalSize p)) := by
  unfold bufResize
  rw [dif_neg (by omega)]
  split
  · exact .inr ⟨rfl, rfl⟩
  · exact .inl rfl

theorem bufResize_length {malloc : Nat → Bool} {p : Buf} {n : Nat} (h : bufTotalSize p ≤ n)
    (hq : (bufResize malloc p n).dataAvail ≠ p.dataAvail) :
    (bufResize malloc p n).buffer.length = n := by
  have hcases : bufResize malloc p n = p ∨ _ := bufResize_eq_of_le h
  rcases hcases with he | ⟨hb, -⟩
  · rw [he] at hq
    exact absurd rfl hq
  · have h1 := p.size_eq
    rw [hb, List.length_append, List.length_replicate]
    unfold bufTotalSize at *
    omega

/-- `none` is the null pointer, returned with the buffer unchanged; otherwise the reserved space
starts at the new `data`. -/
def bufReserveBegin (malloc : Nat → Bool) (p : Buf) (dataSize : Nat) : Option Buf :=
  if h : dataSize ≤ p.headAvail then
    some { p with
      data := p.headAvail - dataSize
      headAvail := p.headAvail - dataSize
      dataSize := p.dataSize + dataSize
      data_eq := rfl
      size_eq := by have := p.size_eq; omega }
  else if h : p.headAvail + p.dataAvail < dataSize then
    let q := bufResize malloc p (bufTotalSize p + dataSize - p.headAvail - p.dataAvail)
    if hq : q.dataAvail = p.dataAvail then none
    else
      some {
        buffer := move q.buffer dataSize p.data p.dataSize
        data := 0, headAvail := 0, dataAvail := 0
        tailAvail := p.tailAvail
        dataSize := p.dataSize + dataSize
        data_eq := rfl
        size_eq := by
          have h1 := p.size_eq
          have h2 := p.data_eq
          have h3 : q.buffer.length = _ :=
            bufResize_length (by simp only [bufTotalSize]; omega) hq
          simp only [bufTotalSize] at h3
          rw [length_move (by omega) (by omega)]
          omega }
  else
    some {
      buffer := move p.buffer dataSize p.data p.dataSize
      data := 0, headAvail := 0
      dataAvail := p.dataAvail - (dataSize - p.headAvail)
      tailAvail := p.tailAvail
      dataSize := p.dataSize + dataSize
      data_eq := rfl
      size_eq := by
        have h1 := p.size_eq
        have h2 := p.data_eq
        rw [length_move (by omega) (by omega)]
        omega }

/-- The reserved space starts where the data ended; see `bufReserveBegin` for `none`. -/
def bufReserveEnd (malloc : Nat → Bool) (p : Buf) (dataSize : Nat) : Option (Buf × Nat) :=
  if h : dataSize ≤ p.tailAvail then
    some ({ p with
      tailAvail := p.tailAvail - dataSize
      dataSize := p.dataSize + dataSize
      data := p.headAvail
      data_eq := rfl
      size_eq := by have := p.size_eq; omega }, p.headAvail + p.dataSize)
  else if h : p.tailAvail + p.dataAvail < dataSize then
    let q := bufResize malloc p (bufTotalSize p + dataSize - p.tailAvail - p.dataAvail)
    if hq : q.dataAvail = p.dataAvail then none
    else
      some ({
        buffer := q.buffer
        data := p.headAvail, headAvail := p.headAvail, dataAvail := 0, tailAvail := 0
        dataSize := p.dataSize + dataSize
        data_eq := rfl
        size_eq := by
          have h1 := p.size_eq
          have h3 : q.buffer.length = _ :=
            bufResize_length (by simp only [bufTotalSize]; omega) hq
          simp only [bufTotalSize] at h3
          omega }, p.headAvail + p.dataSize)
  else
    some ({ p with
      dataAvail := p.dataAvail - (dataSize - p.tailAvail)
      tailAvail := 0
      dataSize := p.dataSize + dataSize
      data := p.headAvail
      data_eq := rfl
      size_eq := by have := p.size_eq; omega }, p.headAvail + p.dataSize)

/-- A store through a pointer into the allocation, `none` outside it. -/
def bufPoke (p : Buf) (off : Nat) (d : Bytes) : Option Buf :=
  if h : off + d.length ≤ p.buffer.length then
    some { p with
      buffer := write p.buffer off d
      size_eq := by rw [length_write h]; exact p.size_eq }
  else none

/-- A load of `n` bytes at `data + off`, `none` outside the allocation. -/
def bufPeek (p : Buf) (off n : Nat) : Option Bytes :=
  if p.data + off + n ≤ p.buffer.length then some (slice p.buffer (p.data + off) n) else none

/-- `none` is a failed assertion. -/
def bufInsertBegin (malloc : Nat → Bool) (p : Buf) (data : Bytes) : Option Buf :=
  (bufReserveBegin malloc p data.length).bind fun q => bufPoke q q.data data

/-- `none` is a failed assertion. -/
def bufInsertEnd (malloc : Nat → Bool) (p : Buf) (data : Bytes) : Option Buf :=
  (bufReserveEnd malloc p data.length).bind fun (q, dest) => bufPoke q dest data

def bufRemoveBegin (p : Buf) (dataSize : Nat) : Buf :=
  if h : dataSize < p.dataSize then
    { p with
      headAvail := p.headAvail + dataSize
      dataSize := p.dataSize - dataSize
      data := p.headAvail + dataSize
      data_eq := rfl
      size_eq := by have := p.size_eq; omega }
  else
    { p with
      headAvail := p.headAvail + p.dataSize
      dataSize := 0
      data := p.headAvail + p.dataSize
      data_eq := rfl
      size_eq := by have := p.size_eq; omega }

def bufRemoveEnd (p : Buf) (dataSize : Nat) : Buf :=
  if h : dataSize < p.dataSize then
    { p with
      tailAvail := p.tailAvail + dataSize
      dataSize := p.dataSize - dataSize
      size_eq := by have := p.size_eq; omega }
  else
    { p with
      tailAvail := p.tailAvail + p.dataSize
      dataSize := 0
      size_eq := by have := p.size_eq; omega }

end OpenObex
