import OpenObex.Proof.Buffer

/-!
# The data buffer as a sequence of bytes

What the counters, the moves and the reallocations of `buf_t` amount to: a list of bytes that grows and
shrinks at both ends. Every allocation succeeds here.
-/

namespace OpenObex

open Mem

def grantAll : Nat → Bool := fun _ => true

theorem grantAll_eq (n : Nat) : grantAll n = true := rfl

/-- The operations on a buffer; it is resized to one byte at least. -/
inductive BufOp
  | reserveBegin (n : Nat)
  | reserveEnd (n : Nat)
  | insertBegin (d : Bytes)
  | insertEnd (d : Bytes)
  | removeBegin (n : Nat)
  | removeEnd (n : Nat)
  | reuse
  | resize (n : Nat) (pos : 1 ≤ n)

namespace BufOp

/-- `none` is a null pointer or a failed assertion. -/
def run (p : Buf) : BufOp → Option Buf
  | reserveBegin n => bufReserveBegin grantAll p n
  | reserveEnd n => (bufReserveEnd grantAll p n).map Prod.fst
  | insertBegin d => bufInsertBegin grantAll p d
  | insertEnd d => bufInsertEnd grantAll p d
  | removeBegin n => some (bufRemoveBegin p n)
  | removeEnd n => some (bufRemoveEnd p n)
  | reuse => some (bufReuse p)
  | resize n _ => some (bufResize grantAll p n)

/-- What the operation does to the sequence; the bytes reserved are any. -/
def Spec (w w' : Bytes) : BufOp → Prop
  | reserveBegin n => ∃ x : Bytes, x.length = n ∧ w' = x ++ w
  | reserveEnd n => ∃ x : Bytes, x.length = n ∧ w' = w ++ x
  | insertBegin d => w' = d ++ w
  | insertEnd d => w' = w ++ d
  | removeBegin n => w' = w.drop n
  | removeEnd n => w' = w.take (w.length - n)
  | reuse => w' = []
  | resize n _ => w' = w.take (min n w.length)

end BufOp

/-! ## The bytes that are accessed -/

/-- `len` bytes at `off` of an allocation of `size`. -/
structure Range where
  off : Nat
  len : Nat
  size : Nat

def Range.Inside (r : Range) : Prop := r.off + r.len ≤ r.size

/-- A `memmove` of the data: destination and source. -/
def moved (p : Buf) (dst size : Nat) : List Range :=
  [{ off := dst, len := p.dataSize, size }, { off := p.headAvail, len := p.dataSize, size }]

/-- `buf_resize` moves the data when it shrinks, before the reallocation. -/
def resizeRanges (p : Buf) (n : Nat) : List Range :=
  if n < bufTotalSize p then
    moved p (p.headAvail - (bufTotalSize p - n - p.dataAvail - p.tailAvail)) p.buffer.length
  else []

/-- `buf_reserve_begin` moves the data when the space in front does not suffice, after it has grown. -/
def reserveBeginRanges (p : Buf) (n : Nat) : List Range :=
  if n ≤ p.headAvail then []
  else if p.headAvail + p.dataAvail < n then
    let size := bufTotalSize p + n - p.headAvail - p.dataAvail
    resizeRanges p size ++ moved p n (bufResize grantAll p size).buffer.length
  else moved p n p.buffer.length

/-- `buf_reserve_end` only grows. -/
def reserveEndRanges (p : Buf) (n : Nat) : List Range :=
  if p.tailAvail + p.dataAvail < n then
    resizeRanges p (bufTotalSize p + n - p.tailAvail - p.dataAvail)
  else []

/-- The `memcpy` into the space reserved. -/
def copied (d : Bytes) (dest : Nat) (q : Buf) : Range :=
  { off := dest, len := d.length, size := q.buffer.length }

/-- Every range that the operation moves or copies. -/
def BufOp.ranges (p : Buf) : BufOp → List Range
  | reserveBegin n => reserveBeginRanges p n
  | reserveEnd n => reserveEndRanges p n
  | insertBegin d => reserveBeginRanges p d.length ++
      ((bufReserveBegin grantAll p d.length).map fun q => copied d q.data q).toList
  | insertEnd d => reserveEndRanges p d.length ++
      ((bufReserveEnd grantAll p d.length).map fun q => copied d q.2 q.1).toList
  | removeBegin _ => []
  | removeEnd _ => []
  | reuse => []
  | resize n _ => resizeRanges p n

/-! ## One operation -/

variable {p : Buf}

theorem resizeRanges_inside (n : Nat) : ∀ r ∈ resizeRanges p n, r.Inside := by
  have h2 := p.size_eq
  unfold resizeRanges moved Range.Inside bufTotalSize
  split
  · intro r hr
    simp only [List.mem_cons, List.not_mem_nil, or_false] at hr
    rcases hr with rfl | rfl
    · dsimp only
      omega
    · dsimp only
      omega
  · simp

theorem reserveBeginRanges_inside (n : Nat) : ∀ r ∈ reserveBeginRanges p n, r.Inside := by
  have h2 := p.size_eq
  have hmoved {size : Nat} (hs : n + p.dataSize ≤ size) (hp : p.headAvail + p.dataSize ≤ size) :
      ∀ r ∈ moved p n size, r.Inside := by
    intro r hr
    simp only [moved, List.mem_cons, List.not_mem_nil, or_false] at hr
    rcases hr with rfl | rfl
    · exact hs
    · exact hp
  unfold reserveBeginRanges
  split
  · simp
  split
  · intro r hr
    rcases List.mem_append.1 hr with hr | hr
    · exact resizeRanges_inside _ r hr
    · refine hmoved ?_ ?_ r hr
      · rw [← bufTotalSize_eq, bufTotalSize_resize rfl]
        unfold bufTotalSize
        omega
      · rw [← bufTotalSize_eq, bufTotalSize_resize rfl]
        unfold bufTotalSize
        omega
  · exact hmoved (by omega) (by omega)

theorem reserveEndRanges_inside (n : Nat) : ∀ r ∈ reserveEndRanges p n, r.Inside := by
  unfold reserveEndRanges
  split
  · exact resizeRanges_inside _
  · simp

/-- The operation succeeds and does to the contents what it should. -/
theorem BufOp.run_spec (op : BufOp) (p : Buf) :
    ∃ q, op.run p = some q ∧ op.Spec p.contents q.contents := by
  cases op with
  | reserveBegin n =>
    obtain ⟨q, hq⟩ := bufReserveBegin_total grantAll_eq p n
    obtain ⟨hs, hd⟩ := bufReserveBegin_some hq
    have hle := q.end_le
    refine ⟨q, hq, slice q.buffer q.data n, length_slice (by omega), ?_⟩
    rw [← hd, ← slice_add, Buf.contents, hs, Nat.add_comm]
  | reserveEnd n =>
    obtain ⟨⟨q, dest⟩, hq⟩ := bufReserveEnd_iff.2 (.inr rfl : Granted grantAll p n)
    obtain ⟨h1, h2, h3, h4⟩ := bufReserveEnd_some hq
    have hle := q.end_le
    refine ⟨q, congrArg (Option.map Prod.fst) hq, slice q.buffer (q.data + p.dataSize) n,
      length_slice (by omega), ?_⟩
    rw [← h4, ← slice_add, Buf.contents, h3]
  | insertBegin d =>
    obtain ⟨m, hm⟩ := bufReserveBegin_total grantAll_eq p d.length
    obtain ⟨hs, -⟩ := bufReserveBegin_some hm
    have hle := m.end_le
    obtain ⟨q, hq⟩ : ∃ q, bufPoke m m.data d = some q := bufPoke_of_le (by omega)
    refine ⟨q, Option.bind_eq_some_iff.2 ⟨m, hm, hq⟩, contents_poke_begin hm hq⟩
  | insertEnd d =>
    obtain ⟨q, hq⟩ := bufInsertEnd_total grantAll_eq p d
    exact ⟨q, hq, (bufInsertEnd_some hq).1⟩
  | removeBegin n => exact ⟨_, rfl, contents_bufRemoveBegin p n⟩
  | removeEnd n =>
    refine ⟨_, rfl, ?_⟩
    rw [Spec, length_contents]
    exact contents_bufRemoveEnd p n
  | reuse => exact ⟨_, rfl, contents_bufReuse p⟩
  | resize n _ =>
    refine ⟨_, rfl, ?_⟩
    rw [Spec, contents_bufResize rfl, ← List.take_take, List.take_length]

/-- Everything it moves or copies lies inside the allocation. -/
theorem BufOp.ranges_inside (op : BufOp) (p : Buf) : ∀ r ∈ op.ranges p, r.Inside := by
  intro r hr
  cases op with
  | reserveBegin n => exact reserveBeginRanges_inside n r hr
  | reserveEnd n => exact reserveEndRanges_inside n r hr
  | insertBegin d =>
    rcases List.mem_append.1 hr with hr | hr
    · exact reserveBeginRanges_inside _ r hr
    obtain ⟨q, hq⟩ := bufReserveBegin_total grantAll_eq p d.length
    obtain ⟨hs, -⟩ := bufReserveBegin_some hq
    have hle := q.end_le
    rw [hq, Option.map_some, Option.toList_some, List.mem_singleton] at hr
    rw [hr]
    show q.data + d.length ≤ q.buffer.length
    omega
  | insertEnd d =>
    rcases List.mem_append.1 hr with hr | hr
    · exact reserveEndRanges_inside _ r hr
    obtain ⟨⟨q, dest⟩, hq⟩ := bufReserveEnd_iff.2 (.inr rfl : Granted grantAll p d.length)
    obtain ⟨h1, h2, h3, -⟩ := bufReserveEnd_some hq
    have hle := q.end_le
    rw [hq, Option.map_some, Option.toList_some, List.mem_singleton] at hr
    rw [hr]
    show dest + d.length ≤ q.buffer.length
    omega
  | removeBegin n => cases hr
  | removeEnd n => cases hr
  | reuse => cases hr
  | resize n _ => exact resizeRanges_inside n r hr

/-! ## Every sequence of operations -/

/-- The counters tile the allocation, and the data starts behind the first of them. -/
def Tiled (p : Buf) : Prop :=
  p.data = p.headAvail ∧ p.headAvail + p.dataSize + p.dataAvail + p.tailAvail = p.buffer.length

/-- `p` holds `w` and goes on to hold what the operations make of `w`. -/
def Refines : List BufOp → Buf → Bytes → Prop
  | [], p, w => Tiled p ∧ p.contents = w
  | op :: ops, p, w => (Tiled p ∧ p.contents = w) ∧ (∀ r ∈ op.ranges p, r.Inside) ∧
      ∃ q w', op.run p = some q ∧ op.Spec w w' ∧ Refines ops q w'

theorem tiled (p : Buf) : Tiled p := by
  have h := p.size_eq
  exact ⟨p.data_eq, by omega⟩

theorem refines (ops : List BufOp) (p : Buf) : Refines ops p p.contents := by
  induction ops generalizing p with
  | nil => exact ⟨tiled p, rfl⟩
  | cons op ops ih =>
    obtain ⟨q, hq, hspec⟩ := op.run_spec p
    exact ⟨⟨tiled p, rfl⟩, op.ranges_inside p, q, q.contents, hq, hspec, ih q⟩

/-- A new buffer is a sequence of bytes under every sequence of operations. -/
theorem buffer_refines (size : Nat) (ops : List BufOp) :
    ∃ p, bufNew grantAll size = some p ∧ Refines ops p [] := by
  refine ⟨freshBuf size, rfl, ?_⟩
  have h := refines ops (freshBuf size)
  rwa [contents_eq_nil (p := freshBuf size) rfl] at h

end OpenObex
