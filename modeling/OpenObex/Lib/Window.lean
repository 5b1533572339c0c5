import OpenObex.Lib.Mem

/-!
# A window of a memory block

A `Window` is a range of a block that is filled at its end and emptied at its front; once it is empty
it starts at the beginning of the block again. What is taken out is what was put in, in order
(`contents_push`, `contents_pull`), and the bytes in front of the end of the window stay as they are
when it is filled (`slice_push`), except by a window that has started again.
-/

namespace Mem

structure Window where
  block : Bytes
  start : Nat
  len : Nat
  inside : start + len ≤ block.length

namespace Window

variable (w : Window)

def contents : Bytes := slice w.block w.start w.len

def stop : Nat := w.start + w.len

/-- The space behind the window. -/
def room : Nat := w.block.length - w.stop

def push (d : Bytes) (h : d.length ≤ w.room) : Window where
  block := write w.block w.stop d
  start := w.start
  len := w.len + d.length
  inside := by
    have hin := w.inside
    unfold room stop at h
    unfold stop
    rw [length_write (by omega)]
    omega

def pull (n : Nat) (h : n ≤ w.len) : Window where
  block := w.block
  start := if n = w.len then 0 else w.start + n
  len := w.len - n
  inside := by
    have hin := w.inside
    split_ifs <;> omega

variable {w} {d : Bytes} {n : Nat}

theorem length_contents : w.contents.length = w.len := length_slice w.inside

theorem contents_push (h : d.length ≤ w.room) : (w.push d h).contents = w.contents ++ d := by
  have hin := w.inside
  have hstop : w.stop ≤ w.block.length := hin
  show slice (write w.block w.stop d) w.start (w.len + d.length) = _
  rw [slice_add]
  exact congrArg₂ _ (slice_write_before (Nat.le_refl _) hstop) (slice_write_same hstop)

theorem contents_pull (h : n ≤ w.len) :
    w.contents = slice w.block w.start n ++ (w.pull n h).contents := by
  show slice w.block w.start w.len = _ ++ slice w.block (if n = w.len then 0 else w.start + n)
    (w.len - n)
  by_cases hn : n = w.len
  · rw [hn, Nat.sub_self, slice_zero, List.append_nil]
  · rw [if_neg hn, ← slice_add, Nat.add_sub_of_le h]

theorem slice_front (h : n ≤ w.len) : slice w.block w.start n = w.contents.take n := by
  show _ = (slice w.block w.start w.len).take n
  rw [take_slice, Nat.min_eq_left h]

/-- A range on one side of the new bytes keeps its own. -/
theorem slice_push (h : d.length ≤ w.room) {o k : Nat} (ho : o + k ≤ w.stop ∨ w.stop + d.length ≤ o) :
    slice (w.push d h).block o k = slice w.block o k := by
  have hstop : w.stop ≤ w.block.length := w.inside
  rcases ho with ho | ho
  · exact slice_write_before ho hstop
  · exact slice_write_after ho hstop

end Window

end Mem
