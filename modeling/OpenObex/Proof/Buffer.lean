import OpenObex.Model.Databuffer

/-!
# What the buffer functions do to the data

One lemma per function of `databuffer.c`: the valid data afterwards, and what lies behind it in the
allocation where later proofs need it.
-/

namespace OpenObex

open Mem

variable {malloc : Nat → Bool} {p q : Buf}

theorem length_contents (p : Buf) : p.contents.length = p.dataSize := length_slice p.end_le

theorem contents_eq_nil (h : p.dataSize = 0) : p.contents = [] := by
  rw [← List.length_eq_zero_iff, length_contents, h]

/-- The data and what lies behind it. -/
theorem drop_data (p : Buf) : p.buffer.drop p.data = p.contents ++ p.behind := by
  unfold Buf.contents Buf.behind slice
  rw [← List.drop_drop, List.take_append_drop]

theorem slice_data {off n : Nat} (h : off + n ≤ p.dataSize) :
    slice p.buffer (p.data + off) n = slice p.contents off n := by
  unfold slice
  rw [← List.drop_drop, drop_data, List.drop_append_of_le_length (by rw [length_contents]; omega),
    List.take_append_of_le_length]
  rw [List.length_drop, length_contents]
  omega

@[simp] theorem bufReuse_dataSize (p : Buf) : (bufReuse p).dataSize = 0 := rfl

@[simp] theorem contents_bufReuse (p : Buf) : (bufReuse p).contents = [] := contents_eq_nil rfl

/-! ## Reserving and storing -/

/-- A buffer that grew got zeroes at its end. -/
theorem bufResize_grown {n : Nat} (h : bufTotalSize p ≤ n)
    (hq : (bufResize malloc p n).dataAvail ≠ p.dataAvail) :
    (bufResize malloc p n).buffer = p.buffer ++ List.replicate (n - bufTotalSize p) 0 := by
  have hcases : bufResize malloc p n = p ∨ _ := bufResize_eq_of_le h
  rcases hcases with he | ⟨hb, -⟩
  · rw [he] at hq
    exact absurd rfl hq
  · exact hb

/-- The space is reserved in front of the data. -/
theorem bufReserveBegin_some {n : Nat} (h : bufReserveBegin malloc p n = some q) :
    q.dataSize = p.dataSize + n ∧ slice q.buffer (q.data + n) p.dataSize = p.contents := by
  have h1 := p.data_eq
  have h2 := p.size_eq
  unfold bufReserveBegin at h
  split at h
  · cases h
    refine ⟨rfl, ?_⟩
    dsimp only
    rw [Nat.sub_add_cancel ‹_›, ← h1]
    rfl
  split at h
  · dsimp only at h
    split at h
    · cases h
    cases h
    have hle : bufTotalSize p ≤ bufTotalSize p + n - p.headAvail - p.dataAvail := by
      simp only [bufTotalSize]
      omega
    have hlen := bufResize_length hle ‹_›
    have hb := bufResize_grown hle ‹_›
    have htotal : bufTotalSize p = p.buffer.length := h2
    refine ⟨rfl, ?_⟩
    dsimp only
    rw [Nat.zero_add, slice_move (by omega) (by omega), hb, slice_append_left p.end_le]
    rfl
  · cases h
    refine ⟨rfl, ?_⟩
    dsimp only
    rw [Nat.zero_add, slice_move p.end_le (by omega)]
    rfl

/-- The space is reserved where the data ends. -/
theorem bufReserveEnd_some {n dest : Nat} (h : bufReserveEnd malloc p n = some (q, dest)) :
    q.data = p.data ∧ dest = p.data + p.dataSize ∧ q.dataSize = p.dataSize + n ∧
      slice q.buffer q.data p.dataSize = p.contents := by
  have h1 := p.data_eq
  have h2 := p.size_eq
  have hs : slice p.buffer p.headAvail p.dataSize = p.contents := by
    rw [← h1]
    rfl
  unfold bufReserveEnd at h
  split at h
  · cases h
    exact ⟨h1.symm, by rw [h1], rfl, hs⟩
  split at h
  · dsimp only at h
    split at h
    · cases h
    cases h
    have hle : bufTotalSize p ≤ bufTotalSize p + n - p.tailAvail - p.dataAvail := by
      simp only [bufTotalSize]
      omega
    refine ⟨h1.symm, by rw [h1], rfl, ?_⟩
    dsimp only
    rw [bufResize_grown hle ‹_›, ← h1, slice_append_left p.end_le]
    rfl
  · cases h
    exact ⟨h1.symm, by rw [h1], rfl, hs⟩

theorem bufReserveEnd_avail {n : Nat} (h : n ≤ p.tailAvail + p.dataAvail) :
    ∃ q, bufReserveEnd malloc p n = some q ∧ q.1.buffer = p.buffer := by
  unfold bufReserveEnd
  split
  · exact ⟨_, rfl, rfl⟩
  · rw [dif_neg (by omega)]
    exact ⟨_, rfl, rfl⟩

theorem bufPoke_some {off : Nat} {d : Bytes} (h : bufPoke p off d = some q) :
    q.data = p.data ∧ q.dataSize = p.dataSize ∧ q.buffer = write p.buffer off d ∧
      off + d.length ≤ p.buffer.length := by
  unfold bufPoke at h
  split at h
  · cases h
    exact ⟨rfl, rfl, rfl, ‹_›⟩
  · cases h

theorem length_poke {off : Nat} {d : Bytes} (h : bufPoke p off d = some q) :
    q.buffer.length = p.buffer.length := by
  obtain ⟨-, -, h3, h4⟩ := bufPoke_some h
  rw [h3, length_write h4]

theorem bufPoke_of_le {off : Nat} {d : Bytes} (h : off + d.length ≤ p.buffer.length) :
    ∃ q, bufPoke p off d = some q := by
  unfold bufPoke
  rw [dif_pos h]
  exact ⟨_, rfl⟩

theorem contents_poke_begin {d : Bytes} {m : Buf} (h : bufReserveBegin malloc p d.length = some m)
    (hq : bufPoke m m.data d = some q) : q.contents = d ++ p.contents := by
  obtain ⟨hs, hd⟩ := bufReserveBegin_some h
  obtain ⟨h1, h2, h3, h4⟩ := bufPoke_some hq
  have hle := m.end_le
  unfold Buf.contents at hd ⊢
  rw [h1, h2, h3, hs, Nat.add_comm p.dataSize, slice_add, slice_write_same (by omega),
    slice_write_after (Nat.le_refl _) (by omega), hd]

theorem contents_poke_end {d : Bytes} {m : Buf} {dest : Nat}
    (h : bufReserveEnd malloc p d.length = some (m, dest)) (hq : bufPoke m dest d = some q) :
    q.contents = p.contents ++ d := by
  obtain ⟨hm, rfl, hs, hd⟩ := bufReserveEnd_some h
  obtain ⟨h1, h2, h3, h4⟩ := bufPoke_some hq
  have hle := m.end_le
  rw [← hm] at h3 h4
  unfold Buf.contents at hd ⊢
  rw [h1, h2, h3, hs, slice_add, slice_write_same (by omega),
    slice_write_before (Nat.le_refl _) (by omega), hd]

/-- A store into space that was reserved behind the data, when `d` has been appended since. -/
theorem contents_poke_reserved {x d : Bytes} {m r : Buf} {dest : Nat}
    (h : bufReserveEnd malloc p x.length = some (m, dest)) (hr : r.data = m.data)
    (hc : r.contents = m.contents ++ d) (hq : bufPoke r dest x = some q) :
    q.contents = p.contents ++ (x ++ d) := by
  obtain ⟨hm, rfl, hs, hd⟩ := bufReserveEnd_some h
  obtain ⟨h1, h2, h3, h4⟩ := bufPoke_some hq
  have hsize : r.dataSize = p.dataSize + (x.length + d.length) := by
    rw [← length_contents, hc, List.length_append, length_contents, hs, Nat.add_assoc]
  have hle := r.end_le
  have hmle := m.end_le
  -- the three parts before the store
  have hparts : slice r.buffer r.data p.dataSize ++ (slice r.buffer (r.data + p.dataSize) x.length ++
      slice r.buffer (r.data + p.dataSize + x.length) d.length) =
      slice m.buffer m.data p.dataSize ++ (slice m.buffer (m.data + p.dataSize) x.length ++ d) := by
    rw [← List.append_assoc _ _ d, ← slice_add, ← slice_add, ← slice_add, ← hsize, ← hs]
    exact hc
  obtain ⟨hfirst, hrest⟩ :=
    List.append_inj hparts (by rw [length_slice (by omega), length_slice (by omega)])
  obtain ⟨-, hlast⟩ := List.append_inj hrest (by rw [length_slice (by omega), length_slice (by omega)])
  rw [← hm, ← hr] at h3 h4
  unfold Buf.contents at hd ⊢
  rw [h1, h2, h3, hsize, slice_add, slice_add, slice_write_before (Nat.le_refl _) (by omega),
    slice_write_same (by omega), slice_write_after (Nat.le_refl _) (by omega), hfirst, hlast, hd]

theorem bufInsertEnd_some {d : Bytes} (h : bufInsertEnd malloc p d = some q) :
    q.contents = p.contents ++ d ∧ q.dataSize = p.dataSize + d.length := by
  unfold bufInsertEnd at h
  obtain ⟨⟨m, dest⟩, hm, hq⟩ := Option.bind_eq_some_iff.1 h
  exact ⟨contents_poke_end hm hq, by rw [(bufPoke_some hq).2.1, (bufReserveEnd_some hm).2.2.1]⟩

theorem bufInsertEnd_avail {d : Bytes} (h : d.length ≤ p.tailAvail + p.dataAvail) :
    ∃ q, bufInsertEnd malloc p d = some q ∧ q.buffer.length = p.buffer.length := by
  obtain ⟨⟨m, dest⟩, hm, hb⟩ : ∃ r, bufReserveEnd malloc p d.length = some r ∧ _ :=
    bufReserveEnd_avail h
  obtain ⟨h1, h2, h3, -⟩ := bufReserveEnd_some hm
  have hle := m.end_le
  have hp : dest + d.length ≤ m.buffer.length := by omega
  obtain ⟨q, hq⟩ := bufPoke_of_le hp
  refine ⟨q, ?_, ?_⟩
  · unfold bufInsertEnd
    rw [hm]
    exact hq
  · rw [(bufPoke_some hq).2.2.1, length_write hp]
    exact congrArg List.length hb

/-! ## When an allocation succeeds -/

/-- `n` more bytes find room behind the data, or memory is granted for them. -/
def Granted (malloc : Nat → Bool) (p : Buf) (n : Nat) : Prop :=
  p.data + p.dataSize + n ≤ p.buffer.length ∨ malloc (p.data + p.dataSize + n) = true

theorem bufResize_grows {n : Nat} (h : bufTotalSize p < n) :
    (bufResize malloc p n).dataAvail = p.dataAvail ↔ malloc n = false := by
  unfold bufResize
  rw [dif_neg (by omega)]
  cases malloc n with
  | true => exact ⟨fun h => by simp at h; omega, fun h => by cases h⟩
  | false => exact ⟨fun _ => rfl, fun _ => rfl⟩

theorem bufReserveEnd_iff {n : Nat} : (∃ r, bufReserveEnd malloc p n = some r) ↔
    Granted malloc p n := by
  have h1 := p.data_eq
  have h2 := p.size_eq
  unfold bufReserveEnd Granted
  by_cases ht : n ≤ p.tailAvail
  · rw [dif_pos ht]
    exact ⟨fun _ => .inl (by omega), fun _ => ⟨_, rfl⟩⟩
  rw [dif_neg ht]
  by_cases hd : p.tailAvail + p.dataAvail < n
  · have hsize : bufTotalSize p + n - p.tailAvail - p.dataAvail = p.data + p.dataSize + n := by
      unfold bufTotalSize
      omega
    have hgrow : (bufResize malloc p (bufTotalSize p + n - p.tailAvail - p.dataAvail)).dataAvail =
        p.dataAvail ↔ _ := bufResize_grows (by omega)
    rw [dif_pos hd]
    dsimp only
    rw [hsize] at hgrow
    cases hm : malloc (p.data + p.dataSize + n) with
    | true =>
      rw [hm] at hgrow
      rw [dif_neg (by rw [hsize, hgrow]; simp)]
      exact ⟨fun _ => .inr rfl, fun _ => ⟨_, rfl⟩⟩
    | false =>
      rw [dif_pos (by rw [hsize]; exact hgrow.2 hm)]
      refine ⟨fun h => ?_, fun h => ?_⟩
      · obtain ⟨r, hr⟩ := h
        cases hr
      · rcases h with h | h
        · omega
        · cases h
  · rw [dif_neg hd]
    exact ⟨fun _ => .inl (by omega), fun _ => ⟨_, rfl⟩⟩

theorem bufReserveEnd_length {n dest : Nat} (h : bufReserveEnd malloc p n = some (q, dest)) :
    q.buffer.length = max p.buffer.length (p.data + p.dataSize + n) := by
  have h1 := p.data_eq
  have h2 := p.size_eq
  unfold bufReserveEnd at h
  split at h
  · cases h
    dsimp only
    omega
  split at h
  · dsimp only at h
    split at h
    · cases h
    cases h
    dsimp only
    rw [bufResize_length (by simp only [bufTotalSize]; omega) ‹_›]
    simp only [bufTotalSize]
    omega
  · cases h
    dsimp only
    omega

theorem bufInsertEnd_iff {d : Bytes} :
    (∃ q, bufInsertEnd malloc p d = some q) ↔ Granted malloc p d.length := by
  rw [← bufReserveEnd_iff]
  unfold bufInsertEnd
  refine ⟨fun h => ?_, fun h => ?_⟩
  · obtain ⟨q, hq⟩ := h
    obtain ⟨r, hr, -⟩ := Option.bind_eq_some_iff.1 hq
    exact ⟨r, hr⟩
  · obtain ⟨⟨m, dest⟩, hr⟩ := h
    obtain ⟨h1, rfl, h3, -⟩ := bufReserveEnd_some hr
    have hle := m.end_le
    have hp : p.data + p.dataSize + d.length ≤ m.buffer.length := by omega
    obtain ⟨q, hq⟩ := bufPoke_of_le hp
    rw [hr]
    exact ⟨q, hq⟩

theorem bufInsertEnd_length {d : Bytes} (h : bufInsertEnd malloc p d = some q) :
    q.data = p.data ∧ q.buffer.length = max p.buffer.length (p.data + p.dataSize + d.length) := by
  unfold bufInsertEnd at h
  obtain ⟨⟨m, dest⟩, hm, hq⟩ := Option.bind_eq_some_iff.1 h
  obtain ⟨h1, h2, h3, h4⟩ := bufPoke_some hq
  rw [h1, h3, length_write h4]
  exact ⟨(bufReserveEnd_some hm).1, bufReserveEnd_length hm⟩

/-! ## When every allocation succeeds -/

theorem bufTotalSize_eq (p : Buf) : bufTotalSize p = p.buffer.length := p.size_eq

theorem bufTotalSize_resize {n : Nat} (hm : malloc n = true) :
    bufTotalSize (bufResize malloc p n) = n := by
  have h1 := p.size_eq
  have h2 := p.end_le
  have h3 := p.data_eq
  have ht := bufTotalSize_eq p
  rw [bufTotalSize_eq]
  unfold bufResize
  by_cases hn : n < bufTotalSize p
  · rw [dif_pos hn]
    dsimp only
    rw [List.length_take, length_move (by omega) (by omega)]
    omega
  · rw [dif_neg hn, if_pos hm, List.length_append, List.length_replicate]
    omega

/-- What a buffer holds is cut where it is made smaller. -/
theorem contents_bufResize {n : Nat} (hm : malloc n = true) :
    (bufResize malloc p n).contents = p.contents.take n := by
  have h1 := p.data_eq
  have h2 := p.size_eq
  unfold bufResize
  by_cases hlt : n < bufTotalSize p
  · rw [dif_pos hlt]
    unfold bufTotalSize at *
    have hmove : slice
      (move p.buffer (p.headAvail - (p.headAvail + p.dataAvail + p.tailAvail + p.dataSize - n -
        p.dataAvail - p.tailAvail)) p.data p.dataSize)
        (p.headAvail - (p.headAvail + p.dataAvail + p.tailAvail + p.dataSize - n - p.dataAvail -
          p.tailAvail))
        p.dataSize = p.contents := slice_move (by omega) (by omega)
    unfold Buf.contents at *
    dsimp only
    rw [slice_take (by omega), ← Nat.min_eq_left (Nat.sub_le p.dataSize _), ← take_slice, hmove,
      take_slice, take_slice]
    congr 1
    omega
  · have hle : p.dataSize ≤ n := by
      unfold bufTotalSize at *
      omega
    rw [dif_neg hlt, if_pos hm, List.take_of_length_le (by rw [length_contents]; exact hle)]
    unfold Buf.contents
    exact slice_append_left p.end_le

theorem bufInsertEnd_total (hm : ∀ n, malloc n = true) (p : Buf) (d : Bytes) :
    ∃ q, bufInsertEnd malloc p d = some q := bufInsertEnd_iff.2 (.inr (hm _))

theorem bufReserveBegin_total (hm : ∀ n, malloc n = true) (p : Buf) (n : Nat) :
    ∃ q, bufReserveBegin malloc p n = some q := by
  have h2 := p.size_eq
  unfold bufReserveBegin
  by_cases hhead : n ≤ p.headAvail
  · rw [dif_pos hhead]
    exact ⟨_, rfl⟩
  rw [dif_neg hhead]
  by_cases hgrow : p.headAvail + p.dataAvail < n
  · rw [dif_pos hgrow]
    dsimp only
    rw [dif_neg]
    · exact ⟨_, rfl⟩
    · rw [bufResize_grows (by unfold bufTotalSize; omega)]
      simp [hm]
  · rw [dif_neg hgrow]
    exact ⟨_, rfl⟩

/-! ## Removing -/

theorem bufRemoveBegin_buffer (p : Buf) (n : Nat) : (bufRemoveBegin p n).buffer = p.buffer := by
  unfold bufRemoveBegin
  split <;> rfl

theorem bufRemoveBegin_spec (p : Buf) (n : Nat) :
    (bufRemoveBegin p n).data = p.data + min n p.dataSize ∧
      (bufRemoveBegin p n).dataSize = p.dataSize - n := by
  have h1 := p.data_eq
  unfold bufRemoveBegin
  split
  · exact ⟨by dsimp only; omega, rfl⟩
  · exact ⟨by dsimp only; omega, by dsimp only; omega⟩

theorem bufRemoveBegin_avail (p : Buf) (n : Nat) :
    (bufRemoveBegin p n).headAvail = p.headAvail + min n p.dataSize ∧
      (bufRemoveBegin p n).dataAvail = p.dataAvail ∧ (bufRemoveBegin p n).tailAvail = p.tailAvail := by
  unfold bufRemoveBegin
  split
  · exact ⟨by dsimp only; omega, rfl, rfl⟩
  · exact ⟨by dsimp only; omega, rfl, rfl⟩

theorem bufRemoveBegin_dataSize (p : Buf) (n : Nat) :
    (bufRemoveBegin p n).dataSize = p.dataSize - n := (bufRemoveBegin_spec p n).2

theorem contents_bufRemoveBegin (p : Buf) (n : Nat) :
    (bufRemoveBegin p n).contents = p.contents.drop n := by
  obtain ⟨h1, h2⟩ := bufRemoveBegin_spec p n
  unfold Buf.contents
  rw [h1, h2, bufRemoveBegin_buffer, drop_slice]
  rcases Nat.le_total n p.dataSize with h | h
  · rw [Nat.min_eq_left h]
  · rw [Nat.sub_eq_zero_of_le h, slice_zero, slice_zero]

theorem behind_bufRemoveBegin (p : Buf) (n : Nat) : (bufRemoveBegin p n).behind = p.behind := by
  obtain ⟨h1, h2⟩ := bufRemoveBegin_spec p n
  unfold Buf.behind
  rw [h1, h2, bufRemoveBegin_buffer]
  congr 1
  omega

theorem bufRemoveEnd_spec (p : Buf) (n : Nat) :
    (bufRemoveEnd p n).data = p.data ∧ (bufRemoveEnd p n).dataSize = p.dataSize - n ∧
      (bufRemoveEnd p n).buffer = p.buffer := by
  unfold bufRemoveEnd
  split
  · exact ⟨rfl, rfl, rfl⟩
  · exact ⟨rfl, by dsimp only; omega, rfl⟩

theorem contents_bufRemoveEnd (p : Buf) (n : Nat) :
    (bufRemoveEnd p n).contents = p.contents.take (p.dataSize - n) := by
  obtain ⟨h1, h2, h3⟩ := bufRemoveEnd_spec p n
  unfold Buf.contents
  rw [h1, h2, h3, take_slice, Nat.min_eq_left (Nat.sub_le _ _)]

/-! ## Reading -/

/-- Space for `n` bytes is reserved, `d` is stored in it and the rest is given back. -/
theorem contents_giveBack {d : Bytes} {m : Buf} {n dest : Nat}
    (h : bufReserveEnd malloc p n = some (m, dest)) (hn : d.length ≤ n)
    (hq : bufPoke m dest d = some q) : (bufRemoveEnd q (n - d.length)).contents = p.contents ++ d := by
  obtain ⟨hm, rfl, hs, hd⟩ := bufReserveEnd_some h
  obtain ⟨h1, h2, h3, h4⟩ := bufPoke_some hq
  obtain ⟨r1, r2, r3⟩ := bufRemoveEnd_spec q (n - d.length)
  have hle := m.end_le
  have hsize : (bufRemoveEnd q (n - d.length)).dataSize = p.dataSize + d.length := by omega
  rw [← hm] at h3 h4
  unfold Buf.contents at hd ⊢
  rw [r1, r3, hsize, h1, h3, slice_add, slice_write_same (by omega),
    slice_write_before (Nat.le_refl _) (by omega), hd]

theorem bufPeek_some {off n : Nat} {d : Bytes} (h : bufPeek p off n = some d) :
    p.data + off + n ≤ p.buffer.length ∧ d = slice p.buffer (p.data + off) n := by
  unfold bufPeek at h
  split at h
  · exact ⟨‹_›, by simpa using h.symm⟩
  · cases h

theorem bufPeek_of_le {off n : Nat} (h : off + n ≤ p.dataSize) :
    bufPeek p off n = some (slice p.contents off n) := by
  have := p.end_le
  unfold bufPeek
  rw [if_pos (by omega), slice_data h]

/-- The data and what lies behind it: what can be read from `data` on. -/
def Buf.reach (p : Buf) : Bytes := p.contents ++ p.behind

theorem Buf.length_reach (p : Buf) : p.reach.length = p.buffer.length - p.data := by
  rw [Buf.reach, ← drop_data, List.length_drop]

theorem slice_reach (p : Buf) (off n : Nat) :
    slice p.buffer (p.data + off) n = slice p.reach off n := by
  unfold slice Buf.reach
  rw [← drop_data, List.drop_drop]

theorem bufPeek_reach (p : Buf) (off n : Nat) :
    bufPeek p off n = if off + n ≤ p.reach.length then some (slice p.reach off n) else none := by
  have h1 := p.end_le
  unfold bufPeek
  rw [p.length_reach, slice_reach]
  by_cases h : p.data + off + n ≤ p.buffer.length
  · rw [if_pos h, if_pos (by omega)]
  · rw [if_neg h, if_neg (by omega)]

end OpenObex
