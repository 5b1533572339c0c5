import OpenObex.Proof.Reception

/-!
# Distributing headers over packets

A list of headers, of which at most one is a body, is distributed over packets of a given room, and
what is sent is taken by a receiver in buffered mode. Nothing here is about queues and buffers: a
`Parcel` is a header with its value, and `pack` is what goes into a packet. Packets go on until the list
is empty unless the body is reached with one or two bytes left (`Wedged`), and the receiver then has
the list, if it does not refuse the length announced in front of the body (`Modest`).
-/

namespace OpenObex

open Mem

/-- A header to be sent; after some the sender pauses. -/
structure Parcel where
  head : Head
  pause : Bool

namespace Parcel

def ofBody (x : Parcel) : Bool := decide (x.head.hi = obexHdrBody)

def size (x : Parcel) : Nat := x.head.encode.length

/-- The space a parcel in the packet counts for; the three bytes in front of a body do not count. -/
def taken (x : Parcel) : Nat := if x.ofBody then x.head.value.length else x.size

/-- The header when all of it, or the rest, is in the packet. -/
def whole (x : Parcel) : Head :=
  if x.ofBody then { hi := obexHdrBodyEnd, value := x.head.value } else x.head

/-- The next `n` bytes of a body. -/
def part (x : Parcel) (n : Nat) : Head := { hi := obexHdrBody, value := x.head.value.take n }

def rest (x : Parcel) (n : Nat) : Parcel :=
  { x with head := { x.head with value := x.head.value.drop n } }

theorem size_body {x : Parcel} (h : x.ofBody = true) : x.size = x.head.value.length + 3 := by
  have hhi : x.head.hi = obexHdrBody := of_decide_eq_true h
  unfold size Head.encode
  rw [hhi]
  simp only [show hiType obexHdrBody = .byteStream from rfl, List.length_append, List.length_cons,
    length_be16]
  omega

@[simp] theorem ofBody_rest (x : Parcel) (n : Nat) : (x.rest n).ofBody = x.ofBody := rfl

end Parcel

/-- The headers of a packet with `left` bytes, and what is left to be sent; `none` if the sender
fails. -/
def pack : Nat → List Parcel → Option (List Head × List Parcel)
  | _, [] => some ([], [])
  | left, x :: xs =>
    if x.size ≤ left then
      if x.pause = true ∨ left - x.taken = 0 then some ([x.whole], xs)
      else (pack (left - x.taken) xs).map fun r => (x.whole :: r.1, r.2)
    else if x.ofBody then
      if left < 3 then none else some ([x.part (left - 3)], x.rest (left - 3) :: xs)
    else some ([], x :: xs)

/-- The packets until everything is sent, `n` at most. -/
def drain (room : Nat) : Nat → List Parcel → Option (List (List Head))
  | _, [] => some []
  | 0, _ :: _ => none
  | n + 1, x :: xs => (pack room (x :: xs)).bind fun r => (drain room n r.2).map fun pk => r.1 :: pk

/-- The body is reached with one or two bytes left in its packet. -/
def Wedged (room : Nat) : Nat → List Parcel → Prop
  | _, [] => False
  | left, x :: xs =>
    if x.ofBody then left < 3
    else
      let k := (if x.size ≤ left then left else room) - x.size
      Wedged room (if x.pause = true ∨ k = 0 then room else k) xs

/-- The length announced last in front of the body is below 2^31. -/
def Modest : Nat → List Parcel → Prop
  | _, [] => True
  | hint, x :: xs =>
    if x.ofBody then hint < 2147483648
    else Modest (if x.head.hi = obexHdrLength then lengthValue x.head.value else hint) xs

/-- There is one body at most, and every other header fits in a packet. -/
structure Packable (room : Nat) (xs : List Parcel) : Prop where
  one : xs.countP Parcel.ofBody ≤ 1
  fits : ∀ x ∈ xs, x.ofBody = false → x.head.Valid ∧ x.head.isBody = false ∧ x.size ≤ room

/-- The number of headers and of bytes. -/
def weight : List Parcel → Nat
  | [] => 0
  | x :: xs => 1 + x.head.value.length + weight xs

variable {room left hint : Nat} {x : Parcel} {xs ys : List Parcel} {hs : List Head} {i : Intake}

theorem Packable.tail (h : Packable room (x :: xs)) : Packable room xs := by
  obtain ⟨h1, h2⟩ := h
  rw [List.countP_cons] at h1
  exact ⟨by omega, fun y hy => h2 y (List.mem_cons_of_mem _ hy)⟩

theorem Packable.no_body (h : Packable room (x :: xs)) (hx : x.ofBody = true) :
    ∀ y ∈ xs, y.ofBody = false := by
  have h1 := h.one
  rw [List.countP_cons, hx, if_pos rfl] at h1
  have h0 : xs.countP Parcel.ofBody = 0 := by omega
  intro y hy
  simpa using List.countP_eq_zero.1 h0 y hy

theorem Packable.rest (h : Packable room (x :: xs)) (hx : x.ofBody = true) (n : Nat) :
    Packable room (x.rest n :: xs) := by
  obtain ⟨h1, h2⟩ := h
  refine ⟨?_, fun y hy hb => ?_⟩
  · rwa [List.countP_cons, Parcel.ofBody_rest, ← List.countP_cons]
  · rcases List.mem_cons.1 hy with rfl | hy
    · rw [Parcel.ofBody_rest, hx] at hb
      cases hb
    · exact h2 y (List.mem_cons_of_mem _ hy) hb

theorem not_wedged_of_no_body (h : ∀ x ∈ xs, x.ofBody = false) : ¬ Wedged room left xs := by
  induction xs generalizing left with
  | nil => exact id
  | cons x xs ih =>
    rw [Wedged, h x List.mem_cons_self, if_neg (by simp)]
    exact ih fun y hy => h y (List.mem_cons_of_mem _ hy)

theorem modest_of_no_body (h : ∀ x ∈ xs, x.ofBody = false) : Modest hint xs := by
  induction xs generalizing hint with
  | nil => trivial
  | cons x xs ih =>
    rw [Modest, h x List.mem_cons_self, if_neg (by simp)]
    exact ih fun y hy => h y (List.mem_cons_of_mem _ hy)

/-! ## One packet -/

/-- The ways a packet is filled. -/
theorem pack_cases (h : pack left (x :: xs) = some (hs, ys)) :
    (x.size ≤ left ∧ (x.pause = true ∨ left - x.taken = 0) ∧ hs = [x.whole] ∧ ys = xs) ∨
    (x.size ≤ left ∧ ¬ (x.pause = true ∨ left - x.taken = 0) ∧
      ∃ gs, pack (left - x.taken) xs = some (gs, ys) ∧ hs = x.whole :: gs) ∨
    (left < x.size ∧ x.ofBody = true ∧ 3 ≤ left ∧ hs = [x.part (left - 3)] ∧
      ys = x.rest (left - 3) :: xs) ∨
    (left < x.size ∧ x.ofBody = false ∧ hs = [] ∧ ys = x :: xs) := by
  rw [pack] at h
  by_cases hfit : x.size ≤ left
  · rw [if_pos hfit] at h
    by_cases hlast : x.pause = true ∨ left - x.taken = 0
    · rw [if_pos hlast] at h
      cases h
      exact .inl ⟨hfit, hlast, rfl, rfl⟩
    · rw [if_neg hlast] at h
      obtain ⟨⟨gs, zs⟩, hgs, heq⟩ := Option.map_eq_some_iff.1 h
      cases heq
      exact .inr (.inl ⟨hfit, hlast, gs, hgs, rfl⟩)
  · rw [if_neg hfit] at h
    by_cases hb : x.ofBody = true
    · rw [if_pos hb] at h
      by_cases hleft : left < 3
      · rw [if_pos hleft] at h
        cases h
      · rw [if_neg hleft] at h
        cases h
        exact .inr (.inr (.inl ⟨by omega, hb, by omega, rfl, rfl⟩))
    · rw [if_neg hb] at h
      cases h
      exact .inr (.inr (.inr ⟨by omega, by simpa using hb, rfl, rfl⟩))

theorem pack_packable (hp : Packable room xs) (h : pack left xs = some (hs, ys)) :
    Packable room ys := by
  induction xs generalizing left hs with
  | nil =>
    cases h
    exact hp
  | cons x xs ih =>
    rcases pack_cases h with ⟨-, -, -, rfl⟩ | ⟨-, -, gs, hgs, -⟩ | ⟨-, hb, -, -, rfl⟩ | ⟨-, -, -, rfl⟩
    · exact hp.tail
    · exact ih hp.tail hgs
    · exact hp.rest hb _
    · exact hp

theorem pack_no_body (hn : ∀ x ∈ xs, x.ofBody = false) (h : pack left xs = some (hs, ys)) :
    ∀ y ∈ ys, y.ofBody = false := by
  induction xs generalizing left hs with
  | nil =>
    cases h
    exact hn
  | cons x xs ih =>
    obtain ⟨hx, hxs⟩ := List.forall_mem_cons.1 hn
    rcases pack_cases h with ⟨-, -, -, rfl⟩ | ⟨-, -, gs, hgs, -⟩ | ⟨-, hb, -, -, rfl⟩ | ⟨-, -, -, rfl⟩
    · exact hxs
    · exact ih hxs hgs
    · rw [hx] at hb
      cases hb
    · exact hn

/-- The sender only fails where the body is wedged. -/
theorem wedged_of_pack (hp : Packable room xs) (h : pack left xs = none) : Wedged room left xs := by
  induction xs generalizing left with
  | nil => cases h
  | cons x xs ih =>
    rw [pack] at h
    rw [Wedged]
    by_cases hfit : x.size ≤ left
    · rw [if_pos hfit] at h
      by_cases hlast : x.pause = true ∨ left - x.taken = 0
      · rw [if_pos hlast] at h
        cases h
      · rw [if_neg hlast] at h
        have hrest := ih hp.tail (Option.map_eq_none_iff.1 h)
        by_cases hb : x.ofBody = true
        · exact absurd hrest (not_wedged_of_no_body (hp.no_body hb))
        · have htaken : x.taken = x.size := if_neg hb
          rw [htaken] at hlast hrest
          rw [if_neg hb, if_pos hfit]
          dsimp only
          rwa [if_neg hlast]
    · rw [if_neg hfit] at h
      by_cases hb : x.ofBody = true
      · rw [if_pos hb] at h ⊢
        by_contra hleft
        rw [if_neg hleft] at h
        cases h
      · rw [if_neg hb] at h
        cases h

/-- A packet moves the body on, wedged or not. -/
theorem wedged_pack (hroom : 3 ≤ room) (hp : Packable room xs) (h : pack left xs = some (hs, ys)) :
    Wedged room left xs ↔ Wedged room room ys := by
  induction xs generalizing left hs with
  | nil =>
    cases h
    exact Iff.rfl
  | cons x xs ih =>
    rw [Wedged]
    rcases pack_cases h with ⟨hfit, hlast, -, rfl⟩ | ⟨hfit, hlast, gs, hgs, -⟩
      | ⟨hlt, hb, hleft, -, rfl⟩ |
      ⟨hlt, hb, -, rfl⟩
    · by_cases hb : x.ofBody = true
      · rw [if_pos hb]
        rw [x.size_body hb] at hfit
        exact ⟨fun h => by omega, fun h => absurd h (not_wedged_of_no_body (hp.no_body hb))⟩
      · have htaken : x.taken = x.size := if_neg hb
        rw [htaken] at hlast
        rw [if_neg hb, if_pos hfit]
        dsimp only
        rw [if_pos hlast]
    · by_cases hb : x.ofBody = true
      · rw [if_pos hb]
        rw [x.size_body hb] at hfit
        have hno := pack_no_body (hp.no_body hb) hgs
        exact ⟨fun h => by omega, fun h => absurd h (not_wedged_of_no_body hno)⟩
      · have htaken : x.taken = x.size := if_neg hb
        rw [htaken] at hlast hgs
        rw [if_neg hb, if_pos hfit]
        dsimp only
        rw [if_neg hlast]
        exact ih hp.tail hgs
    · rw [if_pos hb, Wedged, Parcel.ofBody_rest, if_pos hb]
      omega
    · have hsize := (hp.fits x List.mem_cons_self hb).2.2
      rw [Wedged, hb, if_neg Bool.false_ne_true, if_neg Bool.false_ne_true, if_neg (Nat.not_le.2 hlt),
        if_pos hsize]

theorem pack_length (h : pack left xs = some (hs, ys)) : ys.length ≤ xs.length := by
  induction xs generalizing left hs with
  | nil =>
    cases h
    exact Nat.le_refl _
  | cons x xs ih =>
    rw [List.length_cons]
    rcases pack_cases h with ⟨-, -, -, rfl⟩ | ⟨-, -, gs, hgs, -⟩ | ⟨-, -, -, -, rfl⟩ | ⟨-, -, -, rfl⟩
    · exact Nat.le_succ _
    · exact Nat.le_succ_of_le (ih hgs)
    · exact Nat.le_refl _
    · exact Nat.le_refl _

theorem pack_weight (h : pack left xs = some (hs, ys)) : weight ys ≤ weight xs := by
  induction xs generalizing left hs with
  | nil =>
    cases h
    exact Nat.le_refl _
  | cons x xs ih =>
    rw [weight]
    rcases pack_cases h with ⟨-, -, -, rfl⟩ | ⟨-, -, gs, hgs, -⟩ | ⟨-, -, -, -, rfl⟩ | ⟨-, -, -, rfl⟩
    · omega
    · have := ih hgs
      omega
    · rw [weight]
      simp only [Parcel.rest, List.length_drop]
      omega
    · rw [weight]

theorem pack_lighter (hroom : 4 ≤ room) (hp : Packable room (x :: xs))
    (h : pack room (x :: xs) = some (hs, ys)) : weight ys < weight (x :: xs) := by
  rw [weight]
  rcases pack_cases h with ⟨-, -, -, rfl⟩ | ⟨-, -, gs, hgs, -⟩ | ⟨hlt, hb, -, -, rfl⟩ | ⟨hlt, hb, -, -⟩
  · omega
  · have := pack_weight hgs
    omega
  · rw [x.size_body hb] at hlt
    rw [weight]
    simp only [Parcel.rest, List.length_drop]
    omega
  · have hsize := (hp.fits x List.mem_cons_self hb).2.2
    omega

theorem valid_fragment {hi : UInt8} (hk : hiType hi = .byteStream) {v : Bytes}
    (hv : v.length + 3 < 65536) :
    ({ hi, value := v } : Head).Valid := by
  unfold Head.Valid
  rw [hk]
  exact hv

theorem encode_fragment {hi : UInt8} (hk : hiType hi = .byteStream) (v : Bytes) :
    ({ hi, value := v } : Head).encode = hi :: be16 (v.length + 3) ++ v := by
  unfold Head.encode
  rw [hk]

/-- What is in a packet can be encoded. -/
theorem pack_valid (hp : Packable room xs) (hleft : left < 65536) (h : pack left xs = some (hs, ys)) :
    ∀ y ∈ hs, y.Valid := by
  induction xs generalizing left hs with
  | nil =>
    cases h
    simp
  | cons x xs ih =>
    have hwhole (hfit : x.size ≤ left) : x.whole.Valid := by
      unfold Parcel.whole
      cases hb : x.ofBody with
      | true =>
        rw [x.size_body hb] at hfit
        rw [if_pos rfl]
        exact valid_fragment rfl (by omega)
      | false => exact (hp.fits x List.mem_cons_self hb).1
    rcases pack_cases h with ⟨hfit, -, rfl, -⟩ | ⟨hfit, -, gs, hgs, rfl⟩ | ⟨hlt, -, -, rfl, -⟩
      | ⟨-, -, rfl, -⟩
    · simpa using hwhole hfit
    · rw [List.forall_mem_cons]
      exact ⟨hwhole hfit, ih hp.tail (by omega) hgs⟩
    · intro y hy
      rw [List.mem_singleton.1 hy]
      refine valid_fragment rfl ?_
      rw [List.length_take]
      omega
    · simp

/-! ## All packets -/

theorem drain_valid {n : Nat} {pk : List (List Head)} (hp : Packable room xs) (hroom : room < 65536)
    (h : drain room n xs = some pk) : ∀ hs ∈ pk, ∀ y ∈ hs, y.Valid := by
  induction n generalizing xs pk with
  | zero =>
    cases xs with
    | nil =>
      cases h
      simp
    | cons x xs => cases h
  | succ n ih =>
    cases xs with
    | nil =>
      cases h
      simp
    | cons x xs =>
      rw [drain] at h
      obtain ⟨⟨hs, ys⟩, hpack, h⟩ := Option.bind_eq_some_iff.1 h
      obtain ⟨pk', hpk, rfl⟩ := Option.map_eq_some_iff.1 h
      rw [List.forall_mem_cons]
      exact ⟨pack_valid hp hroom hpack, ih (pack_packable hp hpack) hpk⟩

theorem drain_of_not_wedged (hroom : 4 ≤ room) (hp : Packable room xs) (h : ¬ Wedged room room xs) :
    ∃ n pk, drain room n xs = some pk := by
  induction hw : weight xs using Nat.strong_induction_on generalizing xs with
  | _ w ih =>
    cases xs with
    | nil => exact ⟨0, [], rfl⟩
    | cons x xs =>
      cases hpack : pack room (x :: xs) with
      | none => exact absurd (wedged_of_pack hp hpack) h
      | some r =>
        obtain ⟨hs, ys⟩ := r
        have hless := pack_lighter hroom hp hpack
        rw [wedged_pack (by omega) hp hpack] at h
        obtain ⟨n, pk, hpk⟩ := ih _ (by omega) (pack_packable hp hpack) h rfl
        refine ⟨n + 1, hs :: pk, ?_⟩
        rw [drain, hpack, Option.bind_some]
        dsimp only
        rw [hpk, Option.map_some]

theorem drain_of_wedged (hroom : 3 ≤ room) (hp : Packable room xs) (h : Wedged room room xs) (n : Nat) :
    drain room n xs = none := by
  induction n generalizing xs with
  | zero =>
    cases xs with
    | nil => exact h.elim
    | cons x xs => rfl
  | succ n ih =>
    cases xs with
    | nil => exact h.elim
    | cons x xs =>
      rw [drain]
      cases hpack : pack room (x :: xs) with
      | none => rfl
      | some r =>
        obtain ⟨hs, ys⟩ := r
        rw [wedged_pack hroom hp hpack] at h
        rw [Option.bind_some]
        dsimp only
        rw [ih (pack_packable hp hpack) h, Option.map_none]

/-! ## What the receiver makes of them -/

/-- What is still to come, behind the bytes of a body that has begun. -/
def completed : Option Gathered → List Parcel → List Head
  | some g, x :: xs => { x.head with value := g.value ++ x.head.value } :: xs.map Parcel.head
  | _, xs => xs.map Parcel.head

/-- What has been queued and what is still to come. -/
def Intake.due (i : Intake) (xs : List Parcel) : List Head :=
  i.queue.map Item.head ++ completed i.body xs

/-- The buffer of a body is not much larger than the body or its announced length. -/
def Gathered.Slim (g : Gathered) : Prop := g.room < 2147483648 ∨ g.room ≤ g.value.length + 75776

/-- The receiver is ready for the parcels. -/
structure Awaits (i : Intake) (xs : List Parcel) : Prop where
  begun : ∀ g, i.body = some g → g.Slim ∧ ∃ x ys, xs = x :: ys ∧ x.ofBody = true ∧
    g.value.length + x.head.value.length < 2147483648
  modest : i.body = none → Modest i.hint xs
  small : ∀ x ∈ xs, x.ofBody = true → x.head.value.length < 2147483648

/-- A fragment of a body, the last or not. -/
theorem Awaits.fragment (h : Awaits i (x :: xs)) (hx : x.ofBody = true) {v : Bytes}
    (hv : v.length < 65536) (hle : v.length ≤ x.head.value.length) {y : Head} :
    ¬ i.Refuses y ∧ ((i.current v.length).add v).Slim ∧ ((i.current v.length).add v).whole = true ∧
      (i.current v.length).value.length + x.head.value.length < 2147483648 := by
  obtain ⟨hbegun, hmodest, hsmall⟩ := h
  have hfacts : (i.current v.length).Slim ∧
      (i.current v.length).value.length + x.head.value.length < 2147483648 := by
    cases hb : i.body with
    | none =>
      have hm := hmodest hb
      rw [Modest, if_pos hx] at hm
      have hs := hsmall x List.mem_cons_self hx
      unfold Intake.current
      rw [hb]
      dsimp only [Option.getD_none]
      refine ⟨?_, by simpa using hs⟩
      unfold Gathered.Slim obexObjectAllocationtreshold
      dsimp only
      by_cases h0 : i.hint = 0
      · rw [if_pos h0]
        simp only [List.length_nil]
        omega
      · rw [if_neg h0]
        exact .inl hm
    | some g =>
      obtain ⟨hslim, x', ys, heq, -, hlt⟩ := hbegun g hb
      cases heq
      unfold Intake.current
      rw [hb]
      exact ⟨hslim, hlt⟩
  obtain ⟨hslim, hlt⟩ := hfacts
  have hslim' : ((i.current v.length).add v).Slim := by
    unfold Gathered.Slim Gathered.add obexObjectAllocationtreshold at *
    dsimp only
    rw [List.length_append]
    split <;> omega
  refine ⟨?_, hslim', ?_, hlt⟩
  · rintro ⟨-, hb, hge⟩
    have hm := hmodest hb
    rw [Modest, if_pos hx] at hm
    omega
  · unfold Gathered.Slim at hslim'
    refine decide_eq_true ?_
    have hlen : ((i.current v.length).add v).value.length = (i.current v.length).value.length +
      v.length := by
      simp [Gathered.add]
    omega

theorem Awaits.plain (h : Awaits i (x :: xs)) (hx : x.ofBody = false) :
    i.body = none ∧ Awaits (i.put x.head) xs ∧ (i.put x.head).due xs = i.due (x :: xs) := by
  obtain ⟨hbegun, hmodest, hsmall⟩ := h
  have hnone : i.body = none := by
    cases hb : i.body with
    | none => rfl
    | some g =>
      obtain ⟨-, x', ys, heq, hx', -⟩ := hbegun g hb
      cases heq
      rw [hx] at hx'
      cases hx'
  have hm := hmodest hnone
  rw [Modest, hx, if_neg (by simp)] at hm
  refine ⟨hnone, ⟨fun g hg => ?_, fun _ => hm, fun y hy => hsmall y (List.mem_cons_of_mem _ hy)⟩, ?_⟩
  · exact absurd (hnone.symm.trans hg) (by simp)
  · unfold Intake.due
    simp [Intake.put, hnone, completed]

theorem Intake.step_of {h : Head} (hr : ¬ i.Refuses h) : Intake.step i h = some (i.take h) := if_neg hr

/-- A parcel that is sent whole. -/
theorem Awaits.whole (hp : Packable room (x :: xs)) (h : Awaits i (x :: xs)) (hfit : x.size ≤ left)
    (hleft : left < 65536) : ∃ i', Intake.step i x.whole = some i' ∧ Awaits i' xs ∧ i'.due xs = i.due
    (x :: xs) ∧
      ((∀ y ∈ i.queue, y.whole = true) → ∀ y ∈ i'.queue, y.whole = true) := by
  cases hx : x.ofBody with
  | false =>
    obtain ⟨hnone, hawaits, hdue⟩ := h.plain hx
    obtain ⟨-, hplain, -⟩ := hp.fits x List.mem_cons_self hx
    have hwhole : x.whole = x.head := by simp [Parcel.whole, hx]
    have hr : ¬ i.Refuses x.head := fun hr => by simp [hr.1] at hplain
    refine ⟨i.put x.head, ?_, hawaits, hdue, fun hw => ?_⟩
    · rw [hwhole, Intake.step_of hr, Intake.take, hplain]
      rfl
    · simpa [Intake.put, or_imp, forall_and] using hw
  | true =>
    rw [x.size_body hx] at hfit
    have hwhole : x.whole = { hi := obexHdrBodyEnd, value := x.head.value } :=
      by simp [Parcel.whole, hx]
    have hbody : ({ hi := obexHdrBodyEnd, value := x.head.value } : Head).isBody = true :=
      by simp [Head.isBody]
    obtain ⟨hr, -, hend, -⟩ := h.fragment hx (v := x.head.value) (by omega) (Nat.le_refl _)
    have hhi : x.head.hi = obexHdrBody := of_decide_eq_true hx
    rw [hwhole]
    refine ⟨_, Intake.step_of hr, ⟨fun g hg => ?_, fun _ => modest_of_no_body (hp.no_body hx),
      fun y hy hb => ?_⟩, ?_, fun hw => ?_⟩
    · simp [Intake.take, hbody, Intake.gather] at hg
    · rw [hp.no_body hx y hy] at hb
      cases hb
    · unfold Intake.due Intake.take
      rw [if_pos hbody]
      simp only [Intake.gather, if_pos, List.map_append, List.map_cons, List.map_nil, List.append_assoc,
        List.singleton_append]
      congr 1
      cases hb : i.body with
      | none => simp [completed, Intake.current, hb, Gathered.add, ← hhi]
      | some g => simp [completed, Intake.current, hb, Gathered.add, ← hhi]
    · unfold Intake.take
      rw [if_pos hbody]
      simpa [Intake.gather, or_imp, forall_and, hend] using hw

/-- A body that is cut. -/
theorem Awaits.part (h : Awaits i (x :: xs)) (hx : x.ofBody = true) {n : Nat} (hn : n < 65536)
    (hlt : n ≤ x.head.value.length) : ∃ i', Intake.step i (x.part n) = some i' ∧
    Awaits i' (x.rest n :: xs) ∧
      i'.due (x.rest n :: xs) = i.due (x :: xs) ∧ i'.queue = i.queue := by
  have hlen : (x.head.value.take n).length = n := List.length_take_of_le hlt
  have hbody : (x.part n).isBody = true := by simp [Head.isBody, Parcel.part]
  have hhi : x.head.hi = obexHdrBody := of_decide_eq_true hx
  have hdistinct : obexHdrBody ≠ obexHdrBodyEnd := by decide
  obtain ⟨hr, hslim, -, hsum⟩ := h.fragment hx (v := x.head.value.take n) (by omega) (by omega)
  have htake : i.take (x.part n) =
    { i with body := some ((i.current n).add (x.head.value.take n)) } := by
    unfold Intake.take Intake.gather
    rw [if_pos hbody]
    simp [Parcel.part, hdistinct, hlen]
  rw [hlen] at hslim hsum
  refine ⟨_, Intake.step_of hr, ⟨fun g hg => ?_, fun hn => ?_, fun y hy hb => ?_⟩, ?_, ?_⟩
  · rw [htake] at hg
    cases hg
    refine ⟨hslim, _, _, rfl, hx, ?_⟩
    simp only [Gathered.add, Parcel.rest, List.length_append, List.length_take, List.length_drop]
    omega
  · rw [htake] at hn
    cases hn
  · rcases List.mem_cons.1 hy with rfl | hy
    · have := h.small x List.mem_cons_self hx
      simp only [Parcel.rest, List.length_drop]
      omega
    · exact h.small y (List.mem_cons_of_mem _ hy) hb
  · rw [htake]
    unfold Intake.due
    dsimp only
    congr 1
    cases hb : i.body with
    | none => simp [completed, Intake.current, hb, Gathered.add, Parcel.rest]
    | some g => simp [completed, Intake.current, hb, Gathered.add, Parcel.rest]
  · rw [htake]

theorem pack_intake (hp : Packable room xs) (hleft : left < 65536) (h : pack left xs = some (hs, ys))
    (hi : Awaits i xs) : ∃ i', hs.foldlM Intake.step i = some i' ∧ Awaits i' ys ∧ i'.due ys = i.due xs ∧
      ((∀ y ∈ i.queue, y.whole = true) → ∀ y ∈ i'.queue, y.whole = true) := by
  induction xs generalizing left hs i with
  | nil =>
    cases h
    exact ⟨i, rfl, hi, rfl, id⟩
  | cons x xs ih =>
    rcases pack_cases h with ⟨hfit, -, rfl, rfl⟩ | ⟨hfit, -, gs, hgs, rfl⟩ | ⟨hlt, hb, h3, rfl, rfl⟩ |
      ⟨-, -, rfl, rfl⟩
    · obtain ⟨i', hstep, hawaits, hdue, hwhole⟩ := hi.whole hp hfit hleft
      refine ⟨i', ?_, hawaits, hdue, hwhole⟩
      rw [List.foldlM_cons, hstep]
      rfl
    · obtain ⟨i', hstep, hawaits, hdue, hwhole⟩ := hi.whole hp hfit hleft
      obtain ⟨i'', hfold, hawaits', hdue', hwhole'⟩ := ih hp.tail (by omega) hgs hawaits
      refine ⟨i'', ?_, hawaits', hdue'.trans hdue, fun hw => hwhole' (hwhole hw)⟩
      rw [List.foldlM_cons, hstep]
      exact hfold
    · rw [x.size_body hb] at hlt
      obtain ⟨i', hstep, hawaits, hdue, hqueue⟩ := hi.part hb (n := left - 3) (by omega) (by omega)
      refine ⟨i', ?_, hawaits, hdue, fun hw => by rwa [hqueue]⟩
      rw [List.foldlM_cons, hstep]
      rfl
    · exact ⟨i, rfl, hi, rfl, id⟩

/-- The receiver has all that was sent, in order. -/
theorem drain_intake {n : Nat} {pk : List (List Head)} (hp : Packable room xs) (hroom : room < 65536)
    (h : drain room n xs = some pk) (hi : Awaits i xs) (hw : ∀ y ∈ i.queue, y.whole = true) :
    ∃ i', pk.flatten.foldlM Intake.step i = some i' ∧ i'.queue.map Item.head = i.due xs ∧
      ∀ y ∈ i'.queue, y.whole = true := by
  induction n generalizing xs pk i with
  | zero =>
    cases xs with
    | nil =>
      cases h
      refine ⟨i, rfl, ?_, hw⟩
      unfold Intake.due
      cases i.body <;> simp [completed]
    | cons x xs => cases h
  | succ n ih =>
    cases xs with
    | nil =>
      cases h
      refine ⟨i, rfl, ?_, hw⟩
      unfold Intake.due
      cases i.body <;> simp [completed]
    | cons x xs =>
      rw [drain] at h
      obtain ⟨⟨hs, ys⟩, hpack, h⟩ := Option.bind_eq_some_iff.1 h
      obtain ⟨pk', hpk, rfl⟩ := Option.map_eq_some_iff.1 h
      obtain ⟨i', hfold, hawaits, hdue, hwhole⟩ := pack_intake hp hroom hpack hi
      obtain ⟨i'', hfold', hqueue, hw'⟩ := ih (pack_packable hp hpack) hpk hawaits (hwhole hw)
      refine ⟨i'', ?_, hqueue.trans hdue, hw'⟩
      rw [List.flatten_cons, List.foldlM_append, hfold]
      exact hfold'

/-! ## A length that is refused -/

theorem pack_refused (hp : Packable room xs) (h : pack left xs = some (hs, ys)) (hn : i.body = none)
    (hm : ¬ Modest i.hint xs) : hs.foldlM Intake.step i = none ∨
      ∃ i', hs.foldlM Intake.step i = some i' ∧ i'.body = none ∧ ¬ Modest i'.hint ys := by
  induction xs generalizing left hs i with
  | nil => exact absurd trivial hm
  | cons x xs ih =>
    rw [Modest] at hm
    cases hx : x.ofBody with
    | true =>
      rw [if_pos hx] at hm
      have hrefused (y : Head) (hy : y.isBody = true) : Intake.step i y = none :=
        if_pos ⟨hy, hn, Nat.le_of_not_lt hm⟩
      have hwhole : x.whole.isBody = true := by simp [Parcel.whole, hx, Head.isBody]
      have hpart (n : Nat) : (x.part n).isBody = true := by simp [Parcel.part, Head.isBody]
      rcases pack_cases h with ⟨-, -, rfl, -⟩ | ⟨-, -, gs, -, rfl⟩ | ⟨-, -, -, rfl, -⟩ | ⟨-, hb, -⟩
      · rw [List.foldlM_cons, hrefused _ hwhole]
        exact .inl rfl
      · rw [List.foldlM_cons, hrefused _ hwhole]
        exact .inl rfl
      · rw [List.foldlM_cons, hrefused _ (hpart _)]
        exact .inl rfl
      · rw [hx] at hb
        cases hb
    | false =>
      rw [hx, if_neg (by simp)] at hm
      obtain ⟨-, hplain, -⟩ := hp.fits x List.mem_cons_self hx
      have hwhole : x.whole = x.head := by simp [Parcel.whole, hx]
      have hr : ¬ i.Refuses x.head := fun hr => by simp [hr.1] at hplain
      have hstep : Intake.step i x.whole = some (i.put x.head) := by
        rw [hwhole, Intake.step_of hr, Intake.take, hplain]
        rfl
      rcases pack_cases h with ⟨-, -, rfl, rfl⟩ | ⟨-, -, gs, hgs, rfl⟩ | ⟨-, hb, -⟩ | ⟨-, -, rfl, rfl⟩
      · rw [List.foldlM_cons, hstep]
        exact .inr ⟨_, rfl, hn, hm⟩
      · rw [List.foldlM_cons, hstep]
        exact ih hp.tail hgs hn hm
      · rw [hx] at hb
        cases hb
      · refine .inr ⟨i, rfl, hn, ?_⟩
        rwa [Modest, hx, if_neg (by simp)]

theorem drain_refused {n : Nat} {pk : List (List Head)} (hp : Packable room xs)
    (h : drain room n xs = some pk) (hn : i.body = none) (hm : ¬ Modest i.hint xs) :
    pk.flatten.foldlM Intake.step i = none := by
  induction n generalizing xs pk i with
  | zero =>
    cases xs with
    | nil => exact absurd trivial hm
    | cons x xs => cases h
  | succ n ih =>
    cases xs with
    | nil => exact absurd trivial hm
    | cons x xs =>
      rw [drain] at h
      obtain ⟨⟨hs, ys⟩, hpack, h⟩ := Option.bind_eq_some_iff.1 h
      obtain ⟨pk', hpk, rfl⟩ := Option.map_eq_some_iff.1 h
      rw [List.flatten_cons, List.foldlM_append]
      rcases pack_refused hp hpack hn hm with hnone | ⟨i', hfold, hn', hm'⟩
      · rw [hnone]
        rfl
      · rw [hfold]
        exact ih (pack_packable hp hpack) hpk hn' hm'

end OpenObex
