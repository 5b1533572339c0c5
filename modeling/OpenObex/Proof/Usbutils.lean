import Mathlib.Data.Finite.Prod
import Mathlib.Data.Int.Interval
import Mathlib.Order.Interval.Finset.Defs
import OpenObex.Lib.Walk
import OpenObex.Model.Usbutils

/-!
# The descriptor walks end

The offsets a walk looks at are those of `descTurn`: a descriptor leads to the next one by its length
byte, as the element type of the walk reads it. So the loop of either walk ends inside the block iff
no descriptor that is reached is cut off, and none leads back to itself (`settles_iff`).
-/

namespace OpenObex

open Mem Walk Relation

/-- What the loops inspect of a descriptor at `o` is inside the block. -/
def Readable (block : Bytes) (o : Int) : Prop :=
  0 ≤ o ∧ o + 1 < block.length ∧ (block[(o + 1).toNat]? = some 0x24 → o + 2 < block.length)

instance (block : Bytes) (o : Int) : Decidable (Readable block o) := inferInstanceAs (Decidable (_ ∧ _))

/-- Where the descriptor at `o` leads to. -/
def descTurn (elem : UInt8 → Int) (block : Bytes) (o : Int) : Turn Int :=
  if block.length ≤ o then .done
  else if Readable block o then
    match block[o.toNat]? with
    | some length => .on (o + elem length)
    | none => .stuck
  else .stuck

/-- No descriptor that is reached is cut off or leads back to itself. -/
def Traversable (elem : UInt8 → Int) (block : Bytes) : Prop :=
  ∀ o, Reaches (descTurn elem block) 0 o →
    descTurn elem block o ≠ .stuck ∧ ¬ TransGen (Goes (descTurn elem block)) o o

/-- With enough fuel `run` comes to the result `r`. -/
def Settles {α : Type} (run : Nat → Except Stop α) (r : α) : Prop := ∃ n₀, ∀ n, n₀ ≤ n → run n = .ok r

/-! ## Reading -/

section

variable {block : Bytes}

theorem loadByte_ok {o : Int} {b : UInt8} (h : loadByte block o = .ok b) :
    0 ≤ o ∧ o < block.length ∧ block[o.toNat]? = some b := by
  cases o with
  | ofNat o =>
    unfold loadByte at h
    cases hb : block[o]? with
    | none =>
      simp only [hb] at h
      cases h
    | some c =>
      simp only [hb] at h
      cases h
      have hlt := (List.getElem?_eq_some_iff.1 hb).1
      refine ⟨Int.natCast_nonneg o, ?_, hb⟩
      exact Int.ofNat_lt.2 hlt
  | negSucc o => cases h

theorem loadByte_of_get {o : Int} {b : UInt8} (h : 0 ≤ o) (hb : block[o.toNat]? = some b) :
    loadByte block o = .ok b := by
  obtain ⟨k, rfl⟩ := Int.eq_ofNat_of_zero_le h
  show (match block[k]? with | some b => Except.ok b | none => _) = _
  rw [show block[k]? = some b from hb]

theorem exists_loadByte {o : Int} (h : 0 ≤ o) (hlt : o < block.length) :
    ∃ b, loadByte block o = .ok b ∧ block[o.toNat]? = some b := by
  have hk : o.toNat < block.length := by omega
  exact ⟨_, loadByte_of_get h (List.getElem?_eq_getElem hk), List.getElem?_eq_getElem hk⟩

theorem bind_ok {α β : Type} {x : Except Stop α} {f : α → Except Stop β} {b : β} (h : x >>= f = .ok b) :
    ∃ a, x = .ok a ∧ f a = .ok b := by
  cases x with
  | error e => cases h
  | ok a => exact ⟨a, rfl, h⟩

end

/-! ## One round -/

theorem char_inj {a b : UInt8} : char a = char b ↔ a = b := by
  constructor
  · intro h
    have heq : a.toInt8 = b.toInt8 := Int8.toInt_inj.1 h
    rw [← UInt8.toUInt8_toInt8 a, heq, UInt8.toUInt8_toInt8]
  · exact fun h => h ▸ rfl

theorem char_eq (b : UInt8) : char b = usbDtCsInterface ↔ b = 0x24 := char_inj (b := 0x24)

theorem unsignedChar_eq (b : UInt8) : unsignedChar b = usbDtCsInterface ↔ b = 0x24 := by
  constructor
  · exact fun h => UInt8.toNat_inj.1 (Int.ofNat_inj.1 h)
  · exact fun h => h ▸ rfl

section

variable {σ : Type} {elem : UInt8 → Int} {visit : Int → Int → Int → σ → Except Stop σ}
  {block : Bytes} {o t : Int} {st : σ}

theorem goes_desc : Goes (descTurn elem block) o t ↔
    o < block.length ∧ Readable block o ∧ ∃ b, block[o.toNat]? = some b ∧ t = o + elem b := by
  unfold Goes descTurn
  by_cases hend : block.length ≤ o
  · rw [if_pos hend]
    constructor
    · intro h
      cases h
    · rintro ⟨hlt, -⟩
      omega
  · rw [if_neg hend]
    by_cases hr : Readable block o
    · have hlt : o.toNat < block.length := by
        have := hr.1
        omega
      rw [if_pos hr, List.getElem?_eq_getElem hlt]
      constructor
      · intro h
        injection h with h
        exact ⟨by omega, hr, _, rfl, h.symm⟩
      · rintro ⟨-, -, b, hb, rfl⟩
        cases hb
        rfl
    · rw [if_neg hr]
      constructor
      · intro h
        cases h
      · rintro ⟨-, hr', -⟩
        exact absurd hr' hr

theorem descTurn_done : descTurn elem block o = .done ↔ block.length ≤ o := by
  unfold descTurn
  by_cases hend : block.length ≤ o
  · rw [if_pos hend]
    exact ⟨fun _ => hend, fun _ => rfl⟩
  · rw [if_neg hend]
    refine ⟨fun h => ?_, fun h => absurd h hend⟩
    split at h
    · split at h <;> cases h
    · cases h

/-- A descriptor is visited where it is class-specific; otherwise it is skipped. -/
theorem descSwitch_ok (he : ∀ b, elem b = usbDtCsInterface ↔ b = 0x24) {buflen : Int} {st' : σ}
    (h : descSwitch elem visit block o buflen st = .ok st') : o + 1 < block.length ∧
      (block[(o + 1).toNat]? = some 0x24 → o + 2 < block.length) ∧
      (block[(o + 1).toNat]? ≠ some 0x24 ∧ st' = st ∨ block[(o + 1).toNat]? = some 0x24 ∧
        ∃ sub, block[(o + 2).toNat]? = some sub ∧ visit o buflen (elem sub) st = .ok st') := by
  obtain ⟨ty, hty, h⟩ := bind_ok h
  obtain ⟨-, hlt₁, hty⟩ := loadByte_ok hty
  by_cases hcs : ty = 0x24
  · rw [if_neg (fun hne => hne ((he ty).2 hcs))] at h
    obtain ⟨sub, hsub, hvisit⟩ := bind_ok h
    obtain ⟨-, hlt₂, hsub⟩ := loadByte_ok hsub
    rw [hcs] at hty
    exact ⟨hlt₁, fun _ => hlt₂, .inr ⟨hty, sub, hsub, hvisit⟩⟩
  · rw [if_pos (fun heq => hcs ((he ty).1 heq))] at h
    cases h
    have hne : block[(o + 1).toNat]? ≠ some 0x24 := by
      rw [hty]
      exact fun heq => hcs (Option.some.inj heq)
    exact ⟨hlt₁, fun heq => absurd heq hne, .inl ⟨hne, rfl⟩⟩

theorem exists_descSwitch (he : ∀ b, elem b = usbDtCsInterface ↔ b = 0x24) {buflen : Int}
    (hr : Readable block o)
    (hv : ∀ sub, o + 2 < block.length → ∃ st', visit o buflen sub st = .ok st') :
    ∃ st', descSwitch elem visit block o buflen st = .ok st' := by
  obtain ⟨hpos, hlt₁, hlt₂⟩ := hr
  obtain ⟨ty, hty, hget⟩ := exists_loadByte (by omega) hlt₁
  unfold descSwitch
  rw [hty]
  show ∃ st', (if elem ty ≠ usbDtCsInterface then Except.ok st else _) = Except.ok st'
  by_cases hcs : ty = 0x24
  · rw [if_neg (fun hne => hne ((he ty).2 hcs))]
    rw [hcs] at hget
    obtain ⟨sub, hsub, -⟩ := exists_loadByte (by omega) (hlt₂ hget)
    obtain ⟨st', hst'⟩ := hv (elem sub) (hlt₂ hget)
    rw [hsub]
    exact ⟨st', hst'⟩
  · rw [if_pos (fun heq => hcs ((he ty).1 heq))]
    exact ⟨st, rfl⟩

/-! ## The loop -/

theorem descLoop_done {n : Nat} (h : block.length ≤ o) :
    descLoop elem visit block (n + 1) o (block.length - o) st = .ok st :=
  if_neg (by omega)

/-- A loop that is through has walked to the end. -/
theorem descLoop_ends (he : ∀ b, elem b = usbDtCsInterface ↔ b = 0x24) {n : Nat} {r : σ}
    (h : descLoop elem visit block n o (block.length - o) st = .ok r) :
    Walk.Ends (descTurn elem block) o := by
  induction n generalizing o st with
  | zero => cases h
  | succ n ih =>
    by_cases hend : block.length ≤ o
    · exact ⟨o, .refl, descTurn_done.2 hend⟩
    · unfold descLoop at h
      rw [if_pos (by omega)] at h
      obtain ⟨st', hround, h⟩ := bind_ok h
      obtain ⟨length, hlength, h⟩ := bind_ok h
      obtain ⟨hlt₁, hlt₂, -⟩ := descSwitch_ok he hround
      obtain ⟨hpos, hlt, hb⟩ := loadByte_ok hlength
      rw [Int.sub_sub] at h
      obtain ⟨t, ht, hdone⟩ := ih h
      exact ⟨t, .head (goes_desc.2 ⟨hlt, ⟨hpos, hlt₁, hlt₂⟩, _, hb, rfl⟩) ht, hdone⟩

theorem exists_descLoop (he : ∀ b, elem b = usbDtCsInterface ↔ b = 0x24)
    (hv : ∀ (o : Int) st sub, 0 ≤ o → o + 2 < block.length → ∃ st', visit o (block.length - o) sub st =
    .ok st') (h : Walk.Ends (descTurn elem block) o) :
    ∃ r, Settles (fun n => descLoop elem visit block n o (block.length - o) st) r := by
  obtain ⟨t, ht, hdone⟩ := h
  induction ht using ReflTransGen.head_induction_on generalizing st with
  | refl =>
    refine ⟨st, 1, fun n hn => ?_⟩
    obtain ⟨n, rfl⟩ := Nat.exists_eq_add_of_le' hn
    exact descLoop_done (descTurn_done.1 hdone)
  | @head o u hgo hrest ih =>
    obtain ⟨hlt, hr, b, hb, rfl⟩ := goes_desc.1 hgo
    obtain ⟨st', hround⟩ := exists_descSwitch he hr (fun sub => hv o st sub hr.1)
    obtain ⟨r, n₀, hrun⟩ :
      ∃ r, Settles (fun n => descLoop elem visit block n _ (block.length - _) st') r := ih
    refine ⟨r, n₀ + 1, fun n hn => ?_⟩
    obtain ⟨n, rfl⟩ := Nat.exists_eq_add_of_le' (Nat.le_of_add_left_le hn)
    show (if (block.length : Int) - o > 0 then _ else _) = _
    rw [if_pos (by omega), hround]
    show (loadByte block o >>= fun length => _) = _
    rw [loadByte_of_get hr.1 hb]
    show descLoop elem visit block n (o + elem b) (block.length - o - elem b) st' = _
    rw [Int.sub_sub]
    exact hrun n (by omega)

/-- Every offset is the start or behind a byte of the block. -/
theorem finite_reaches : {t | Reaches (descTurn elem block) o t}.Finite := by
  have : Finite UInt8 := Finite.of_injective UInt8.toFin fun _ _ => UInt8.toFin_inj.1
  refine Set.Finite.subset (((Set.finite_Icc (0 : Int) block.length).image2 (fun a b => a + elem b)
    (Set.toFinite (Set.univ : Set UInt8))).insert o) ?_
  intro t ht
  cases ht with
  | refl => exact .inl rfl
  | tail _ hgo =>
    obtain ⟨hlt, hr, b, -, rfl⟩ := goes_desc.1 hgo
    exact .inr ⟨_, ⟨hr.1, by omega⟩, b, trivial, rfl⟩

theorem ends_desc : Walk.Ends (descTurn elem block) 0 ↔ Traversable elem block :=
  (ends_iff finite_reaches).trans
    ⟨fun h o ho => ⟨h.1 o ho, h.2 o ho⟩, fun h => ⟨fun o ho => (h o ho).1, fun o ho => (h o ho).2⟩⟩

/-- The loop ends inside the block iff the descriptors are traversable. -/
theorem settles_iff (he : ∀ b, elem b = usbDtCsInterface ↔ b = 0x24)
    (hv : ∀ (o : Int) st sub, 0 ≤ o → o + 2 < block.length → ∃ st', visit o (block.length - o) sub st =
      .ok st') :
    (∃ r, Settles (fun n => descLoop elem visit block n 0 block.length st) r) ↔
    Traversable elem block := by
  have hstart : (block.length : Int) - 0 = block.length := Int.sub_zero _
  constructor
  · rintro ⟨r, n₀, hrun⟩
    exact ends_desc.1 (descLoop_ends he (by rw [hstart]; exact hrun n₀ (Nat.le_refl _)))
  · intro h
    rw [← hstart]
    exact exists_descLoop he hv (ends_desc.2 h)

end

/-- With unsigned lengths a descriptor leads back to itself only by a length of 0. -/
theorem traversable_unsignedChar {block : Bytes} : Traversable unsignedChar block ↔
    ∀ o, Reaches (descTurn unsignedChar block) 0 o → o < block.length →
      Readable block o ∧ block[o.toNat]? ≠ some 0 := by
  constructor
  · intro h o ho hlt
    obtain ⟨hstuck, hcycle⟩ := h o ho
    have hr : Readable block o := by
      by_contra hr
      exact hstuck ((if_neg (by omega)).trans (if_neg hr))
    refine ⟨hr, fun hzero => hcycle (.single (goes_desc.2 ⟨hlt, hr, 0, hzero, ?_⟩))⟩
    exact (Int.add_zero o).symm
  · intro h o ho
    constructor
    · intro hstuck
      by_cases hlt : o < block.length
      · obtain ⟨hr, -⟩ := h o ho hlt
        have hget := List.getElem?_eq_getElem (show o.toNat < block.length by have := hr.1; omega)
        cases hstuck.symm.trans (goes_desc.2 ⟨hlt, hr, _, hget, rfl⟩)
      · cases hstuck.symm.trans (descTurn_done.2 (Int.not_lt.1 hlt))
    · refine acyclic_of_lt (fun a b ha hab => ?_) ho
      obtain ⟨hlt, -, c, hc, rfl⟩ := goes_desc.1 hab
      have hne : c.toNat ≠ 0 := by
        intro hzero
        have hc₀ : c = 0 := UInt8.toNat_inj.1 hzero
        exact (h a ha hlt).2 (hc₀ ▸ hc)
      show a < a + (c.toNat : Int)
      omega

/-! ## The service -/

/-- A service identification descriptor at `o`, with all its 22 bytes. -/
def IsService (block : Bytes) (o : Nat) : Prop :=
  block[o + 1]? = some 0x24 ∧ block[o + 2]? = some 0x19 ∧ o + 22 ≤ block.length

/-- Such a descriptor is at `f`, and no other one is on the way to it from `o`. -/
def FirstService (block : Bytes) (o : Int) (f : Nat) : Prop :=
  Reaches (descTurn char block) o f ∧ IsService block f ∧
    ∀ g : Nat, Reaches (descTurn char block) o g → TransGen (Goes (descTurn char block)) g f →
      ¬ IsService block g

/-- The service that the descriptor at `o` describes. -/
def Describes (block : Bytes) (o : Nat) (service : ObexUsbIntfService) : Prop :=
  block[o + 3]? = some service.role ∧ slice block (o + 4) 16 = service.uuid ∧
    ∃ high low, block[o + 20]? = some high ∧ block[o + 21]? = some low ∧
      service.version.toNat = ofBe16 high low

/-- The version is not changed by the signs of its bytes. -/
def PlainVersion (block : Bytes) (o : Nat) : Prop :=
  ∀ high low, block[o + 20]? = some high → block[o + 21]? = some low → low < 128 ∨ high = 0xff

theorem toNat_low : ∀ b : Fin 256, (UInt8.ofFin b).toInt8.toInt32.toUInt32.toUInt16.toNat =
    if b < 128 then b.val else 0xff00 ||| b.val := by decide +kernel

theorem toNat_high : ∀ b : Fin 256,
    ((UInt8.ofFin b).toInt8.toInt32 <<< 8).toUInt32.toUInt16.toNat = b.val <<< 8 ∧
      b.val <<< 8 ||| 0xff00 = 0xff00 := by decide +kernel

/-- A low byte of 128 or more sets all bits of the high byte. -/
theorem toNat_serviceVersion (high low : UInt8) : (serviceVersion high low).toNat =
    if low < 128 then ofBe16 high low else ofBe16 0xff low := by
  have hlow := toNat_low low.toFin
  obtain ⟨hhigh, hones⟩ := toNat_high high.toFin
  unfold serviceVersion
  rw [Int32.toUInt32_or, UInt32.toUInt16_or, UInt16.toNat_or]
  rw [UInt8.ofFin_toFin] at hlow hhigh
  rw [hlow, hhigh]
  by_cases hneg : low < 128
  · rw [if_pos (show low.toFin < 128 from hneg), if_pos hneg]
    show high.toNat <<< 8 ||| low.toNat = _
    rw [← Nat.shiftLeft_add_eq_or_of_lt low.toNat_lt, Nat.shiftLeft_eq]
    rfl
  · rw [if_neg (show ¬ low.toFin < 128 from hneg), if_neg hneg, ← Nat.or_assoc, hones]
    exact (Nat.shiftLeft_add_eq_or_of_lt low.toNat_lt 0xff).symm

theorem plain_iff {high low : UInt8} :
    (serviceVersion high low).toNat = ofBe16 high low ↔ low < 128 ∨ high = 0xff := by
  rw [toNat_serviceVersion]
  by_cases hlow : low < 128
  · rw [if_pos hlow]
    exact ⟨fun _ => .inl hlow, fun _ => rfl⟩
  · rw [if_neg hlow]
    constructor
    · intro h
      unfold ofBe16 at h
      have : (0xff : UInt8).toNat = high.toNat := by omega
      exact .inr (UInt8.toNat_inj.1 this.symm)
    · rintro (h | rfl)
      · exact absurd h hlow
      · rfl

section

variable {malloc : Nat → Bool} {block : Bytes} {o t : Int} {f : Nat}

theorem exists_readService (hlen : f + 22 ≤ block.length) : ∃ s high low, readService block f = .ok s ∧
    block[f + 3]? = some s.role ∧ slice block (f + 4) 16 = s.uuid ∧ block[f + 20]? = some high ∧
    block[f + 21]? = some low ∧ s.version = serviceVersion high low := by
  have hload (k : Nat) (hk : k < 22) : ∃ b, loadByte block ((f : Int) + k) = .ok b ∧ block[f + k]? =
    some b := by
    have hlt : (f : Int) + k < block.length := by omega
    obtain ⟨b, hb, hget⟩ := exists_loadByte (by omega) hlt
    exact ⟨b, hb, hget⟩
  obtain ⟨role, hrole, hrole'⟩ := hload 3 (by decide)
  obtain ⟨high, hhigh, hhigh'⟩ := hload 20 (by decide)
  obtain ⟨low, hlow, hlow'⟩ := hload 21 (by decide)
  have huuid : loadBytes block ((f : Int) + 4) 16 = .ok (slice block (f + 4) 16) := by
    show (if f + 4 + 16 ≤ block.length then _ else _) = _
    rw [if_pos (by omega)]
  let uuid := slice block (f + 4) 16
  refine ⟨⟨role, uuid, serviceVersion high low, uuid == wmcDefaultObexServerUuid⟩, high, low, ?_,
    hrole', rfl, hhigh', hlow', rfl⟩
  unfold readService
  rw [show (f : Int) + 3 = f + (3 : Nat) from rfl, hrole, huuid, show (f : Int) + 20 = f +
    (20 : Nat) from rfl, hhigh, show (f : Int) + 21 = f + (21 : Nat) from rfl, hlow]
  rfl

theorem exists_visitService (o : Int) (st : ServiceSearch) (sub : Int) (hpos : 0 ≤ o) :
    ∃ st', visitServiceDescriptor malloc block o (block.length - o) sub st = .ok st' := by
  obtain ⟨f, rfl⟩ := Int.eq_ofNat_of_zero_le hpos
  unfold visitServiceDescriptor
  split
  · split
    · exact ⟨_, rfl⟩
    · split
      · exact ⟨_, rfl⟩
      · split
        · obtain ⟨s, _, _, hs, -⟩ := exists_readService (show f + 22 ≤ block.length by omega)
          rw [hs]
          exact ⟨_, rfl⟩
        · exact ⟨_, rfl⟩
  · exact ⟨_, rfl⟩

/-- What a visit does: only a full service descriptor is looked at, and only while there is no
service. -/
theorem visitService_ok {st st' : ServiceSearch} {b : UInt8}
    (h : visitServiceDescriptor malloc block f (block.length - f) (char b) st = .ok st') :
    (b = 0x19 ∧ f + 22 ≤ block.length ∧ st.service = none ∧ malloc st.mallocs = true ∧
      ∃ s, readService block f = .ok s ∧ st'.service = some s) ∨
    (st' = st ∧ (b ≠ 0x19 ∨ block.length < f + 22 ∨ st.service.isSome)) ∨
    (st.service = none ∧ malloc st.mallocs = false) := by
  unfold visitServiceDescriptor at h
  by_cases hsub : b = 0x19
  · rw [if_pos (show char b = cdcObexServiceIdType by rw [hsub]; rfl)] at h
    by_cases hlen : f + 22 ≤ block.length
    · rw [if_neg (by omega)] at h
      cases hserv : st.service with
      | some x =>
        rw [hserv, if_pos (show (some x).isSome = true from rfl)] at h
        cases h
        exact .inr (.inl ⟨rfl, .inr (.inr rfl)⟩)
      | none =>
        rw [hserv, if_neg (by decide)] at h
        cases hm : malloc st.mallocs with
        | false => exact .inr (.inr ⟨rfl, rfl⟩)
        | true =>
          rw [hm, if_pos rfl] at h
          obtain ⟨s, hs, h⟩ := bind_ok h
          cases h
          exact .inl ⟨hsub, hlen, rfl, rfl, s, hs, rfl⟩
    · rw [if_pos (by omega)] at h
      cases h
      exact .inr (.inl ⟨rfl, .inr (.inl (Nat.lt_of_not_le hlen))⟩)
  · have hne : char b ≠ cdcObexServiceIdType := fun heq => hsub (char_inj (b := 0x19) |>.1 heq)
    rw [if_neg hne] at h
    cases h
    exact .inr (.inl ⟨rfl, .inl hsub⟩)

/-- What the walk from `o` on has to report. -/
def Reported (block : Bytes) (o : Int) (service : Option ObexUsbIntfService) : Prop :=
  (∃ f, FirstService block o f ∧ ∃ s, readService block f = .ok s ∧ service = some s) ∨
    ((∀ g : Nat, Reaches (descTurn char block) o g → ¬ IsService block g) ∧ service = none)

theorem Reported.skip {service : Option ObexUsbIntfService} (hgo : Goes (descTurn char block) o t)
    (hno : ∀ g : Nat, o = g → ¬ IsService block g) (h : Reported block t service) :
    Reported block o service := by
  have hstart {g : Nat} (hg : Reaches (descTurn char block) o g) :
      o = g ∨ Reaches (descTurn char block) t g := by
    cases hg.cases_head with
    | inl heq => exact .inl heq
    | inr hstep =>
      obtain ⟨u, hu, hrest⟩ := hstep
      rw [rightUnique_goes hgo hu]
      exact .inr hrest
  rcases h with ⟨f, ⟨hf, hserv, hfirst⟩, hs⟩ | ⟨hnone, hs⟩
  · refine .inl ⟨f, ⟨.head hgo hf, hserv, fun g hg hgf => ?_⟩, hs⟩
    rcases hstart hg with heq | hrest
    · exact hno g heq
    · exact hfirst g hrest hgf
  · refine .inr ⟨fun g hg => ?_, hs⟩
    rcases hstart hg with heq | hrest
    · exact hno g heq
    · exact hnone g hrest

/-- Once there is a service it stays; before, the loop reports the first one. -/
theorem descLoop_service {n : Nat} {st r : ServiceSearch}
    (h : descLoop char (visitServiceDescriptor malloc block) block n o (block.length - o) st = .ok r) :
    (st.service.isSome → r.service = st.service) ∧
      (st.service = none → malloc st.mallocs = true → Reported block o r.service) := by
  induction n generalizing o st with
  | zero => cases h
  | succ n ih =>
    by_cases hend : block.length ≤ o
    · rw [descLoop_done hend] at h
      cases h
      refine ⟨fun _ => rfl, fun hnone _ => .inr ⟨fun g hg hserv => ?_, hnone⟩⟩
      have hgo := reaches_done (descTurn_done.2 hend) hg
      have := hserv.2.2
      omega
    · have hends := descLoop_ends char_eq h
      unfold descLoop at h
      rw [if_pos (by omega)] at h
      obtain ⟨st', hround, h⟩ := bind_ok h
      obtain ⟨length, hlength, h⟩ := bind_ok h
      obtain ⟨hlt₁, hlt₂, hwhat⟩ := descSwitch_ok char_eq hround
      obtain ⟨hpos, hlt, hb⟩ := loadByte_ok hlength
      rw [Int.sub_sub] at h
      have hgo : Goes (descTurn char block) o (o + char length) :=
        goes_desc.2 ⟨hlt, ⟨hpos, hlt₁, hlt₂⟩, _, hb, rfl⟩
      obtain ⟨hstays, hfinds⟩ := ih h
      obtain ⟨f, rfl⟩ := Int.eq_ofNat_of_zero_le hpos
      rcases hwhat with ⟨hno, rfl⟩ | ⟨hcs, b, hsub, hvisit⟩
      · refine ⟨hstays, fun hnone hm => (hfinds hnone hm).skip hgo fun g hg hserv => hno ?_⟩
        cases hg
        exact hserv.1
      · rcases visitService_ok hvisit with ⟨rfl, hlen, hnone, hm, s, hs, hst'⟩ | ⟨rfl, hwhy⟩
          | ⟨hnone, hm⟩
        · refine ⟨fun hsome => ?_, fun _ _ => .inl ⟨f, ⟨.refl, ⟨hcs, hsub, hlen⟩, ?_⟩, s, hs, ?_⟩⟩
          · rw [hnone] at hsome
            cases hsome
          · exact fun g hg hgf => absurd (TransGen.trans_right hg hgf) (hends.acyclic .refl)
          · rw [hstays (by rw [hst']; rfl), hst']
        · refine ⟨hstays, fun hnone hm => (hfinds hnone hm).skip hgo fun g hg hserv => ?_⟩
          cases hg
          rcases hwhy with hne | hlen | hsome
          · exact hne (Option.some.inj (hsub.symm.trans hserv.2.1))
          · exact absurd hserv.2.2 (Nat.not_le.2 hlen)
          · rw [hnone] at hsome
            cases hsome
        · refine ⟨fun hsome => ?_, fun _ hm' => ?_⟩
          · rw [hnone] at hsome
            cases hsome
          · rw [hm] at hm'
            cases hm'

theorem FirstService.unique {f' : Nat} (h : FirstService block o f) (h' : FirstService block o f') :
    f = f' := by
  have hback {a b : Nat} (ha : FirstService block o a) (hb : FirstService block o b)
      (hr : Reaches (descTurn char block) a b) : a = b := by
    rcases ReflTransGen.cases_head hr with heq | ⟨u, hu, hrest⟩
    · exact Int.ofNat_inj.1 heq
    · exact absurd ha.2.1 (hb.2.2 a ha.1 (.head' hu hrest))
  rcases reaches_total h.1 h'.1 with hr | hr
  · exact hback h h' hr
  · exact (hback h' h hr).symm

/-- What is read at a full descriptor describes it iff the version is not changed by a sign. -/
theorem describes_iff {s : ObexUsbIntfService} (h : IsService block f)
    (hs : readService block f = .ok s) :
    Describes block f s ↔ PlainVersion block f := by
  obtain ⟨s', high, low, hs', hrole, huuid, hhigh, hlow, hversion⟩ := exists_readService h.2.2
  cases hs.symm.trans hs'
  constructor
  · rintro ⟨-, -, high', low', hhigh', hlow', hver⟩ a b ha hb
    cases hhigh.symm.trans hhigh'
    cases hlow.symm.trans hlow'
    cases hhigh.symm.trans ha
    cases hlow.symm.trans hb
    rw [hversion] at hver
    exact plain_iff.1 hver
  · intro hplain
    refine ⟨hrole, huuid, high, low, hhigh, hlow, ?_⟩
    rw [hversion]
    exact plain_iff.2 (hplain high low hhigh hlow)

end

/-- The walk ends inside `block` and yields the first service, or nothing where there is none. -/
def FindsService (malloc : Nat → Bool) (block : Bytes) : Prop :=
  ∃ service, Settles (findObexServiceDescriptor malloc (some block) block.length none) service ∧
    ((∃ f, FirstService block 0 f ∧ ∃ s, service = some s ∧ Describes block f s) ∨
      ((∀ g : Nat, Reaches (descTurn char block) 0 g → ¬ IsService block g) ∧ service = none))

/-- The walk for the union descriptor ends inside `block`. -/
def FindsUnion (block : Bytes) : Prop :=
  ∃ header, Settles (fun n => descLoop unsignedChar visitUnionDescriptor block n 0 block.length
    none) header

theorem findsService_iff {malloc : Nat → Bool} {block : Bytes} (hm : malloc 0 = true) :
    FindsService malloc block ↔ Traversable char block ∧ ∀ f, FirstService block 0 f →
      PlainVersion block f := by
  have hstart : (block.length : Int) - 0 = block.length := Int.sub_zero _
  constructor
  · rintro ⟨service, ⟨n₀, hrun⟩, hfound⟩
    obtain ⟨r, hloop, hr⟩ : ∃ r, descLoop char (visitServiceDescriptor malloc block) block n₀ 0
      (block.length - 0)
        ⟨0, none⟩ = .ok r ∧ r.service = service := by
      have hrun₀ : (descLoop char _ block n₀ 0 block.length ⟨0, none⟩).map ServiceSearch.service =
        .ok service :=
        hrun n₀ (Nat.le_refl _)
      rw [hstart]
      cases hloop : descLoop char (visitServiceDescriptor malloc block) block n₀ 0 block.length
        ⟨0, none⟩ with
      | error e =>
        rw [hloop] at hrun₀
        cases hrun₀
      | ok r =>
        rw [hloop] at hrun₀
        cases hrun₀
        exact ⟨r, rfl, rfl⟩
    refine ⟨ends_desc.1 (descLoop_ends char_eq hloop), fun f hf => ?_⟩
    have hreported := (descLoop_service hloop).2 rfl hm
    rw [hr] at hreported
    rcases hreported with ⟨f', hf', s, hs, hsome⟩ | ⟨hnone, -⟩
    · rcases hfound with ⟨g, hg, s', hs', hdesc⟩ | ⟨hno, -⟩
      · cases hf.unique hf'
        cases hf.unique hg
        cases hsome.symm.trans hs'
        exact (describes_iff hf.2.1 hs).1 hdesc
      · exact absurd hf.2.1 (hno f hf.1)
    · exact absurd hf.2.1 (hnone f hf.1)
  · rintro ⟨hwalk, hplain⟩
    obtain ⟨r, n₀, hrun⟩ :
      ∃ r, Settles (fun n => descLoop char (visitServiceDescriptor malloc block) block n 0
        (block.length - 0) ⟨0, none⟩) r :=
      exists_descLoop char_eq (fun o st sub hpos _ => exists_visitService o st sub hpos)
        (ends_desc.2 hwalk)
    refine ⟨r.service, ⟨n₀, fun n hn => ?_⟩, ?_⟩
    · show Except.map _ (descLoop _ _ block n 0 _ _) = _
      have hrun' : descLoop _ _ block n 0 (block.length - 0) _ = _ := hrun n hn
      rw [hstart] at hrun'
      rw [hrun']
      rfl
    · rcases (descLoop_service (hrun n₀ (Nat.le_refl _))).2 rfl hm with ⟨f, hf, s, hs, hsome⟩ | hnone
      · exact .inl ⟨f, hf, s, hsome, (describes_iff hf.2.1 hs).2 (hplain f hf)⟩
      · exact .inr hnone

theorem exists_visitUnion (o l sub : Int) (header : Option Int) :
    ∃ header', visitUnionDescriptor o l sub header = .ok header' := by
  unfold visitUnionDescriptor
  split
  · cases header with
    | none => exact ⟨_, rfl⟩
    | some h => exact ⟨_, rfl⟩
  · exact ⟨_, rfl⟩

theorem findsUnion_iff {block : Bytes} : FindsUnion block ↔
    ∀ o, Reaches (descTurn unsignedChar block) 0 o → o < block.length →
      Readable block o ∧ block[o.toNat]? ≠ some 0 :=
  (settles_iff unsignedChar_eq fun o header sub _ _ => exists_visitUnion o _ sub header).trans
  traversable_unsignedChar

/-- The number of the data interface is read behind the loop, where the union descriptor may be cut
off. -/
theorem findObexDataInterface_ends {block : Bytes} {interface : List (List UsbInterfaceDescriptor)}
    {intf : ObexUsbIntfTransport} :
    (∃ r, Settles (findObexDataInterface (some block) block.length interface intf) r) ↔
      ∃ header, Settles (fun n => descLoop unsignedChar visitUnionDescriptor block n 0 block.length
        none) header ∧
        ∀ h, header = some h → 0 ≤ h + 4 ∧ h + 4 < block.length := by
  constructor
  · rintro ⟨r, n₀, hrun⟩
    obtain ⟨header, hloop, -⟩ := bind_ok (hrun n₀ (Nat.le_refl _))
    obtain ⟨header, n₁, hsettles⟩ := (settles_iff unsignedChar_eq
      fun o header sub _ _ => exists_visitUnion o _ sub header).2
        (ends_desc.1 (descLoop_ends unsignedChar_eq
        (by rw [Int.sub_zero]; exact hloop)))
    refine ⟨header, ⟨n₁, hsettles⟩, fun h hsome => ?_⟩
    obtain ⟨header', hloop', hrest⟩ := bind_ok (hrun (max n₀ n₁) (Nat.le_max_left _ _))
    cases hloop'.symm.trans (hsettles _ (Nat.le_max_right _ _))
    rw [hsome] at hrest
    obtain ⟨slave, hslave, -⟩ := bind_ok hrest
    obtain ⟨hpos, hlt, -⟩ := loadByte_ok hslave
    exact ⟨hpos, hlt⟩
  · rintro ⟨header, ⟨n₀, hloop⟩, hread⟩
    obtain ⟨r, hr⟩ : ∃ r, useUnionHeader block interface intf header = .ok r := by
      cases header with
      | none => exact ⟨_, rfl⟩
      | some h =>
        obtain ⟨hpos, hlt⟩ := hread h rfl
        obtain ⟨slave, hslave, -⟩ := exists_loadByte hpos hlt
        show ∃ r, (loadByte block (h + 4) >>= _) = Except.ok r
        rw [hslave]
        exact ⟨_, rfl⟩
    refine ⟨r, n₀, fun n hn => ?_⟩
    have hloop' : descLoop unsignedChar visitUnionDescriptor block n 0 block.length none = .ok header :=
      hloop n hn
    show (descLoop unsignedChar visitUnionDescriptor block n 0 block.length none >>= _) = _
    rw [hloop']
    exact hr

/-- The walk for the service finds it iff the descriptors, with their lengths read as signed numbers,
end inside the block and the version of the first service is not changed by a sign; the walk for the
union descriptor ends iff no descriptor is cut off or of length 0, and the function it is in returns iff
besides that union descriptor has the byte read behind the loop. -/
theorem descriptor_walks (malloc : Nat → Bool) (block : Bytes) (hm : malloc 0 = true) :
    (FindsService malloc block ↔
      Traversable char block ∧ ∀ f, FirstService block 0 f → PlainVersion block f) ∧
    (FindsUnion block ↔ ∀ o, Reaches (descTurn unsignedChar block) 0 o → o < block.length →
      Readable block o ∧ block[o.toNat]? ≠ some 0) ∧
    ∀ (interface : List (List UsbInterfaceDescriptor)) (intf : ObexUsbIntfTransport),
      (∃ r, Settles (findObexDataInterface (some block) block.length interface intf) r) ↔
        ∃ header, Settles (fun n => descLoop unsignedChar visitUnionDescriptor block n 0 block.length
          none) header ∧
          ∀ h, header = some h → 0 ≤ h + 4 ∧ h + 4 < block.length :=
  ⟨findsService_iff hm, findsUnion_iff, fun _ _ => findObexDataInterface_ends⟩

/-- A service identification descriptor of the version with the bytes `high` and `low`. -/
def serviceBlock (high low : UInt8) : Bytes :=
  [22, 0x24, 0x19, 0] ++ wmcDefaultObexServerUuid ++ [high, low]

theorem traversable_serviceBlock (high low : UInt8) : Traversable char (serviceBlock high low) := by
  refine ends_desc.1 ⟨22, .single ?_, descTurn_done.2 (Int.le_refl _)⟩
  have hlen : ((serviceBlock high low).length : Int) = 22 := rfl
  exact goes_desc.2 ⟨by omega, ⟨Int.le_refl _, by omega, fun _ => by omega⟩, 22, rfl, rfl⟩

theorem firstService_serviceBlock (high low : UInt8) : FirstService (serviceBlock high low) 0 0 := by
  refine ⟨.refl, ⟨rfl, rfl, Nat.le_refl _⟩, fun g hg hgf => ?_⟩
  exact absurd (TransGen.trans_right hg hgf) ((traversable_serviceBlock high low 0 .refl).2)

theorem descriptor_walks_one : FindsService (fun _ => true) (serviceBlock 1 0x10) := by
  refine (descriptor_walks (fun _ => true) (serviceBlock 1 0x10) rfl).1.2
    ⟨traversable_serviceBlock 1 0x10, fun f hf high low hhigh hlow => .inl ?_⟩
  cases hf.unique (firstService_serviceBlock 1 0x10)
  cases hlow
  decide

/-- Of the version 0x0190 the loop makes 0xff90. -/
theorem version_sign_extended : ¬ ∀ (malloc : Nat → Bool) (block : Bytes), malloc 0 = true →
    FindsService malloc block ∧ FindsUnion block := by
  intro h
  have hplain := (findsService_iff rfl).1 (h (fun _ => true) (serviceBlock 1 0x90) rfl).1
  rcases hplain.2 0 (firstService_serviceBlock 1 0x90) 1 0x90 rfl rfl with hlow | hhigh
  · exact absurd hlow (by decide)
  · exact absurd hhigh (by decide)

end OpenObex
