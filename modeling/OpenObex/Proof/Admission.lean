import OpenObex.Proof.Basic

/-!
# Adding headers

What one `OBEX_ObjectAddHeader` does with a header that is to be queued whole (`wp_addheader`): if
there is memory and the header is not too big, an element with its encoding is appended to the queue
and `totallen` grows; otherwise nothing changes. What is too big is decided by an unsigned difference.
It wraps once the headers added so far do not fit in a packet, and then lets in nearly everything
(`fit_admission_iff`).
-/

namespace OpenObex

open Mem Prog

/-- The arguments of `OBEX_ObjectAddHeader`; of the flags, `fit` is `OBEX_FL_FIT_ONE_PACKET` and
`suspend` is `OBEX_FL_SUSPEND`. -/
structure Adding where
  hi : UInt8
  hv : HeaderData
  hvSize : Nat
  fit : Bool
  suspend : Bool

namespace Adding

def flags (a : Adding) : Flags := { fitOnePacket := a.fit, suspend := a.suspend }

/-- Byte streams and unicode headers come with a length. -/
def sized (a : Adding) : Bool := match hiType a.hi with
  | .unicode | .byteStream => true
  | .byte | .int => false

/-- The length of the encoded header. -/
def size (a : Adding) : Nat := match hiType a.hi with
  | .byte => 2
  | .int => 5
  | .unicode | .byteStream => a.hvSize + 3

def value (a : Adding) : Bytes := match hiType a.hi with
  | .byte => [a.hv.bq1]
  | .int => be32 a.hv.bq4.toNat
  | .unicode | .byteStream => (a.hv.bs.getD []).take a.hvSize

def encoding (a : Adding) : Bytes := match hiType a.hi with
  | .byte | .int => a.hi :: a.value
  | .unicode | .byteStream => a.hi :: be16 (a.hvSize + 3) ++ a.value

/-- The header has an identifier, and a value of the announced size. -/
structure Valid (a : Adding) : Prop where
  named : a.hi ≠ obexHdrEmpty
  small : a.sized = true → a.hvSize < 2147483645
  readable : a.sized = true → a.hvSize = 0 ∨ ∃ b, a.hv.bs = some b ∧ a.hvSize ≤ b.length

theorem Valid.refit {a : Adding} (ha : a.Valid) (fit : Bool) : Valid { a with fit } :=
  ⟨ha.named, ha.small, ha.readable⟩

theorem Valid.length_encoding {a : Adding} (ha : a.Valid) : a.encoding.length = a.size := by
  have hread := ha.readable
  unfold sized at hread
  unfold encoding size value
  have htake (h : a.hvSize = 0 ∨ ∃ b, a.hv.bs = some b ∧ a.hvSize ≤ b.length) :
      (a.hi :: be16 (a.hvSize + 3) ++ (a.hv.bs.getD []).take a.hvSize).length = a.hvSize + 3 := by
    have hlen : ((a.hv.bs.getD []).take a.hvSize).length = a.hvSize := by
      cases h with
      | inl h0 => rw [h0, List.take_zero, List.length_nil]
      | inr hb =>
        obtain ⟨b, hb, hle⟩ := hb
        rw [hb]
        exact List.length_take_of_le hle
    rw [List.length_append, List.length_cons, length_be16, hlen]
    omega
  cases hk : hiType a.hi with
  | byte => rfl
  | int => rfl
  | unicode =>
    rw [hk] at hread
    exact htake (hread rfl)
  | byteStream =>
    rw [hk] at hread
    exact htake (hread rfl)

/-- `C` has the memory for the element and its buffer. -/
def Granted (C : Ctx) (a : Adding) : Prop :=
  C.malloc sizeofHeaderElement = true ∧ C.malloc a.size = true

instance (C : Ctx) (a : Adding) : Decidable (a.Granted C) := inferInstanceAs (Decidable (_ ∧ _))

/-- The header is refused for its size. -/
def TooBig (s : Obex) (o : ObexObject) (a : Adding) : Prop :=
  (a.hi ≠ obexHdrBody ∨ a.fit = true) ∧ maxlen s o a.flags < a.size

end Adding

variable {C : Ctx} {R : Stop → Obex → Prop} {s : Obex} {p : Ptr} {o : ObexObject} {a : Adding}

/-! ## The encoders -/

/-- A fresh buffer has room for its size. -/
theorem wp_reserveAndStore_fresh {d : Bytes} {Q : Buf → Obex → Prop}
    (hq : ∀ b, b.contents = d → b.buffer.length = d.length → Q b s) :
    wp (reserveAndStore C (freshBuf d.length) d.length d) Q R s := by
  have hroom : d.length ≤ (freshBuf d.length).tailAvail + (freshBuf d.length).dataAvail := by
    show d.length ≤ 0 + d.length
    omega
  obtain ⟨⟨m, dest⟩, hr, hbuf⟩ : ∃ r, bufReserveEnd C.malloc (freshBuf d.length) d.length =
    some r ∧ _ :=
    bufReserveEnd_avail hroom
  obtain ⟨h1, h2, h3, -⟩ := bufReserveEnd_some hr
  have hle := m.end_le
  obtain ⟨b, hb⟩ : ∃ b, bufPoke m dest d = some b := bufPoke_of_le (by omega)
  have hempty : (freshBuf d.length).contents = [] := contents_eq_nil rfl
  have hc := contents_poke_end hr hb
  rw [hempty, List.nil_append] at hc
  have hlen : b.buffer.length = d.length := by
    rw [length_poke hb, hbuf]
    exact List.length_replicate
  rw [reserveAndStore, wp_bind, wp_require]
  refine ⟨fun r hr' => ?_, fun hnone => ?_⟩
  · rw [hr] at hr'
    cases hr'
    rw [wp_require]
    refine ⟨fun b' hb' => ?_, fun hnone => ?_⟩
    · rw [hb] at hb'
      cases hb'
      exact hq b hc hlen
    · rw [hb] at hnone
      cases hnone
  · rw [hr] at hnone
    cases hnone

theorem wp_copyFrom {bs : Option Bytes} {n : Nat}
    (h : n = 0 ∨ ∃ b, bs = some b ∧ n ≤ b.length) {Q : Bytes → Obex → Prop}
    (hq : Q ((bs.getD []).take n) s) : wp (copyFrom bs 0 n) Q R s := by
  unfold copyFrom
  cases bs with
  | none =>
    have h0 : n = 0 := by
      cases h with
      | inl h0 => exact h0
      | inr hb =>
        obtain ⟨b, hb, -⟩ := hb
        cases hb
    dsimp only
    rw [if_pos h0, wp_pure]
    rwa [Option.getD_none, List.take_nil] at hq
  | some b =>
    have hle : 0 + n ≤ b.length := by
      cases h with
      | inl h0 => omega
      | inr hb =>
        obtain ⟨b', hb, hle⟩ := hb
        cases hb
        omega
    dsimp only
    rw [if_pos hle, wp_pure]
    exact hq

theorem wp_insertHvHeader_fresh {bs : Option Bytes} {hi : UInt8} {n : Nat} (hn : n < 2147483645)
    (hbs : n = 0 ∨ ∃ b, bs = some b ∧ n ≤ b.length) {failed : M (Buf × Int)}
    {Q : Buf × Int → Obex → Prop}
    (hq : ∀ b, b.contents = hi :: be16 (n + 3) ++ (bs.getD []).take n → b.buffer.length = n + 3 →
      Q (b, n + 3) s) :
    wp (insertHvHeader C (freshBuf (n + 3)) hi bs (i32 n) failed) Q R s := by
  have hint : i32 n = n := by
    unfold i32
    omega
  have hsize : sizeT ((n : Int) + 3) = n + 3 := by
    unfold sizeT
    omega
  have hfrom : sizeT (n : Int) = n := by
    unfold sizeT
    omega
  have hret : i32 ((n : Int) + 3) = n + 3 := by
    unfold i32
    omega
  have hbe : be16 (u16 ((n : Int) + 3)) = be16 (n + 3) := by
    have hu : u16 ((n : Int) + 3) = (n + 3) % 65536 := by
      unfold u16
      omega
    rw [hu, ← ofBe16_be16, be16_ofBe16]
    rfl
  have hnone : ¬ (bs.isNone = true ∧ (n : Int) ≠ 0) := by
    rintro ⟨hnone, hne⟩
    cases hbs with
    | inl h0 => omega
    | inr hb =>
      obtain ⟨b, rfl, -⟩ := hb
      cases hnone
  have htake : ((bs.getD []).take n).length = n := by
    cases hbs with
    | inl h0 => rw [h0, List.take_zero, List.length_nil]
    | inr hb =>
      obtain ⟨b, rfl, hle⟩ := hb
      exact List.length_take_of_le hle
  have hlen : (hi :: be16 (n + 3) ++ (bs.getD []).take n).length = n + 3 := by
    rw [List.length_append, List.length_cons, length_be16, htake]
    omega
  have hroom : n + 3 ≤ (freshBuf (n + 3)).tailAvail + (freshBuf (n + 3)).dataAvail := by
    show n + 3 ≤ 0 + (n + 3)
    omega
  obtain ⟨⟨m, dest⟩, hr, hbuf⟩ : ∃ r, bufReserveEnd C.malloc (freshBuf (n + 3)) (n + 3) = some r ∧ _ :=
    bufReserveEnd_avail hroom
  -- none of the conversions between `int`, `size_t` and 16 bits loses anything here
  rw [insertHvHeader, hint, if_neg hnone, hsize, hr]
  dsimp only
  rw [hfrom, hret, hbe, wp_bind]
  refine wp_copyFrom hbs ?_
  rw [wp_bind, wp_require]
  rw [← hlen] at hr
  refine ⟨fun b hb => hq b ?_ ?_, fun hnone' => ?_⟩
  · have hempty (k : Nat) : (freshBuf k).contents = [] := contents_eq_nil rfl
    have hc := contents_poke_end hr hb
    rwa [hempty, List.nil_append] at hc
  · rw [length_poke hb, hbuf]
    exact List.length_replicate
  · obtain ⟨h1, h2, h3, -⟩ := bufReserveEnd_some hr
    have hle := m.end_le
    obtain ⟨b, hb⟩ : ∃ b, bufPoke m dest (hi :: be16 (n + 3) ++ (bs.getD []).take n) = some b :=
      bufPoke_of_le (by omega)
    rw [hb] at hnone'
    cases hnone'

/-- A valid header is encoded if there is memory for it. -/
theorem wp_encodeHeader (ha : a.Valid) {Q : Option Buf × Nat × Int → Obex → Prop}
    (hq : ∀ b, C.malloc a.size = true → b.contents = a.encoding → b.buffer.length = a.size →
      Q (some b, a.size, a.size) s)
    (he : C.malloc a.size = false → Q (none, 0, -1) s) :
    wp (encodeHeader C a.hi a.hv a.hvSize) Q R s := by
  have hnamed := ha.small
  have hread := ha.readable
  unfold Adding.sized at hnamed hread
  unfold Adding.size Adding.encoding Adding.value at hq
  unfold Adding.size at he
  unfold encodeHeader bufNew
  cases hk : hiType a.hi with
  | byte =>
    rw [hk] at hq he
    by_cases hm : C.malloc 2 = true
    · dsimp only
      rw [if_pos hm]
      dsimp only [insertUbyteHeader]
      rw [wp_bind, wp_bind]
      exact wp_reserveAndStore_fresh (d := [a.hi, a.hv.bq1]) fun b hb hl => hq b hm hb hl
    · dsimp only
      rw [if_neg hm]
      exact he (by simpa using hm)
  | int =>
    rw [hk] at hq he
    by_cases hm : C.malloc 5 = true
    · dsimp only
      rw [if_pos hm]
      dsimp only [insertUintHeader]
      rw [wp_bind, wp_bind]
      exact wp_reserveAndStore_fresh (d := a.hi :: be32 a.hv.bq4.toNat) fun b hb hl => hq b hm hb hl
    · dsimp only
      rw [if_neg hm]
      exact he (by simpa using hm)
  | byteStream =>
    rw [hk] at hq he hnamed hread
    have hn := hnamed rfl
    -- the size is computed in 32 bits and does not wrap
    have hu : u32 ((a.hvSize : Int) + 3) = a.hvSize + 3 := by
      unfold u32
      omega
    by_cases hm : C.malloc (a.hvSize + 3) = true
    · dsimp only
      rw [if_pos hm, hu]
      dsimp only [insertByteStreamHeader]
      rw [wp_bind]
      exact wp_insertHvHeader_fresh hn (hread rfl) fun b hb hl => hq b hm hb hl
    · dsimp only
      rw [if_neg hm]
      exact he (by simpa using hm)
  | unicode =>
    rw [hk] at hq he hnamed hread
    have hn := hnamed rfl
    have hu : u32 ((a.hvSize : Int) + 3) = a.hvSize + 3 := by
      unfold u32
      omega
    by_cases hm : C.malloc (a.hvSize + 3) = true
    · dsimp only
      rw [if_pos hm, hu]
      dsimp only [insertUnicodeHeader]
      rw [wp_bind]
      exact wp_insertHvHeader_fresh hn (hread rfl) fun b hb hl => hq b hm hb hl
    · dsimp only
      rw [if_neg hm]
      exact he (by simpa using hm)

/-! ## One call -/

/-- The object with one more header in its queue. -/
def withHeader (o : ObexObject) (a : Adding) (addr : Ptr) (b : Buf) : ObexObject :=
  { o with
    totallen := i32 (o.totallen + a.size)
    txHeaderq := slistAppend o.txHeaderq { addr, buf := some b, hi := a.hi, flags := a.flags
                                           length := a.size, bodyTouched := false, stream := false } }

/-- The header is queued, or nothing but a pointer is gone. -/
theorem wp_addheader (ha : a.Valid) (ho : s.objects p = some o) {Q : Int → Obex → Prop}
    (hq : a.Granted C → ¬ a.TooBig s o → ∀ b, b.contents = a.encoding → b.buffer.length = a.size →
      Q 1 (({ s with fresh := s.fresh + 1 } : Obex).setObject p (some (withHeader o a s.fresh b))))
    (he : ¬ (a.Granted C ∧ ¬ a.TooBig s o) → ∀ k, s.fresh ≤ k → Q (-1) { s with fresh := k }) :
    wp (obexObjectAddheader C p a.hi a.hv a.hvSize a.flags) Q R s := by
  have hpos : (0 : Int) < a.size := by
    unfold Adding.size
    split <;> omega
  have hnodata : ¬ a.flags.streamDataend = true := Bool.false_ne_true
  have hnodata' : ¬ a.flags.streamData = true := Bool.false_ne_true
  have hnostart : ¬ a.flags.streamStart = true := Bool.false_ne_true
  have hsame : ({ s with fresh := s.fresh } : Obex) = s := rfl
  rw [obexObjectAddheader, wp_bind, wp_get, if_neg hnodata, if_neg hnodata', wp_bind, wp_deref]
  refine ⟨fun o' ho' => ?_, fun hnone => ?_⟩
  · rw [ho] at ho'
    cases ho'
    by_cases hm : C.malloc sizeofHeaderElement = true
    · rw [if_pos hm, alloc, wp_bind, wp_bind, wp_get, wp_bind, wp_set, wp_pure, if_neg hnostart,
        if_neg ha.named, wp_bind]
      refine wp_encodeHeader ha (fun b hmb hb hl => ?_) fun hmb => ?_
      · dsimp only
        by_cases htoo : a.TooBig s o
        · have hbig : (a.hi ≠ obexHdrBody ∨ a.flags.fitOnePacket = true) ∧
            maxlen s o a.flags < a.size :=
            htoo
          rw [if_neg fun h => h.2 hbig, if_pos hbig, wp_pure]
          exact he (fun h => h.2 htoo) _ (Nat.le_succ _)
        · rw [if_pos ⟨hpos, htoo⟩, wp_bind, wp_update]
          refine ⟨fun o' ho' => ?_, fun hnone => ?_⟩
          · rw [show (({ s with fresh := s.fresh + 1 } : Obex).objects p = some o') = (some o = some o')
              from congrArg (· = some o') ho] at ho'
            cases ho'
            rw [wp_pure]
            exact hq ⟨hm, hmb⟩ htoo b hb hl
          · rw [show (({ s with fresh := s.fresh + 1 } : Obex).objects p = none) = (some o = none)
              from congrArg (· = none) ho] at hnone
            cases hnone
      · have hno : ¬ (a.Granted C ∧ ¬ a.TooBig s o) := by
          rintro ⟨⟨-, h⟩, -⟩
          rw [hmb] at h
          cases h
        have hlen : ¬ ((a.hi ≠ obexHdrBody ∨ a.flags.fitOnePacket = true) ∧ maxlen s o a.flags < 0) :=
          fun h => absurd h.2 (Nat.not_lt_zero _)
        dsimp only
        rw [if_neg fun h => absurd h.1 (by decide), if_neg hlen, wp_pure]
        exact he hno _ (Nat.le_succ _)
    · rw [if_neg hm, wp_pure]
      exact he (fun h => hm h.1.1) s.fresh (Nat.le_refl _)
  · rw [ho] at hnone
    cases hnone

/-- An empty header has no buffer. -/
def withEmpty (o : ObexObject) (fl : Flags) (addr : Ptr) : ObexObject :=
  { o with
    txHeaderq := slistAppend o.txHeaderq { addr, buf := none, hi := obexHdrEmpty, flags := fl
                                           length := 0, bodyTouched := false, stream := false } }

theorem wp_addempty {hv : HeaderData} {size : Nat} {fl : Flags} (hend : fl.streamDataend = false)
    (hdata : fl.streamData = false) (hstart : fl.streamStart = false) (ho : s.objects p = some o)
    {Q : Int → Obex → Prop}
    (hq : Q 1 (({ s with fresh := s.fresh + 1 } : Obex).setObject p (some (withEmpty o fl s.fresh))))
    (he : Q (-1) s) : wp (obexObjectAddheader C p obexHdrEmpty hv size fl) Q R s := by
  rw [obexObjectAddheader, wp_bind, wp_get, hend, if_neg Bool.false_ne_true, hdata,
    if_neg Bool.false_ne_true, wp_bind, wp_deref]
  refine ⟨fun o' ho' => ?_, fun hnone => ?_⟩
  · rw [ho] at ho'
    cases ho'
    by_cases hm : C.malloc sizeofHeaderElement = true
    · have ho' : ({ s with fresh := s.fresh + 1 } : Obex).objects p = some o := ho
      rw [if_pos hm, alloc, wp_bind, wp_bind, wp_get, wp_bind, wp_set, wp_pure, hstart,
        if_neg Bool.false_ne_true, if_pos rfl, wp_bind, wp_update, ho']
      refine ⟨fun o' ho' => ?_, fun hnone => by cases hnone⟩
      cases ho'
      exact hq
    · rw [if_neg hm, wp_pure]
      exact he
  · rw [ho] at hnone
    cases hnone

/-! ## Sequences of calls -/

/-- The calls are made one after the other; their results. -/
def addHeaders (C : Ctx) (p : Ptr) : List Adding → M (List Int)
  | [] => pure []
  | a :: as => do
    let r ← obexObjectAddheader C p a.hi a.hv a.hvSize a.flags
    let rs ← addHeaders C p as
    pure (r :: rs)

/-- The total encoded length of the headers that have been accepted. -/
def acceptedSize : List Adding → List Int → Nat
  | a :: as, r :: rs => (if 0 < r then a.size else 0) + acceptedSize as rs
  | _, _ => 0

/-- The object at `p` has headers of `t` bytes in all. -/
structure Loaded (p : Ptr) (mtu t : Nat) (s : Obex) : Prop where
  mtuTx : s.mtuTx = mtu
  object : ∃ o, s.objects p = some o ∧ o.totallen = i32 t

theorem i32_i32_add (t n : Nat) : i32 (i32 t + n) = i32 ((t + n : Nat) : Int) := by
  unfold i32
  omega

theorem Loaded.step {mtu t : Nat} (hs : Loaded p mtu t s) (ha : a.Valid) :
    wp (obexObjectAddheader C p a.hi a.hv a.hvSize a.flags)
      (fun r => Loaded p mtu (t + if 0 < r then a.size else 0)) R s := by
  obtain ⟨o, ho, ht⟩ := hs.object
  refine wp_addheader ha ho (fun _ _ b _ _ => ?_) fun _ k _ => ?_
  · refine ⟨hs.mtuTx, withHeader o a s.fresh b, objects_setObject _ _ _, ?_⟩
    rw [if_pos (by decide)]
    show i32 (o.totallen + a.size) = _
    rw [ht, i32_i32_add]
  · rw [if_neg (by decide)]
    exact ⟨hs.mtuTx, o, ho, ht⟩

/-- `totallen` is the total of the headers accepted so far, as an `int`. -/
theorem Loaded.run {mtu t : Nat} {as : List Adding} (has : ∀ a ∈ as, a.Valid) (hs : Loaded p mtu t s) :
    wp (addHeaders C p as) (fun rs => Loaded p mtu (t + acceptedSize as rs)) R s := by
  induction as generalizing t s with
  | nil => exact hs
  | cons a as ih =>
    refine wp_seq (hs.step (has a List.mem_cons_self)) fun r s' hs' => ?_
    rw [wp_bind]
    have hrest := ih (fun b hb => has b (List.mem_cons_of_mem _ hb)) hs'
    refine wp_conseq hrest fun rs s'' hs'' => ?_
    rw [wp_pure, acceptedSize]
    rwa [Nat.add_assoc] at hs''

/-- The queue of the object and its `totallen` are as before. -/
def Unaffected (p : Ptr) (s s' : Obex) : Prop :=
  ∃ o o', s.objects p = some o ∧ s'.objects p = some o' ∧ o'.txHeaderq = o.txHeaderq ∧
    o'.totallen = o.totallen

/-- Each of the calls, whatever its flags, leaves the object as it was if it is rejected. -/
def RejectsCleanly (C : Ctx) (p : Ptr) : List Adding → Obex → Prop
  | [], _ => True
  | a :: as, s =>
    wp (obexObjectAddheader C p a.hi a.hv a.hvSize a.flags) (fun r s' =>
      (¬ 0 < r → Unaffected p s s') ∧ RejectsCleanly C p as s') (fun _ _ => False) s

theorem rejectsCleanly (C : Ctx) {as : List Adding} (has : ∀ a ∈ as, a.Valid)
    (ho : s.objects p = some o) :
    RejectsCleanly C p as s := by
  induction as generalizing s o with
  | nil => trivial
  | cons a as ih =>
    have hrest : ∀ b ∈ as, b.Valid := fun b hb => has b (List.mem_cons_of_mem _ hb)
    refine wp_addheader (has a List.mem_cons_self) ho (fun _ _ b _ _ => ?_) fun _ k _ => ?_
    · exact ⟨fun hneg => absurd (by decide) hneg, ih hrest (objects_setObject _ _ _)⟩
    · exact ⟨fun _ => ⟨o, o, ho, ho, rfl, rfl⟩, ih hrest ho⟩

/-! ## Fitting one packet -/

/-- With headers of `t` bytes accepted before, the call succeeds exactly when the header fits in one
packet with them, `OBEX_ObjectGetSpace` says so too, and a call that fails leaves the queue and
`totallen` alone. -/
def AdmitsFit (C : Ctx) (p : Ptr) (a : Adding) (t : Nat) (s : Obex) : Prop :=
  ∃ o, s.objects p = some o ∧
    wp (obexObjectAddheader C p a.hi a.hv a.hvSize a.flags) (fun r s' =>
      (0 < r ↔ a.size + t + 3 ≤ s.mtuTx) ∧
      (0 < r ↔ (a.size : Int) ≤ obexObjectGetspace s o a.flags) ∧
      (¬ 0 < r → ∃ o', s'.objects p = some o' ∧ o'.txHeaderq = o.txHeaderq ∧ o'.totallen = o.totallen))
      (fun _ _ => False) s

/-- The headers accepted before leave room for the common header, or the header is longer than the
difference, which has wrapped; without memory the header must be one that does not fit. -/
def FitCondition (C : Ctx) (mtu t : Nat) (a : Adding) : Prop :=
  if a.Granted C then t + 3 ≤ mtu ∨ u32 (mtu - t - 3) < a.size
  else i32 (mtu - t - 3) < a.size

theorem maxlen_fit {mtu t : Nat} (hmtu : s.mtuTx = mtu) (ht : o.totallen = i32 t) (fl : Flags)
    (hfit : fl.fitOnePacket = true) : maxlen s o fl = u32 (mtu - t - 3) ∧
      obexObjectGetspace s o fl = i32 (mtu - t - 3) := by
  unfold maxlen obexObjectGetspace
  rw [if_pos hfit, if_pos hfit, hmtu, ht]
  unfold u32 i32
  omega

theorem fit_differences {mtu : Nat} (hmtu : mtu ≤ 65535) (t n : Nat) :
    (t + 3 ≤ mtu → (¬ u32 (mtu - t - 3) < n ↔ n + t + 3 ≤ mtu)) ∧
      (n + t + 3 ≤ mtu → (n : Int) ≤ i32 (mtu - t - 3)) ∧
      ((n : Int) ≤ i32 (mtu - t - 3) → ¬ u32 (mtu - t - 3) < n) ∧
      (t + 3 ≤ mtu → ((n : Int) ≤ i32 (mtu - t - 3) ↔ n + t + 3 ≤ mtu)) := by
  unfold u32 i32
  omega

theorem admitsFit_iff {mtu t : Nat} (hs : Loaded p mtu t s) (hmtu : mtu ≤ 65535) (ha : a.Valid)
    (hfit : a.fit = true) : AdmitsFit C p a t s ↔ FitCondition C mtu t a := by
  obtain ⟨o, ho, ht⟩ := hs.object
  obtain ⟨hlen, hspace⟩ := maxlen_fit hs.mtuTx ht a.flags hfit
  obtain ⟨d1, d2, d3, d4⟩ := fit_differences hmtu t a.size
  have htoo : a.TooBig s o ↔ u32 (mtu - t - 3) < a.size := by
    unfold Adding.TooBig
    rw [hlen]
    exact ⟨fun h => h.2, fun h => ⟨.inr hfit, h⟩⟩
  constructor
  · rintro ⟨o', ho', h⟩
    rw [ho] at ho'
    cases ho'
    rw [hspace, hs.mtuTx] at h
    -- whether the call succeeds is known; the rule then gives the condition
    have hout : wp (obexObjectAddheader C p a.hi a.hv a.hvSize a.flags)
        (fun r _ => 0 < r ↔ a.Granted C ∧ ¬ a.TooBig s o) (fun _ _ => True) s :=
      wp_addheader ha ho (fun hg hnot _ _ _ => ⟨fun _ => ⟨hg, hnot⟩, fun _ => by decide⟩) fun hno _ _ =>
        ⟨fun h => absurd h (by decide), fun h => absurd h hno⟩
    unfold FitCondition
    by_contra hcond
    refine not_wp_false (wp_mono (wp_and h hout) (fun r s' hr => hcond ?_) fun _ _ he => he.1)
    obtain ⟨⟨h1, h2, -⟩, h3⟩ := hr
    rw [htoo] at h3
    by_cases hg : a.Granted C
    · rw [if_pos hg]
      by_cases hroom : t + 3 ≤ mtu
      · exact .inl hroom
      · right
        by_contra hlt
        have hfits := h1.1 (h3.2 ⟨hg, hlt⟩)
        omega
    · rw [if_neg hg]
      by_contra hle
      exact hg (h3.1 (h2.2 (by omega))).1
  · intro h
    refine ⟨o, ho, ?_⟩
    rw [hspace, hs.mtuTx]
    unfold FitCondition at h
    refine wp_addheader ha ho (fun hg hnot b _ _ => ?_) fun hno k _ => ?_
    · rw [if_pos hg] at h
      rw [htoo] at hnot
      have hroom : t + 3 ≤ mtu := h.resolve_right hnot
      have hfits := (d1 hroom).1 hnot
      exact ⟨⟨fun _ => hfits, fun _ => by decide⟩, ⟨fun _ => d2 hfits, fun _ => by decide⟩,
        fun hneg => absurd (by decide) hneg⟩
    · have hlong : ¬ (a.size : Int) ≤ i32 (mtu - t - 3) := by
        intro hle
        by_cases hg : a.Granted C
        · refine hno ⟨hg, ?_⟩
          rw [htoo]
          exact d3 hle
        · rw [if_neg hg] at h
          omega
      exact ⟨⟨fun hpos => absurd hpos (by decide), fun hfits => absurd (d2 hfits) hlong⟩,
        ⟨fun hpos => absurd hpos (by decide), fun hle => absurd hle hlong⟩,
        fun _ => ⟨o, ho, rfl, rfl⟩⟩

/-- After any headers have been added to a new object, a header with `OBEX_FL_FIT_ONE_PACKET` is
admitted as it should be exactly if the condition holds; and a call that is rejected, with either flag
and at any place in the sequence, leaves the object alone. -/
theorem fit_admission_iff (C : Ctx) (p : Ptr) (s : Obex) (o : ObexObject) (as : List Adding)
    (a : Adding) (ho : s.objects p = some o) (ht : o.totallen = 0)
    (hmtu : 255 ≤ s.mtuTx ∧ s.mtuTx ≤ 65535) (has : ∀ b ∈ as, b.Valid) (ha : a.Valid)
    (hfit : a.fit = true) :
    RejectsCleanly C p (as ++ [a]) s ∧
    wp (addHeaders C p as) (fun rs s' =>
      AdmitsFit C p a (acceptedSize as rs) s' ↔ FitCondition C s.mtuTx (acceptedSize as rs) a)
      (fun _ _ => False) s := by
  have hall : ∀ b ∈ as ++ [a], b.Valid := by
    intro b hb
    rcases List.mem_append.1 hb with hb | hb
    · exact has b hb
    · rw [List.mem_singleton.1 hb]
      exact ha
  refine ⟨rejectsCleanly C hall ho, ?_⟩
  have hstart : Loaded p s.mtuTx 0 s := ⟨rfl, o, ho, by rw [ht]; rfl⟩
  refine wp_conseq (Loaded.run has hstart) fun rs s' hs' => ?_
  rw [Nat.zero_add] at hs'
  exact admitsFit_iff hs' hmtu.2 ha hfit

/-- An environment with memory and nothing else. -/
def ampleMemory : Env where
  malloc _ := true
  app _ := []
  write _ chunk := chunk.length
  read _ _ := none

/-- A handle with a new object. -/
def oneObject : Obex := (obexInit .inet).setObject 0 (some zeroObject)

def bodyOf300 : Adding where
  hi := obexHdrBody
  hv := { bs := some (List.replicate 300 0) }
  hvSize := 300
  fit := false
  suspend := false

def fitByte : Adding where
  hi := 0x97
  hv := { bq1 := 1 }
  hvSize := 1
  fit := true
  suspend := false

theorem bodyOf300_valid : bodyOf300.Valid :=
  ⟨by decide, fun _ => by decide, fun _ => .inr ⟨_, rfl, Nat.le_of_eq List.length_replicate.symm⟩⟩

theorem fitByte_valid : fitByte.Valid :=
  ⟨by decide, fun h => absurd h (by decide), fun h => absurd h (by decide)⟩

/-- A body of 300 bytes and a header of one, added without and with the flag in turn. -/
def mixedFlags : List Adding :=
  [fitByte, bodyOf300, { fitByte with fit := false }, { bodyOf300 with fit := true }]

theorem mixedFlags_valid : ∀ b ∈ mixedFlags, b.Valid := by
  intro b hb
  rcases List.mem_cons.1 hb with rfl | hb
  · exact fitByte_valid
  rcases List.mem_cons.1 hb with rfl | hb
  · exact bodyOf300_valid
  rcases List.mem_cons.1 hb with rfl | hb
  · exact fitByte_valid.refit false
  rw [List.mem_singleton.1 hb]
  exact bodyOf300_valid.refit true

theorem fit_admission_iff_mixed :
    RejectsCleanly (ampleMemory.ctx .all 0) 0 (mixedFlags ++ [fitByte]) oneObject ∧
    wp (addHeaders (ampleMemory.ctx .all 0) 0 mixedFlags) (fun rs s' =>
      AdmitsFit (ampleMemory.ctx .all 0) 0 fitByte (acceptedSize mixedFlags rs) s' ↔
        FitCondition (ampleMemory.ctx .all 0) 255 (acceptedSize mixedFlags rs) fitByte)
      (fun _ _ => False) oneObject :=
  fit_admission_iff (ampleMemory.ctx .all 0) 0 oneObject zeroObject mixedFlags fitByte rfl rfl
    (by decide)
    mixedFlags_valid fitByte_valid rfl

/-- A byte header after a body of 300 bytes, in packets of 255. -/
theorem overfull_admits : ¬ ∀ (C : Ctx) (p : Ptr) (s : Obex) (o : ObexObject) (as : List Adding)
    (a : Adding), (∀ n, C.malloc n = true) → s.objects p = some o → o.totallen = 0 →
    (255 ≤ s.mtuTx ∧ s.mtuTx ≤ 65535) → (∀ b ∈ as, b.Valid) → a.Valid → a.fit = true →
    wp (addHeaders C p as) (fun rs s' => AdmitsFit C p a (acceptedSize as rs) s')
      (fun _ _ => False) s := by
  intro h
  obtain ⟨C, hC⟩ : ∃ C : Ctx, ∀ n, C.malloc n = true := ⟨ampleMemory.ctx .all 0, fun _ => rfl⟩
  obtain ⟨s, ho, hmtu⟩ : ∃ s : Obex, s.objects 0 = some zeroObject ∧ s.mtuTx = 255 :=
    ⟨oneObject, rfl, rfl⟩
  obtain ⟨b, hb, hhi, hnofit, hsize⟩ : ∃ b : Adding, b.Valid ∧ b.hi = obexHdrBody ∧ b.fit = false ∧
      b.size = 303 := ⟨bodyOf300, bodyOf300_valid, rfl, rfl, rfl⟩
  have has : ∀ x ∈ [b], x.Valid := fun x hx => by
    rw [List.mem_singleton.1 hx]
    exact hb
  have hadmits := h C 0 s zeroObject [b] fitByte hC ho rfl (by rw [hmtu]; decide) has fitByte_valid rfl
  -- the body is accepted, whatever its length
  have haccepted : wp (addHeaders C 0 [b]) (fun rs _ => acceptedSize [b] rs = 303)
      (fun _ _ => False) s := by
    have hnot : ¬ b.TooBig s zeroObject := by
      intro hbig
      cases hbig.1 with
      | inl hne => exact hne hhi
      | inr hfit =>
        rw [hnofit] at hfit
        cases hfit
    refine wp_bind.2 (wp_addheader hb ho (fun _ _ _ _ _ => ?_) fun hno => ?_)
    · exact (Nat.add_zero _).trans hsize
    · exact (hno ⟨⟨hC _, hC _⟩, hnot⟩).elim
  have hstart : Loaded 0 255 0 s := ⟨hmtu, zeroObject, ho, rfl⟩
  have hrun := Loaded.run (C := C) (R := fun _ _ => True) has hstart
  refine not_wp_false (wp_mono (wp_and (wp_and hadmits haccepted) hrun) (fun rs s' hr => ?_) ?_)
  · obtain ⟨⟨ha, hlen⟩, hloaded⟩ := hr
    rw [Nat.zero_add, hlen] at hloaded
    rw [hlen, admitsFit_iff hloaded (by decide) fitByte_valid rfl] at ha
    unfold FitCondition at ha
    rw [if_pos ⟨hC _, hC _⟩] at ha
    exact absurd ha (by decide)
  · intro _ _ he
    exact he.1.1

end OpenObex
