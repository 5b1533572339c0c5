import Mathlib.Algebra.GroupWithZero.Nat
import OpenObex.Proof.Admission
import OpenObex.Proof.Transmit

/-!
# How packets take the queue off

The headers of a queue that `OBEX_ObjectAddHeader` has built go into a packet whole, one after the
other, as long as they fit; a body that does not fit is cut. Each header sent and each byte of a body
lowers the `rank` of the queue, so the queue drains, with two exceptions. A header that is too long
for the space left in an empty packet but not for the MTU is never sent (`Blocked`). And a body that
is reached with one or two bytes left is read far behind its end (`Squeezed`). Otherwise every packet
makes progress (`progress_iff`).
-/

namespace OpenObex

open Mem Prog

/-! ## Headers that are ready to be sent -/

structure Ready (h : HeaderElement) : Prop where
  plain : h.stream = false
  buf : h.hi ≠ obexHdrEmpty → ∃ b, h.buf = some b
  small : ∀ b, h.buf = some b → b.buffer.length < 4294967296
  start : h.hi = obexHdrBody → h.bodyTouched = false → ∀ b, h.buf = some b → 3 ≤ b.dataSize
  whole : h.hi ≠ obexHdrBody → ∀ b, h.buf = some b → b.dataSize = h.length

namespace HeaderElement

/-- What is still to be sent of a body. -/
def body (h : HeaderElement) : Bytes := (h.bodyBuf.map Buf.contents).getD []

/-- The space that a header in the packet counts for; the three bytes in front of a body do not
count. -/
def taken (h : HeaderElement) : Nat :=
  if h.hi = obexHdrBody then h.body.length
  else if h.hi = obexHdrEmpty then 0
  else h.length

/-- The header fits in `left` bytes. -/
def Whole (h : HeaderElement) (left : Nat) : Prop :=
  if h.hi = obexHdrBody then h.body.length + 3 ≤ left
  else if h.hi = obexHdrEmpty then True
  else h.length ≤ left

/-- The bytes of the header in a packet. -/
def wire (h : HeaderElement) : Bytes :=
  if h.hi = obexHdrBody then (obexHdrBodyEnd :: be16 (u16 (h.body.length + 3))) ++ h.body
  else if h.hi = obexHdrEmpty then []
  else (h.buf.map Buf.contents).getD []

/-- The body without its next `n` bytes. -/
def cut (h : HeaderElement) (n : Nat) : HeaderElement :=
  { h with buf := h.bodyBuf.map fun b => bufRemoveBegin b n, bodyTouched := true }

/-- The bytes in the queue. -/
def unsent (h : HeaderElement) : Nat := (h.buf.map Buf.dataSize).getD 0

end HeaderElement

/-- The number of queued headers and of queued bytes. -/
def rank (queue : List HeaderElement) : Nat := (queue.map fun h => 1 + h.unsent).sum

theorem rank_cons (h : HeaderElement) (hs : List HeaderElement) :
    rank (h :: hs) = 1 + h.unsent + rank hs := rfl

variable {h : HeaderElement} {hs : List HeaderElement} {mtuTx left fuel : Nat}

/-- The buffer of a body that is ready. -/
theorem Ready.bodyBuf (hr : Ready h) (hb : h.hi = obexHdrBody) :
    ∃ b, h.bodyBuf = some b ∧ b.contents = h.body ∧ b.dataSize = h.body.length ∧
      b.buffer.length < 4294967296 ∧ h.body.length ≤ h.unsent ∧
      (h.bodyTouched = false → h.body.length + 3 = h.unsent) := by
  obtain ⟨b, hbuf⟩ := hr.buf (by rw [hb]; decide)
  have hsmall := hr.small b hbuf
  cases ht : h.bodyTouched with
  | true =>
    have hbody : h.bodyBuf = some b := by
      rw [HeaderElement.bodyBuf, hbuf, Option.map_some, ht, if_pos rfl]
    have hcont : h.body = b.contents := by
      rw [HeaderElement.body, hbody]
      rfl
    refine ⟨b, hbody, hcont.symm, ?_, hsmall, ?_, fun hf => by cases hf⟩
    · rw [hcont, length_contents]
    · rw [hcont, length_contents, HeaderElement.unsent, hbuf]
      exact Nat.le_refl _
  | false =>
    have hstart := hr.start hb ht b hbuf
    have hbody : h.bodyBuf = some (bufRemoveBegin b 3) := by
      rw [HeaderElement.bodyBuf, hbuf, Option.map_some, ht, if_neg Bool.false_ne_true]
    have hcont : h.body = (bufRemoveBegin b 3).contents := by
      rw [HeaderElement.body, hbody]
      rfl
    have hlen : h.body.length + 3 = h.unsent := by
      rw [hcont, length_contents, bufRemoveBegin_dataSize, HeaderElement.unsent, hbuf]
      exact Nat.sub_add_cancel hstart
    refine ⟨_, hbody, hcont.symm, ?_, ?_, by omega, fun _ => hlen⟩
    · rw [hcont, length_contents]
    · rwa [bufRemoveBegin_buffer]

theorem Ready.cut (hr : Ready h) (hb : h.hi = obexHdrBody) (n : Nat) : Ready (h.cut n) := by
  obtain ⟨b, hbuf, -, -, hsmall, -⟩ := hr.bodyBuf hb
  refine ⟨hr.plain, fun _ => ?_, fun c hc => ?_, fun _ ht => ?_, fun hno => absurd hb hno⟩
  · rw [HeaderElement.cut, hbuf]
    exact ⟨_, rfl⟩
  · rw [HeaderElement.cut, hbuf] at hc
    cases hc
    rwa [bufRemoveBegin_buffer]
  · cases ht

theorem Ready.unsent_cut (hr : Ready h) (hb : h.hi = obexHdrBody) (n : Nat) :
    (h.cut n).unsent = h.body.length - n := by
  obtain ⟨b, hbuf, -, hsize, -⟩ := hr.bodyBuf hb
  rw [HeaderElement.cut, HeaderElement.unsent, hbuf, ← hsize]
  exact bufRemoveBegin_dataSize b n

/-! ## One header -/

/-- The offset of a remainder of one or two bytes is no offset in memory. -/
theorem squeezed_size (hleft : left < 3) : 4294967296 ≤ sizeT ((left : Int) - 3) := by
  unfold sizeT
  omega

theorem fillHeader_whole (mtuTx : Nat) (hr : Ready h) (hd : Distinct (h :: hs)) (hlt : left < 65536)
    (hw : h.Whole left) : fillHeader mtuTx h (h :: hs) left =
      some { bytes := h.wire, queue := hs, txLeft := left - h.taken, addmore := true } := by
  unfold HeaderElement.Whole at hw
  unfold fillHeader HeaderElement.wire HeaderElement.taken
  by_cases hb : h.hi = obexHdrBody
  · obtain ⟨b, hbuf, hcont, hsize, -⟩ := hr.bodyBuf hb
    rw [if_pos hb] at hw ⊢
    have hu : u16 ((left : Int) - b.dataSize) = left - h.body.length := by
      unfold u16
      omega
    rw [if_pos hb, if_pos hb, hbuf, Option.bind_some, fillBody, if_neg (by omega), slistRemove_first hd,
      hu, hcont, hsize]
  · rw [if_neg hb] at hw ⊢
    rw [if_neg hb, if_neg hb]
    by_cases he : h.hi = obexHdrEmpty
    · rw [if_pos he, if_pos he, if_pos he, slistRemove_first hd]
      rfl
    · obtain ⟨b, hbuf⟩ := hr.buf he
      have hlen := hr.whole hb b hbuf
      have hpeek : bufPeek b 0 h.length = some b.contents := by
        rw [bufPeek_of_le (by omega), ← hlen, ← length_contents]
        exact congrArg some (List.take_of_length_le (Nat.le_refl _))
      rw [if_neg he] at hw
      rw [if_neg he, if_neg he, if_neg he, if_pos hw, hbuf, Option.bind_some, hpeek, Option.map_some,
        slistRemove_first hd]
      rfl

/-- A body that does not fit is cut. -/
theorem fillHeader_cut (mtuTx : Nat) (hr : Ready h) (hd : Distinct (h :: hs)) (hlt : left < 65536)
    (hb : h.hi = obexHdrBody) (hpart : left < h.body.length + 3) (hleft : 3 ≤ left) :
    fillHeader mtuTx h (h :: hs) left =
      some { bytes := (obexHdrBody :: be16 left) ++ h.body.take (left - 3)
             queue := h.cut (left - 3) :: hs, txLeft := 0, addmore := true } := by
  obtain ⟨b, hbuf, hcont, hsize, -⟩ := hr.bodyBuf hb
  have hn : sizeT ((left : Int) - 3) = left - 3 := by
    unfold sizeT
    omega
  have hu : u16 (left : Int) = left := by
    unfold u16
    omega
  have hzero : u16 ((left : Int) - left) = 0 := by
    rw [Int.sub_self]
    rfl
  have hpeek : bufPeek b 0 (left - 3) = some (h.body.take (left - 3)) := by
    rw [bufPeek_of_le (by omega), hcont]
    rfl
  obtain ⟨hne, -⟩ := List.nodup_cons.1 hd
  have hmap : ((h :: hs).map fun e => if addr e = addr h then
      { h with buf := some (bufRemoveBegin b (left - 3)), bodyTouched := true } else e) =
      h.cut (left - 3) :: hs := by
    rw [List.map_cons, if_pos rfl, HeaderElement.cut, hbuf]
    congr 1
    refine (List.map_congr_left fun e he => ?_).trans (List.map_id _)
    have hother : addr e ≠ addr h := fun ha => hne (by rw [← ha]; exact List.mem_map_of_mem he)
    rw [if_neg hother]
    rfl
  rw [fillHeader, if_pos hb, hbuf, Option.bind_some, fillBody, if_pos (by omega), hn, hpeek,
    Option.map_some, hu, hzero, hmap]

/-- With less than three bytes left the body is read behind its end. -/
theorem fillHeader_squeezed (mtuTx : Nat) (hr : Ready h) (hb : h.hi = obexHdrBody) (hleft : left < 3)
    (hs : List HeaderElement) :
    fillHeader mtuTx h (h :: hs) left = none := by
  obtain ⟨b, hbuf, -, hsize, hsmall, -⟩ := hr.bodyBuf hb
  have hbig := squeezed_size hleft
  have hpeek : bufPeek b 0 (sizeT ((left : Int) - 3)) = none := by
    unfold bufPeek
    rw [if_neg (by omega)]
  rw [fillHeader, if_pos hb, hbuf, Option.bind_some, fillBody, if_pos (by omega), hpeek,
    Option.map_none]

/-- A header that does not fit waits for the next packet. -/
theorem fillHeader_waits (hs : List HeaderElement) (hb : h.hi ≠ obexHdrBody) (he : h.hi ≠ obexHdrEmpty)
    (hlong : left < h.length) (hmtu : h.length ≤ mtuTx) : fillHeader mtuTx h (h :: hs) left =
      some { bytes := [], queue := h :: hs, txLeft := left, addmore := false } := by
  rw [fillHeader, if_neg hb, if_neg he, if_neg (by omega), if_neg (by omega)]

/-! ## One packet -/

/-- With `left` bytes, the headers in front of a body leave one or two for it. -/
def Squeezed : List HeaderElement → Nat → Prop
  | [], _ => False
  | h :: hs, left => h.hi = obexHdrBody ∧ (left = 1 ∨ left = 2) ∨
    h.Whole left ∧ h.flags.suspend = false ∧ Squeezed hs (left - h.taken)

/-- The first header fits in no packet, although it is not longer than the MTU. -/
def Blocked (mtuTx left : Nat) (queue : List HeaderElement) : Prop :=
  ∃ h hs, queue = h :: hs ∧ h.hi ≠ obexHdrBody ∧ h.hi ≠ obexHdrEmpty ∧ left < h.length ∧
    h.length ≤ mtuTx

theorem not_squeezed_zero (queue : List HeaderElement) : ¬ Squeezed queue 0 := by
  induction queue with
  | nil => exact fun h => h
  | cons h hs ih =>
    intro hsq
    obtain ⟨-, h0⟩ | ⟨-, -, hrest⟩ := hsq
    · omega
    · rw [Nat.zero_sub] at hrest
      exact ih hrest

theorem HeaderElement.Whole.not_squeezed {h : HeaderElement} (hw : h.Whole left) :
    ¬ (h.hi = obexHdrBody ∧ (left = 1 ∨ left = 2)) := by
  rintro ⟨hb, hleft⟩
  unfold HeaderElement.Whole at hw
  rw [if_pos hb] at hw
  omega

theorem HeaderElement.Whole.not_overlong {h : HeaderElement} (hw : h.Whole left) :
    ¬ Overlong mtuTx h left := by
  rintro ⟨hb, he, hlong, -⟩
  unfold HeaderElement.Whole at hw
  rw [if_neg hb, if_neg he] at hw
  omega

theorem HeaderElement.Whole.not_blocked {h : HeaderElement} (hw : h.Whole left) :
    ¬ Blocked mtuTx left (h :: hs) := by
  rintro ⟨_, _, heq, hb, he, hlong, -⟩
  cases heq
  unfold HeaderElement.Whole at hw
  rw [if_neg hb, if_neg he] at hw
  omega

/-- What one packet does to a queue. -/
inductive Packed (mtuTx fuel left : Nat) (queue : List HeaderElement) : Option Filled → Prop
  /-- The packet goes out. -/
  | sent (x : Filled) (hready : ∀ e ∈ x.rest, Ready e) (hsub : x.rest.map addr <:+ queue.map addr)
      (hrank : rank x.rest ≤ rank queue)
      (hless : queue ≠ [] → ¬ Blocked mtuTx left queue → 4 ≤ left → rank x.rest < rank queue)
      (hsame : Blocked mtuTx left queue → x.rest = queue) (hnot : ¬ Squeezed queue left) :
      Packed mtuTx fuel left queue (some x)
  /-- A header is longer than any packet. -/
  | overrun (hover : Overruns mtuTx fuel queue left) (hnot : ¬ Squeezed queue left) :
      Packed mtuTx fuel left queue none
  /-- A body is read behind its end. -/
  | squeezed (hsq : Squeezed queue left) (hnot : ¬ Overruns mtuTx fuel queue left) :
      Packed mtuTx fuel left queue none

/-- A packet with a header that is sent whole, by what happens behind it. -/
theorem packed_whole (hr : Ready h) (hd : Distinct (h :: hs)) (hrest : ∀ e ∈ hs, Ready e)
    (hlt : left < 65536) (hw : h.Whole left)
    (ih : 0 < left - h.taken → Packed mtuTx fuel (left - h.taken) hs
      (fill mtuTx fuel hs (left - h.taken))) :
    Packed mtuTx (fuel + 1) left (h :: hs) (fill mtuTx (fuel + 1) (h :: hs) left) := by
  have hfill := fillHeader_whole mtuTx hr hd hlt hw
  have hless : rank hs < rank (h :: hs) := by
    rw [rank_cons]
    omega
  have hover : Overruns mtuTx (fuel + 1) (h :: hs) left ↔
      (h.flags.suspend = false ∧ left - h.taken ≠ 0) ∧ Overruns mtuTx fuel hs (left - h.taken) := by
    constructor
    · intro hov
      obtain hlong | ⟨x, hx, hgo, hov⟩ := hov
      · exact absurd hlong hw.not_overlong
      · rw [hfill] at hx
        cases hx
        exact ⟨⟨by simpa using hgo.2.1, hgo.2.2⟩, hov⟩
    · intro hov
      refine .inr ⟨_, hfill, ⟨rfl, ?_, hov.1.2⟩, hov.2⟩
      rw [Bool.true_and, hov.1.1]
      exact Bool.false_ne_true
  rw [fill, hfill, Option.bind_some]
  dsimp only
  by_cases hgo : h.flags.suspend = false ∧ left - h.taken ≠ 0
  · rw [if_pos ⟨rfl, by rw [Bool.true_and, hgo.1]; exact Bool.false_ne_true, hgo.2⟩]
    have hnot (hn : ¬ Squeezed hs (left - h.taken)) : ¬ Squeezed (h :: hs) left := by
      intro hsq
      obtain hbody | ⟨-, -, hsq⟩ := hsq
      · exact hw.not_squeezed hbody
      · exact hn hsq
    have hpacked := ih (Nat.pos_of_ne_zero hgo.2)
    cases hf : fill mtuTx fuel hs (left - h.taken) with
    | some y =>
      rw [hf] at hpacked
      cases hpacked with
      | sent _ hready hsub hrank _ _ hn =>
        exact .sent _ hready (hsub.trans (List.suffix_cons _ _))
          (Nat.le_trans hrank (Nat.le_of_lt hless))
          (fun _ _ _ => Nat.lt_of_le_of_lt hrank hless) (fun hb => absurd hb hw.not_blocked) (hnot hn)
    | none =>
      rw [hf] at hpacked
      cases hpacked with
      | overrun hov hn => exact .overrun (hover.2 ⟨hgo, hov⟩) (hnot hn)
      | squeezed hsq hn => exact .squeezed (.inr ⟨hw, hgo.1, hsq⟩) fun hov => hn (hover.1 hov).2
  · rw [if_neg fun hc => hgo ⟨by simpa using hc.2.1, hc.2.2⟩]
    refine .sent _ hrest (List.suffix_cons _ _) (Nat.le_of_lt hless) (fun _ _ _ => hless)
      (fun hb => absurd hb hw.not_blocked) fun hsq => ?_
    obtain hbody | ⟨-, hsus, hsq⟩ := hsq
    · exact hw.not_squeezed hbody
    · by_cases hzero : left - h.taken = 0
      · rw [hzero] at hsq
        exact not_squeezed_zero _ hsq
      · exact hgo ⟨hsus, hzero⟩

/-- By induction on the queue. -/
theorem packed_fill {queue : List HeaderElement} (hready : ∀ e ∈ queue, Ready e) (hd : Distinct queue)
    (hlt : left < 65536) (hpos : 0 < left) (hfuel : queue.length < fuel) :
    Packed mtuTx fuel left queue (fill mtuTx fuel queue left) := by
  induction queue generalizing fuel left with
  | nil =>
    obtain ⟨fuel, rfl⟩ : ∃ k, fuel = k + 1 := ⟨fuel - 1, by omega⟩
    exact .sent _ hready (List.suffix_refl _) (Nat.le_refl _) (fun hne => absurd rfl hne) (fun _ => rfl)
      fun hsq => hsq
  | cons h hs ih =>
    rw [List.length_cons] at hfuel
    obtain ⟨fuel, rfl⟩ : ∃ k, fuel = k + 1 := ⟨fuel - 1, by omega⟩
    have hr := hready h List.mem_cons_self
    have hrest : ∀ e ∈ hs, Ready e := fun e he => hready e (List.mem_cons_of_mem _ he)
    have hd' : Distinct hs := (List.nodup_cons.1 hd).2
    by_cases hw : h.Whole left
    · exact packed_whole hr hd hrest hlt hw fun hp => ih hrest hd' (by omega) hp (by omega)
    have hnot (hn : ¬ (h.hi = obexHdrBody ∧ (left = 1 ∨ left = 2))) : ¬ Squeezed (h :: hs) left := by
      intro hsq
      obtain hbody | ⟨hwhole, -⟩ := hsq
      · exact hn hbody
      · exact hw hwhole
    unfold HeaderElement.Whole at hw
    by_cases hb : h.hi = obexHdrBody
    · rw [if_pos hb] at hw
      have hlong : ¬ Overlong mtuTx h left := fun hlong => hlong.1 hb
      by_cases hsmall : left < 3
      · -- no space for the header of the body
        have hfill := fillHeader_squeezed mtuTx hr hb hsmall hs
        rw [fill, hfill, Option.bind_none]
        refine .squeezed (.inl ⟨hb, by omega⟩) fun hov => ?_
        obtain hover | ⟨x, hx, -⟩ := hov
        · exact hlong hover
        · rw [hfill] at hx
          cases hx
      · have hfill := fillHeader_cut mtuTx hr hd hlt hb (by omega) (by omega)
        obtain ⟨-, -, -, -, -, hunsent, -⟩ := hr.bodyBuf hb
        have hcut : rank (h.cut (left - 3) :: hs) = 1 + (h.body.length - (left - 3)) + rank hs := by
          rw [rank_cons, hr.unsent_cut hb]
        have hle : rank (h.cut (left - 3) :: hs) ≤ rank (h :: hs) := by
          rw [hcut, rank_cons]
          omega
        rw [fill, hfill, Option.bind_some]
        dsimp only
        rw [if_neg fun hc => hc.2.2 rfl]
        refine .sent _ (fun e he => ?_) (List.suffix_refl _) hle (fun _ _ h4 => ?_) (fun hbl => ?_)
          (hnot fun hc => by omega)
        · cases he with
          | head => exact hr.cut hb _
          | tail _ he => exact hrest e he
        · show rank (h.cut (left - 3) :: hs) < rank (h :: hs)
          rw [hcut, rank_cons]
          omega
        · obtain ⟨_, _, heq, hno, -⟩ := hbl
          cases heq
          exact absurd hb hno
    · rw [if_neg hb] at hw
      by_cases he : h.hi = obexHdrEmpty
      · rw [if_pos he] at hw
        exact absurd trivial hw
      · rw [if_neg he] at hw
        have hlong : left < h.length := by omega
        by_cases hmtu : h.length ≤ mtuTx
        · -- a header that fits in an empty packet waits for the next one
          have hfill := fillHeader_waits hs hb he hlong hmtu
          have hblocked : Blocked mtuTx left (h :: hs) := ⟨h, hs, rfl, hb, he, hlong, hmtu⟩
          rw [fill, hfill, Option.bind_some]
          dsimp only
          rw [if_neg fun hc => by cases hc.1]
          exact .sent _ hready (List.suffix_refl _) (Nat.le_refl _) (fun _ hn => absurd hblocked hn)
            (fun _ => rfl) (hnot fun hc => hb hc.1)
        · have hover : Overlong mtuTx h left := ⟨hb, he, hlong, by omega⟩
          rw [fill, hover.fillHeader, Option.bind_none]
          exact .overrun (.inl hover) (hnot fun hc => hb hc.1)

/-! ## One call -/

theorem double_mod_lt {a m : Nat} (hm : 0 < m) (hlt : m < a) : 2 * (a % m) < a := by
  have hmod := Nat.mod_lt a hm
  have hdiv := Nat.div_add_mod a m
  have hq : 0 < a / m := Nat.div_pos (Nat.le_of_lt hlt) hm
  have hle : m ≤ m * (a / m) := Nat.le_mul_of_pos_right m hq
  omega

/-- An empty packet has space, also when it is made a multiple of the link MTU. -/
theorem initialTxLeft_bounds {s : Obex} (hmtu : 255 ≤ s.mtuTx ∧ s.mtuTx ≤ 65535) :
    4 ≤ initialTxLeft s ∧ initialTxLeft s < 65536 := by
  have hwhole : 4 ≤ u16 ((s.mtuTx : Int) - 3) ∧ u16 ((s.mtuTx : Int) - 3) < 65536 := by
    unfold u16
    omega
  unfold initialTxLeft
  cases s.trans.type with
  | irda =>
    dsimp only
    by_cases hr : 0 < s.trans.mtu ∧ s.trans.mtu < s.mtuTx
    · have hmod := double_mod_lt hr.1 hr.2
      have hcast : (s.mtuTx : Int) % s.trans.mtu = ((s.mtuTx % s.trans.mtu : Nat) : Int) := rfl
      rw [if_pos hr, hcast]
      unfold u16
      omega
    · rw [if_neg hr]
      exact hwhole
  | _ => exact hwhole

/-- The object at `p` has a queue of headers that are ready to be sent. -/
structure Prepared (p : Ptr) (s : Obex) (o : ObexObject) : Prop where
  object : s.objects p = some o
  ready : ∀ h ∈ o.txHeaderq, Ready h
  distinct : Distinct o.txHeaderq
  bound : ∀ h ∈ o.txHeaderq, addr h < s.fresh
  mtu : 255 ≤ s.mtuTx ∧ s.mtuTx ≤ 65535

/-- Whatever the transport answers, the call comes back, and fails or takes something off the queue. -/
def Progresses (p : Ptr) (allowfinalcmd forcefinalbit : Bool) (s : Obex) (o : ObexObject) : Prop :=
  ∀ (E : Env) (n : Nat), (∀ k, E.malloc k = true) → o.txHeaderq.length < n →
    wp (obexObjectSend (E.ctx .all n) p allowfinalcmd forcefinalbit)
      (fun r t => r < 0 ∨ ∃ o', t.objects p = some o' ∧ rank o'.txHeaderq < rank o.txHeaderq)
      (fun _ _ => False) s

/-- No body is squeezed, there is a header to be sent, and the first one fits in an empty packet. -/
def Clear (s : Obex) (o : ObexObject) : Prop :=
  ¬ Squeezed o.txHeaderq (initialTxLeft s) ∧
    (CanWrite s → o.txHeaderq ≠ [] ∧ ¬ Blocked s.mtuTx (initialTxLeft s) o.txHeaderq)

section
variable {p : Ptr} {s : Obex} {o : ObexObject} {allowfinalcmd forcefinalbit : Bool}

theorem Prepared.packed (h : Prepared p s o) {n : Nat} (hn : o.txHeaderq.length < n) :
    Packed s.mtuTx n (initialTxLeft s) o.txHeaderq (fill s.mtuTx n o.txHeaderq (initialTxLeft s)) := by
  obtain ⟨hlow, hhigh⟩ := initialTxLeft_bounds h.mtu
  exact packed_fill h.ready h.distinct hhigh (by omega) hn

theorem chooseOpcode_nonneg {r : Int} {k : PacketKind} (hr : 0 ≤ r) :
    0 ≤ if r < 0 then r else if k = .last then 1 else 0 := by
  rw [if_neg (by omega)]
  split <;> omega

theorem progresses_of_clear (h : Prepared p s o) (hsus : o.suspend = false) (hc : Clear s o) :
    Progresses p allowfinalcmd forcefinalbit s o := by
  intro E n hm hn
  obtain ⟨hlow, -⟩ := initialTxLeft_bounds h.mtu
  have hpacked := h.packed hn
  refine wp_send_total hm h.object (fun e he => (h.ready e he).plain) hsus
    (fun x xs r t hx _ _ hfail ht => ?_) (fun m q _ _ => .inl (by decide)) fun e t hx hover => ?_
  · obtain ⟨m, rfl⟩ := ht
    rw [hx] at hpacked
    cases hpacked with
    | sent _ _ _ _ hless _ _ =>
      by_cases hneg : r < 0
      · rw [if_pos hneg]
        exact .inl hneg
      · have hw : CanWrite s := by
          by_contra hno
          exact hneg (hfail hno)
        obtain ⟨hne, hfree⟩ := hc.2 hw
        exact .inr ⟨_, objects_setObject _ _ _, hless hne hfree hlow⟩
  · rw [hx] at hpacked
    cases hpacked with
    | overrun hov _ => exact hover hov
    | squeezed hsq _ => exact hc.1 hsq

/-- An environment that takes every packet. -/
def willingPeer : Env where
  malloc _ := true
  app _ := []
  write _ chunk := chunk.length
  read _ _ := none

theorem clear_of_progresses (h : Prepared p s o) (hsus : o.suspend = false)
    (hp : Progresses p allowfinalcmd forcefinalbit s o) : Clear s o := by
  have hn : o.txHeaderq.length < o.txHeaderq.length + 1 := Nat.lt_succ_self _
  have hpacked := h.packed hn
  have hplain : ∀ e ∈ o.txHeaderq, e.stream = false := fun e he => (h.ready e he).plain
  have hrun := hp willingPeer _ (fun _ => rfl) hn
  constructor
  · -- nothing comes back when a body is squeezed
    intro hsq
    have hstop : wp (obexObjectSend (willingPeer.ctx .all (o.txHeaderq.length + 1)) p allowfinalcmd
        forcefinalbit) (fun _ _ => False) (fun _ _ => True) s := by
      refine wp_send_total (fun _ => rfl) h.object hplain hsus (fun x xs r t hx _ _ _ _ => ?_)
        (fun m q hov _ => ?_) fun _ _ _ _ => trivial
      · rw [hx] at hpacked
        cases hpacked with
        | sent _ _ _ _ _ _ hnot => exact hnot hsq
      · cases hf : fill s.mtuTx (o.txHeaderq.length + 1) o.txHeaderq (initialTxLeft s) with
        | some x =>
          rw [hf] at hpacked
          cases hpacked with
          | sent _ _ _ _ _ _ hnot => exact hnot hsq
        | none =>
          rw [hf] at hpacked
          cases hpacked with
          | overrun _ hnot => exact hnot hsq
          | squeezed _ hnot => exact hnot hov
    exact not_wp_false (wp_mono (wp_and hrun hstop) (fun _ _ hr => hr.2) fun _ _ he => he.1)
  · intro hw
    have haccepts : Accepts willingPeer s := ⟨fun _ chunk => Int.natCast_nonneg chunk.length, hw⟩
    by_contra hno
    -- the call does not fail and leaves the queue as it is
    have hsame : wp (obexObjectSend (willingPeer.ctx .all (o.txHeaderq.length + 1)) p allowfinalcmd
        forcefinalbit) (fun r t => 0 ≤ r ∧ ∀ o', t.objects p = some o' → o'.txHeaderq = o.txHeaderq)
        (fun _ _ => True) s := by
      refine wp_send_total (fun _ => rfl) h.object hplain hsus (fun x xs r t hx _ hret _ ht => ?_)
        (fun m q hov _ => ?_) fun _ _ _ _ => trivial
      · obtain ⟨m, rfl⟩ := ht
        refine ⟨chooseOpcode_nonneg (hret haccepts), fun o' ho' => ?_⟩
        have hobj := (objects_setObject s p _).symm.trans ho'
        cases hobj
        rw [hx] at hpacked
        cases hpacked with
        | sent _ _ hsub _ _ hsame _ =>
          by_cases hne : o.txHeaderq = []
          · rw [hne] at hsub
            have hnil : x.rest.map addr = [] := List.suffix_nil.1 hsub
            rw [hne]
            exact List.map_eq_nil_iff.1 hnil
          · exact hsame (by_contra fun hb => hno ⟨hne, hb⟩)
      · exfalso
        by_cases hne : o.txHeaderq = []
        · rw [hne] at hov
          exact hov
        · have hblocked : Blocked s.mtuTx (initialTxLeft s) o.txHeaderq :=
            by_contra fun hb => hno ⟨hne, hb⟩
          obtain ⟨e, es, heq, hb, he, hlong, hmtu⟩ := hblocked
          rw [heq] at hov
          obtain hover | ⟨x, hx, hgo, -⟩ := hov
          · exact absurd hover.2.2.2 (by omega)
          · rw [fillHeader_waits es hb he hlong hmtu] at hx
            cases hx
            exact absurd hgo.1 Bool.false_ne_true
    refine not_wp_false (wp_mono (wp_and hrun hsame) (fun r t hr => ?_) fun _ _ he => he.1)
    obtain ⟨hprog, hpos, hq⟩ := hr
    cases hprog with
    | inl hneg => omega
    | inr hless =>
      obtain ⟨o', ho', hless⟩ := hless
      rw [hq o' ho'] at hless
      exact absurd hless (Nat.lt_irrefl _)

end

/-! ## Runs -/

/-- What can happen to an object while it is built and sent. -/
inductive Feeding
  | add (a : Adding)
  | addEmpty (hv : HeaderData) (size : Nat) (fit suspend : Bool)
  | send (allowfinalcmd forcefinalbit : Bool)
  /-- The object is suspended or resumed. -/
  | suspend (b : Bool)

def Feeding.Valid : Feeding → Prop
  | .add a => a.Valid
  | _ => True

def feedObject (C : Ctx) (p : Ptr) : Feeding → M Unit
  | .add a => do
    let _ ← obexObjectAddheader C p a.hi a.hv a.hvSize a.flags
  | .addEmpty hv size fit suspend => do
    let _ ← obexObjectAddheader C p obexHdrEmpty hv size { fitOnePacket := fit, suspend }
  | .send allowfinalcmd forcefinalbit => do
    let _ ← obexObjectSend C p allowfinalcmd forcefinalbit
  | .suspend b => update p fun o => { o with suspend := b }

section
variable {E : Env} {n : Nat} {p : Ptr} {s : Obex} {o : ObexObject}

/-- An element of the library is appended to the queue. -/
theorem Prepared.append (h : Prepared p s o) {e : HeaderElement} (he : Ready e) (ha : addr e = s.fresh)
    {o' : ObexObject} (hq : o'.txHeaderq = o.txHeaderq ++ [e]) :
    Prepared p (({ s with fresh := s.fresh + 1 } : Obex).setObject p (some o')) o' := by
  refine ⟨objects_setObject _ _ _, fun x hx => ?_, ?_, fun x hx => ?_, h.mtu⟩
  · rw [hq] at hx
    cases List.mem_append.1 hx with
    | inl hx => exact h.ready x hx
    | inr hx =>
      rw [List.mem_singleton.1 hx]
      exact he
  · unfold Distinct
    rw [hq, List.map_append]
    refine List.nodup_append.2 ⟨h.distinct, List.nodup_cons.2 ⟨List.not_mem_nil, List.nodup_nil⟩, ?_⟩
    intro x hx y hy
    obtain ⟨z, hz, rfl⟩ := List.mem_map.1 hx
    have hlt := h.bound z hz
    rw [List.mem_singleton.1 hy, ha]
    exact Nat.ne_of_lt hlt
  · rw [hq] at hx
    show addr x < s.fresh + 1
    cases List.mem_append.1 hx with
    | inl hx =>
      have hlt := h.bound x hx
      omega
    | inr hx =>
      rw [List.mem_singleton.1 hx, ha]
      exact Nat.lt_succ_self _

theorem Adding.Valid.size_lt {a : Adding} (ha : a.Valid) : a.size < 4294967296 := by
  have hsmall := ha.small
  unfold Adding.sized at hsmall
  unfold Adding.size
  cases hk : hiType a.hi with
  | byte => simp
  | int => simp
  | unicode =>
    rw [hk] at hsmall
    have hlt := hsmall rfl
    dsimp only
    omega
  | byteStream =>
    rw [hk] at hsmall
    have hlt := hsmall rfl
    dsimp only
    omega

theorem ready_of_added {a : Adding} (ha : a.Valid) {b : Buf} (hb : b.contents = a.encoding)
    (hl : b.buffer.length = a.size) {k : Ptr} :
    Ready { addr := k, buf := some b, hi := a.hi, flags := a.flags, length := a.size
            bodyTouched := false, stream := false } := by
  have hsize : b.dataSize = a.size := by rw [← length_contents, hb, ha.length_encoding]
  have hlt := ha.size_lt
  refine ⟨rfl, fun _ => ⟨b, rfl⟩, fun c hc => ?_, fun hbody _ c hc => ?_, fun _ c hc => ?_⟩
  · cases hc
    omega
  · cases hc
    have hk : hiType a.hi = .byteStream := by
      rw [show a.hi = obexHdrBody from hbody]
      rfl
    rw [hsize, Adding.size, hk]
    exact Nat.le_add_left _ _
  · cases hc
    exact hsize

/-- What a packet leaves in the queue is prepared, in any state that has the object with it. -/
theorem Prepared.sent (h : Prepared p s o) {k : Nat} {x : Filled}
    (hx : fill s.mtuTx k o.txHeaderq (initialTxLeft s) = some x) {t : Obex} {o' : ObexObject}
    (ho' : t.objects p = some o') (hq : o'.txHeaderq = x.rest) (hf : t.fresh = s.fresh)
    (hm : t.mtuTx = s.mtuTx) : Prepared p t o' := by
  have hpacked := h.packed (Nat.lt_succ_self _)
  rw [fill_rounds hx (Nat.lt_succ_self _)] at hpacked
  cases hpacked with
  | sent _ hready hsub _ _ _ _ =>
    refine ⟨ho', by rwa [hq], ?_, fun e he => ?_, by rw [hm]; exact h.mtu⟩
    · unfold Distinct
      rw [hq]
      exact h.distinct.sublist hsub.sublist
    · rw [hq] at he
      obtain ⟨e', he', ha⟩ := List.mem_map.1 (hsub.subset (List.mem_map_of_mem he))
      rw [hf, ← ha]
      exact h.bound e' he'

/-- A call that gives up has only taken headers off the queue. -/
theorem Prepared.gaveUp (h : Prepared p s o) {q : List HeaderElement} (hsub : q.Sublist o.txHeaderq)
    {t : Obex} {o' : ObexObject} (ho' : t.objects p = some o') (hq : o'.txHeaderq = q)
    (hf : t.fresh = s.fresh) (hm : t.mtuTx = s.mtuTx) : Prepared p t o' := by
  refine ⟨ho', fun e he => ?_, ?_, fun e he => ?_, by rw [hm]; exact h.mtu⟩
  · rw [hq] at he
    exact h.ready e (hsub.subset he)
  · unfold Distinct
    rw [hq]
    exact h.distinct.sublist (hsub.map _)
  · rw [hq] at he
    rw [hf]
    exact h.bound e (hsub.subset he)

/-- Whatever is done to it, the object stays prepared. -/
theorem Prepared.step (h : Prepared p s o) {x : Feeding} (hx : x.Valid) :
    wp (feedObject (E.ctx .all n) p x) (fun _ t => ∃ o', Prepared p t o') (fun _ _ => True) s := by
  have hsame (q : ObexObject → ObexObject) (hq : ∀ o, (q o).txHeaderq = o.txHeaderq) :
      Prepared p (s.setObject p (some (q o))) (q o) := by
    refine ⟨objects_setObject _ _ _, ?_, ?_, ?_, h.mtu⟩
    · rw [hq]
      exact h.ready
    · rw [hq]
      exact h.distinct
    · rw [hq]
      exact h.bound
  cases x with
  | add a =>
    refine wp_bind.2 (wp_addheader hx h.object (fun _ _ b hb hl => ?_) fun _ k hk => ?_)
    · exact ⟨_, h.append (ready_of_added hx hb hl) rfl rfl⟩
    · exact ⟨o, h.object, h.ready, h.distinct, fun x hx => Nat.lt_of_lt_of_le (h.bound x hx) hk, h.mtu⟩
  | addEmpty hv size fit suspend =>
    refine wp_bind.2 (wp_addempty rfl rfl rfl h.object ?_ ⟨o, h⟩)
    refine ⟨_, h.append ⟨rfl, fun hno => absurd rfl hno, fun b hb => ?_, fun hbody => ?_,
      fun _ b hb => ?_⟩
      rfl rfl⟩
    · cases hb
    · cases hbody
    · cases hb
  | send allowfinalcmd forcefinalbit =>
    by_cases hsus : o.suspend = true
    · rw [feedObject, obexObjectSend, wp_bind, wp_bind, wp_deref, h.object]
      refine ⟨fun o' ho' => ?_, fun hno => by cases hno⟩
      cases ho'
      rw [if_pos hsus]
      exact ⟨o, h⟩
    · refine wp_bind.2 (wp_send_fill h.object (fun e he => (h.ready e he).plain) (by simpa using hsus)
        (fun x m hx _ => ?_) (fun m q _ hsub => ?_) fun _ _ _ _ _ _ _ => trivial)
      · have hwrite : WriteFrame (E.ctx .all n) (fun t => ∃ o', t.objects p = some o' ∧
            o'.txHeaderq = x.rest ∧ t.fresh = s.fresh ∧ t.mtuTx = s.mtuTx) (fun _ _ => True) False :=
          ⟨fun _ _ _ _ => trivial, fun _ _ h => h, fun _ _ ht => wp_ctx_write ⟨ht, fun hf => hf.elim⟩,
            fun hf => hf.elim⟩
        refine wp_conseq (wp_dataRequest hwrite (fun _ _ => trivial) fun b _ => ?_) fun r t ht => ?_
        · exact ⟨_, objects_setObject _ _ _, rfl, rfl, rfl⟩
        · obtain ⟨⟨o', ho', hq, hf, hm⟩, -⟩ := ht
          exact ⟨o', h.sent hx ho' hq hf hm⟩
      · exact ⟨_, h.gaveUp hsub.sublist (filling_objects _ _ _ _ _ _) rfl rfl rfl⟩
  | suspend b =>
    rw [feedObject, wp_update, h.object]
    refine ⟨fun o' ho' => ?_, fun hno => by cases hno⟩
    cases ho'
    exact ⟨_, hsame (fun o => { o with suspend := b }) fun _ => rfl⟩

theorem Prepared.run {xs : List Feeding} (hxs : ∀ x ∈ xs, x.Valid) (h : Prepared p s o) :
    wp (iterate (feedObject (E.ctx .all n) p) xs) (fun _ t => ∃ o', Prepared p t o')
      (fun _ _ => True) s := by
  have hkeeps : Keeps (fun t => ∃ o', Prepared p t o') (fun _ _ => True)
      (iterate (feedObject (E.ctx .all n) p) xs) := by
    refine Keeps.iterate xs fun x hx t ht => ?_
    obtain ⟨o', ho'⟩ := ht
    exact ho'.step (hxs x hx)
  exact hkeeps s ⟨o, h⟩

end

/-- The object at `p` is resumed. -/
def resumed (p : Ptr) (s : Obex) : Obex := match s.objects p with
  | some o => s.setObject p (some { o with suspend := false })
  | none => s

/-- `k` packets are sent, each without an error and from a queue that is clear; between them the object
is resumed. -/
inductive Sends (p : Ptr) : Nat → Obex → Obex → Prop
  | nil (s : Obex) : Sends p 0 s s
  | packet {E : Env} {n k : Nat} {a f : Bool} {r : Int} {s t u : Obex} {o : ObexObject}
      (hm : ∀ k, E.malloc k = true) (ho : s.objects p = some o) (hsus : o.suspend = false)
      (hn : o.txHeaderq.length < n) (hc : Clear s o)
      (hrun : obexObjectSend (E.ctx .all n) p a f s = .ok r t) (hr : 0 ≤ r)
      (hrest : Sends p k (resumed p t) u) : Sends p (k + 1) s u

theorem Sends.bounded {p : Ptr} {k : Nat} {s u : Obex} (h : Sends p k s u) {o : ObexObject}
    (hs : Prepared p s o) : ∃ o', Prepared p u o' ∧ k + rank o'.txHeaderq ≤ rank o.txHeaderq := by
  induction h generalizing o with
  | nil s => exact ⟨o, hs, by omega⟩
  | @packet E n k a f r s t u o₁ hm ho hsus hn hc hrun hr hrest ih =>
    rw [hs.object] at ho
    cases ho
    have hall : Progresses p a f s _ := progresses_of_clear hs hsus hc
    have hprog := hall E n hm hn
    have hstep := hs.step (E := E) (n := n) (x := .send a f) trivial
    obtain ⟨o₁, ho₁, hless⟩ := (wp_ok hprog hrun).resolve_left (by omega)
    obtain ⟨o₂, ho₂⟩ : ∃ o', Prepared p t o' := by
      rw [feedObject, wp_bind, wp_iff_ok hrun] at hstep
      exact hstep
    have heq : o₂ = o₁ := Option.some_inj.1 (ho₂.object.symm.trans ho₁)
    have hres : Prepared p (resumed p t) { o₂ with suspend := false } := by
      unfold resumed
      rw [ho₂.object]
      exact ⟨objects_setObject _ _ _, ho₂.ready, ho₂.distinct, ho₂.bound, ho₂.mtu⟩
    obtain ⟨o', ho', hle⟩ := ih hres
    refine ⟨o', ho', ?_⟩
    have hle' : k + rank o'.txHeaderq ≤ rank o₂.txHeaderq := hle
    rw [heq] at hle'
    omega

/-- Whenever an object without streams is sent that `OBEX_ObjectAddHeader` has built, the call makes
progress exactly if the queue is clear; and as long as it is, there are no more packets than headers
and bytes in the queue. -/
theorem progress_iff (E : Env) (n : Nat) (p : Ptr) (s : Obex) (o : ObexObject) (xs : List Feeding)
    (ho : s.objects p = some o) (hq : o.txHeaderq = []) (hmtu : 255 ≤ s.mtuTx ∧ s.mtuTx ≤ 65535)
    (hxs : ∀ x ∈ xs, x.Valid) :
    wp (iterate (feedObject (E.ctx .all n) p) xs) (fun _ t => ∃ o', t.objects p = some o' ∧
      (o'.suspend = false → ∀ a f, Progresses p a f t o' ↔ Clear t o') ∧
      ∀ k u, Sends p k t u → ∃ o'', u.objects p = some o'' ∧ k + rank o''.txHeaderq ≤ rank o'.txHeaderq)
      (fun _ _ => True) s := by
  have hnil : ∀ e ∈ o.txHeaderq, False := by
    rw [hq]
    exact fun _ he => (List.not_mem_nil he).elim
  have hdist : Distinct o.txHeaderq := by
    unfold Distinct
    rw [hq]
    exact List.nodup_nil
  have hs : Prepared p s o :=
    ⟨ho, fun e he => (hnil e he).elim, hdist, fun e he => (hnil e he).elim, hmtu⟩
  refine wp_conseq (hs.run hxs) fun _ t ht => ?_
  obtain ⟨o', ho'⟩ := ht
  refine ⟨o', ho'.object, fun hsus a f =>
    ⟨clear_of_progresses ho' hsus, progresses_of_clear ho' hsus⟩, ?_⟩
  intro k u hsends
  obtain ⟨o'', ho'', hle⟩ := hsends.bounded ho'
  exact ⟨o'', ho''.object, hle⟩

/-- Headers with and without the flag, a body among them, and two sends, the first while suspended. -/
def mixedFeeding : List Feeding :=
  mixedFlags.map .add ++ [.suspend true, .send true false, .suspend false, .send true false]

theorem mixedFeeding_valid : ∀ x ∈ mixedFeeding, x.Valid := by
  intro x hx
  rcases List.mem_append.1 hx with hx | hx
  · obtain ⟨a, ha, rfl⟩ := List.mem_map.1 hx
    exact mixedFlags_valid a ha
  · simp only [List.mem_cons, List.not_mem_nil, or_false] at hx
    rcases hx with rfl | rfl | rfl | rfl
    all_goals trivial

theorem progress_iff_mixed :
    wp (iterate (feedObject (willingPeer.ctx .all 5) 0) mixedFeeding)
      (fun _ t => ∃ o', t.objects 0 = some o' ∧
      (o'.suspend = false → ∀ a f, Progresses 0 a f t o' ↔ Clear t o') ∧
      ∀ k u, Sends 0 k t u → ∃ o'', u.objects 0 = some o'' ∧ k + rank o''.txHeaderq ≤ rank o'.txHeaderq)
      (fun _ _ => True) oneObject := by
  have hvalid := mixedFeeding_valid
  generalize mixedFeeding = xs at hvalid ⊢
  exact progress_iff willingPeer 5 0 oneObject zeroObject xs rfl rfl (by decide) hvalid

/-- A handle on IrDA with a link MTU of 200, and a new object. -/
def onIrda : Obex :=
  ({ obexInit .irda with trans := { type := .irda, connected := true, mtu := 200 } } : Obex).setObject 0
    (some zeroObject)

def streamOf230 : Adding where
  hi := 0x42
  hv := { bs := some (List.replicate 230 0) }
  hvSize := 230
  fit := false
  suspend := false

theorem streamOf230_valid : streamOf230.Valid :=
  ⟨by decide, fun _ => by decide, fun _ => .inr ⟨_, rfl, Nat.le_of_eq List.length_replicate.symm⟩⟩

/-- On IrDA packets of 255 are cut to 200, and a header of 233 bytes is never sent. -/
theorem blocked_no_progress : ¬ ∀ (E : Env) (n : Nat) (p : Ptr) (s : Obex) (o : ObexObject)
    (xs : List Feeding), (∀ k, E.malloc k = true) → s.objects p = some o → o.txHeaderq = [] →
    (255 ≤ s.mtuTx ∧ s.mtuTx ≤ 65535) → (∀ x ∈ xs, x.Valid) →
    wp (iterate (feedObject (E.ctx .all n) p) xs) (fun _ t => ∃ o', t.objects p = some o' ∧
      (o'.suspend = false → ∀ a f, Progresses p a f t o')) (fun _ _ => True) s := by
  intro h
  obtain ⟨s, ho, hmtu, hleft, htype⟩ : ∃ s : Obex, s.objects 0 = some zeroObject ∧ s.mtuTx = 255 ∧
      initialTxLeft s = 197 ∧ s.trans.type = .irda := ⟨onIrda, rfl, rfl, by decide, rfl⟩
  obtain ⟨a, ha, hb, he, hsize⟩ : ∃ a : Adding, a.Valid ∧ a.hi ≠ obexHdrBody ∧ a.hi ≠ obexHdrEmpty ∧
      a.size = 233 := ⟨streamOf230, streamOf230_valid, by decide, by decide, rfl⟩
  obtain ⟨E, hE⟩ : ∃ E : Env, ∀ k, E.malloc k = true := ⟨willingPeer, fun _ => rfl⟩
  have hs : Prepared 0 s zeroObject :=
    ⟨ho, fun _ hx => (List.not_mem_nil hx).elim, List.nodup_nil, fun _ hx => (List.not_mem_nil hx).elim,
      by rw [hmtu]; decide⟩
  have hrun := h E 0 0 s zeroObject [.add a] hE ho rfl (by rw [hmtu]; decide) fun x hx => by
    rw [List.mem_singleton.1 hx]
    exact ha
  -- the header is accepted, and blocks the queue
  have hblocked : wp (iterate (feedObject (E.ctx .all 0) 0) [.add a])
    (fun _ t => ∀ o', t.objects 0 = some o' →
      o'.suspend = false ∧ Prepared 0 t o' ∧ ¬ Clear t o') (fun _ _ => False) s := by
    have hmaxlen : maxlen s zeroObject a.flags = 252 := by
      unfold maxlen
      rw [hmtu]
      split <;> rfl
    refine wp_bind.2 (wp_bind.2 (wp_addheader ha ho (fun _ _ b hc hl o' ho' => ?_) fun hno => ?_))
    · have hobj := (objects_setObject _ _ _).symm.trans ho'
      cases hobj
      refine ⟨rfl, hs.append (ready_of_added ha hc hl) rfl rfl, fun hclear => ?_⟩
      refine (hclear.2 fun hu => ?_).2 ⟨_, [], rfl, hb, he, ?_, ?_⟩
      · exact absurd (htype.symm.trans hu) (by simp)
      · show initialTxLeft s < a.size
        rw [hleft, hsize]
        decide
      · show a.size ≤ s.mtuTx
        rw [hmtu, hsize]
        decide
    · refine (hno ⟨⟨?_, ?_⟩, fun hbig => ?_⟩).elim
      · rw [ctx_malloc]
        exact hE _
      · rw [ctx_malloc]
        exact hE _
      · have hlt := hbig.2
        rw [hmaxlen, hsize] at hlt
        exact absurd hlt (by decide)
  refine not_wp_false (wp_mono (wp_and hrun hblocked) (fun _ t ht => ?_) fun _ _ hf => hf.2)
  obtain ⟨⟨o', ho', hprog⟩, hno⟩ := ht
  obtain ⟨hsus, hprep, hnot⟩ := hno o' ho'
  have hp : Progresses 0 true false t o' := hprog hsus true false
  exact hnot (clear_of_progresses hprep hsus hp)

end OpenObex
