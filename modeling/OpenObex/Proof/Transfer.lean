import OpenObex.Proof.Agreement
import OpenObex.Proof.Packing
import OpenObex.Proof.Parcels
import OpenObex.Proof.StreamRuns

/-!
# A list of headers from one side to the other

The headers that `OBEX_ObjectAddHeader` has queued are sent packet by packet, and the packets are
received in buffered mode on the other side. The queue of the sender is a list of parcels (`Letter`),
and a call of `obex_object_send` packs them as `pack` does, so what arrives is what `drain` yields
(`transfer_iff`).
-/

namespace OpenObex

open Mem Prog

/-! ## The queue as a list of parcels -/

structure Letter (x : Parcel) (e : HeaderElement) : Prop where
  ready : Ready e
  pause : e.flags.suspend = x.pause
  hi : e.hi = x.head.hi
  named : e.hi ≠ obexHdrEmpty
  body : e.hi = obexHdrBody → e.body = x.head.value
  encoding : e.hi ≠ obexHdrBody → (e.buf.map Buf.contents).getD [] = x.head.encode
  length : e.hi ≠ obexHdrBody → e.length = x.size

namespace Letter

variable {x : Parcel} {e : HeaderElement} {left : Nat}

theorem ofBody_iff (h : Letter x e) : x.ofBody = true ↔ e.hi = obexHdrBody := by
  rw [h.hi]
  exact decide_eq_true_iff

theorem whole_iff (h : Letter x e) : e.Whole left ↔ x.size ≤ left := by
  unfold HeaderElement.Whole
  by_cases hb : e.hi = obexHdrBody
  · rw [if_pos hb, x.size_body (h.ofBody_iff.2 hb), h.body hb]
  · rw [if_neg hb, if_neg h.named, h.length hb]

theorem taken_eq (h : Letter x e) : e.taken = x.taken := by
  unfold HeaderElement.taken Parcel.taken
  by_cases hb : e.hi = obexHdrBody
  · rw [if_pos hb, if_pos (h.ofBody_iff.2 hb), h.body hb]
  · rw [if_neg hb, if_neg h.named, if_neg (mt h.ofBody_iff.1 hb), h.length hb]

theorem wire_eq (h : Letter x e) (hfit : x.size ≤ left) (hleft : left < 65536) :
    e.wire = x.whole.encode := by
  unfold HeaderElement.wire Parcel.whole
  by_cases hb : e.hi = obexHdrBody
  · have hx := h.ofBody_iff.2 hb
    rw [x.size_body hx] at hfit
    have hu : u16 ((x.head.value.length + 3 : Nat) : Int) = x.head.value.length + 3 := by
      unfold u16
      omega
    rw [if_pos hb, if_pos hx, h.body hb]
    rw [encode_fragment rfl]
    have hcast : ((x.head.value.length : Int) + 3) = ((x.head.value.length + 3 : Nat) : Int) := rfl
    rw [hcast, hu]
  · rw [if_neg hb, if_neg h.named, if_neg (mt h.ofBody_iff.1 hb), h.encoding hb]

theorem cut (h : Letter x e) (hb : e.hi = obexHdrBody) (n : Nat) : Letter (x.rest n) (e.cut n) := by
  refine ⟨h.ready.cut hb n, h.pause, h.hi, h.named, fun _ => ?_, fun hno => absurd hb hno, fun hno =>
    absurd hb hno⟩
  obtain ⟨b, hbuf, hcont, -⟩ := h.ready.bodyBuf hb
  have hcut : (e.cut n).bodyBuf = some (bufRemoveBegin b n) := by
    unfold HeaderElement.bodyBuf HeaderElement.cut
    rw [hbuf]
    rfl
  rw [HeaderElement.body, hcut, Option.map_some, Option.getD_some, contents_bufRemoveBegin, hcont,
    h.body hb]
  rfl

end Letter

/-! ## One packet -/

section
variable {mtuTx fuel left room : Nat} {xs ys : List Parcel} {hs : List Head}
    {queue : List HeaderElement}

theorem fill_whole {h : HeaderElement} {es : List HeaderElement} (hr : Ready h)
    (hd : Distinct (h :: es)) (hlt : left < 65536) (hw : h.Whole left) :
    fill mtuTx (fuel + 1) (h :: es) left =
      if h.flags.suspend = true ∨ left - h.taken = 0 then
        some { bytes := h.wire, rest := es, suspend := h.flags.suspend }
      else (fill mtuTx fuel es (left - h.taken)).map fun y =>
        { y with bytes := h.wire ++ y.bytes } := by
  rw [fill, fillHeader_whole mtuTx hr hd hlt hw, Option.bind_some]
  dsimp only
  rw [Bool.true_and]
  by_cases hstop : h.flags.suspend = true ∨ left - h.taken = 0
  · rw [if_pos hstop, if_neg]
    rintro ⟨-, h1, h2⟩
    exact hstop.elim h1 h2
  · obtain ⟨h1, h2⟩ := not_or.1 hstop
    rw [if_neg hstop, if_pos ⟨rfl, h1, h2⟩]

/-- The library packs the queue as the parcels are packed. -/
theorem fill_pack (hq : List.Forall₂ Letter xs queue) (hd : Distinct queue) (hp : Packable room xs)
    (hroom : room ≤ mtuTx) (hleft : left < 65536) (hfuel : queue.length < fuel)
    (h : pack left xs = some (hs, ys)) : ∃ y, fill mtuTx fuel queue left = some y ∧
      y.bytes = hs.flatMap Head.encode ∧ List.Forall₂ Letter ys y.rest := by
  induction hq generalizing fuel left hs with
  | nil =>
    obtain ⟨fuel, rfl⟩ : ∃ k, fuel = k + 1 := ⟨fuel - 1, by omega⟩
    cases h
    exact ⟨_, rfl, rfl, .nil⟩
  | @cons x e xs es hx hq ih =>
    obtain ⟨fuel, rfl⟩ : ∃ k, fuel = k + 1 := ⟨fuel - 1, by omega⟩
    rw [List.length_cons] at hfuel
    have hd' : Distinct es := (List.nodup_cons.1 hd).2
    have hstop : (e.flags.suspend = true ∨ left - e.taken = 0) ↔
      (x.pause = true ∨ left - x.taken = 0) := by
      rw [hx.pause, hx.taken_eq]
    rcases pack_cases h with ⟨hfit, hlast, rfl, rfl⟩ | ⟨hfit, hlast, gs, hgs, rfl⟩
      | ⟨hlt, hb, h3, rfl, rfl⟩ |
      ⟨hlt, hb, rfl, rfl⟩
    · rw [fill_whole hx.ready hd hleft (hx.whole_iff.2 hfit), if_pos (hstop.2 hlast)]
      exact ⟨_, rfl, by simp [hx.wire_eq hfit hleft], hq⟩
    · rw [fill_whole hx.ready hd hleft (hx.whole_iff.2 hfit), if_neg (mt hstop.1 hlast), hx.taken_eq]
      obtain ⟨y, hy, hbytes, hrest⟩ := ih hd' hp.tail (by omega) (by omega : es.length < fuel) hgs
      rw [hy, Option.map_some]
      exact ⟨_, rfl, by simp [hx.wire_eq hfit hleft, hbytes], hrest⟩
    · have hbody := hx.ofBody_iff.1 hb
      rw [x.size_body hb, ← hx.body hbody] at hlt
      rw [fill, fillHeader_cut mtuTx hx.ready hd hleft hbody hlt h3, Option.bind_some]
      dsimp only
      rw [if_neg fun hc => hc.2.2 rfl]
      refine ⟨_, rfl, ?_, .cons (hx.cut hbody _) hq⟩
      have hlen : (x.head.value.take (left - 3)).length + 3 = left := by
        rw [← hx.body hbody, List.length_take]
        omega
      rw [List.flatMap_singleton, Parcel.part, encode_fragment rfl, hx.body hbody, hlen]
    · have hno : e.hi ≠ obexHdrBody := fun hbody => by
        rw [hx.ofBody_iff.2 hbody] at hb
        cases hb
      have hsize := (hp.fits x List.mem_cons_self hb).2.2
      have hlen := hx.length hno
      rw [fill, fillHeader_waits es hno hx.named (by omega) (by omega), Option.bind_some]
      dsimp only
      rw [if_neg fun hc => by cases hc.1]
      exact ⟨_, rfl, rfl, .cons hx hq⟩

/-- It fails where they are not. -/
theorem fill_pack_none (hq : List.Forall₂ Letter xs queue) (hd : Distinct queue) (hp : Packable room xs)
    (hleft : left < 65536) (h : pack left xs = none) :
    fill mtuTx fuel queue left = none := by
  induction hq generalizing fuel left with
  | nil => cases h
  | @cons x e xs es hx hq ih =>
    cases fuel with
    | zero => rfl
    | succ fuel =>
    have hd' : Distinct es := (List.nodup_cons.1 hd).2
    rw [pack] at h
    by_cases hfit : x.size ≤ left
    · rw [if_pos hfit] at h
      have hstop : (e.flags.suspend = true ∨ left - e.taken = 0) ↔
        (x.pause = true ∨ left - x.taken = 0) := by
        rw [hx.pause, hx.taken_eq]
      by_cases hlast : x.pause = true ∨ left - x.taken = 0
      · rw [if_pos hlast] at h
        cases h
      · rw [if_neg hlast] at h
        rw [fill_whole hx.ready hd hleft (hx.whole_iff.2 hfit), if_neg (mt hstop.1 hlast), hx.taken_eq,
          ih hd' hp.tail (by omega) (Option.map_eq_none_iff.1 h), Option.map_none]
    · rw [if_neg hfit] at h
      by_cases hb : x.ofBody = true
      · rw [if_pos hb] at h
        by_cases h3 : left < 3
        · rw [fill, fillHeader_squeezed mtuTx hx.ready (hx.ofBody_iff.1 hb) h3, Option.bind_none]
        · rw [if_neg h3] at h
          cases h
      · rw [if_neg hb] at h
        cases h

theorem not_overruns (hq : List.Forall₂ Letter xs queue) (hd : Distinct queue) (hp : Packable room xs)
    (hroom : room ≤ mtuTx) : ¬ Overruns mtuTx fuel queue left := by
  induction hq generalizing fuel left with
  | nil => cases fuel <;> exact id
  | @cons x e xs es hx hq ih =>
    cases fuel with
    | zero => exact id
    | succ fuel =>
    rintro (⟨hb, hn, -, hlong⟩ | ⟨y, hy, ⟨hmore, -, hleft⟩, hrest⟩)
    · have hno : x.ofBody = false := by simpa using mt hx.ofBody_iff.1 hb
      have hsize := (hp.fits x List.mem_cons_self hno).2.2
      rw [hx.length hb] at hlong
      omega
    · rw [fillHeader_removes hy hmore hleft, slistRemove_first hd] at hrest
      exact ih (List.nodup_cons.1 hd).2 hp.tail hrest

end

/-! ## Building the queue -/

namespace Adding

/-- What the application may pass: a named header, no last fragment, with the bytes it announces. -/
structure Offered (a : Adding) : Prop where
  named : a.hi ≠ obexHdrEmpty
  unfinished : a.hi ≠ obexHdrBodyEnd
  size_lt : a.hvSize < 4294967296
  readable : a.sized = true → a.hvSize = 0 ∨ ∃ b, a.hv.bs = some b ∧ a.hvSize ≤ b.length

def parcel (a : Adding) : Parcel := { head := { hi := a.hi, value := a.value }, pause := a.suspend }

/-- What the application on the other side reads. -/
def read (a : Adding) : UInt8 × HeaderValue × Nat :=
  (a.hi, match hiType a.hi with
    | .byteStream | .unicode => .bs a.value
    | .int => .bq4 a.hv.bq4.toNat
    | .byte => .bq1 a.hv.bq1, a.value.length)

variable {a : Adding}

theorem Valid.size_eq (ha : a.Valid) : a.size = a.parcel.size := by
  rw [← ha.length_encoding, ha.head.1]
  rfl

theorem read_eq (a : Adding) : a.read = a.parcel.head.read := by
  unfold read Head.read parcel value
  cases hk : hiType a.hi with
  | byte => rfl
  | int =>
    have h32 : lengthValue (be32 a.hv.bq4.toNat) = a.hv.bq4.toNat :=
      (ofBe32_be32 _).trans (Nat.mod_eq_of_lt a.hv.bq4.toNat_lt)
    dsimp only
    rw [h32]
  | unicode => rfl
  | byteStream => rfl

end Adding

theorem letter_of_added {a : Adding} (ha : a.Valid) {b : Buf} (hb : b.contents = a.encoding)
    (hl : b.buffer.length = a.size) {k : Ptr} :
    Letter a.parcel { addr := k, buf := some b, hi := a.hi, flags := a.flags, length := a.size
                      bodyTouched := false, stream := false } := by
  refine ⟨ready_of_added ha hb hl, rfl, rfl, ha.named, fun hbody => ?_, fun _ => ?_, fun _ =>
    ha.size_eq⟩
  · have hhi : a.hi = obexHdrBody := hbody
    have hvalue : (bufRemoveBegin b 3).contents = a.value := by
      rw [contents_bufRemoveBegin, hb, ha.head.1]
      unfold Head.encode
      dsimp only
      rw [hhi]
      rfl
    exact hvalue
  · exact hb.trans ha.head.1

section
variable {C : Ctx} {s : Obex} {p : Ptr} {a : Adding}

/-- A value of 2^31 - 3 bytes or more is not encoded: the length is an `int`. -/
theorem wp_insertHvHeader_big {n : Nat} {hi : UInt8} {text : Option Bytes} {failed : M (Buf × Int)}
    (hn : 2147483645 ≤ n) (hlt : n < 4294967296)
    (hfailed : wp failed (fun r _ => r.2 ≤ 0) (fun _ _ => True) s) :
    wp (insertHvHeader C (freshBuf (n + 3)) hi text (i32 n) failed) (fun r _ => r.2 ≤ 0)
      (fun _ _ => True) s := by
  have hne : i32 n ≠ 0 := by
    unfold i32
    omega
  rw [insertHvHeader]
  cases text with
  | none =>
    rw [if_pos ⟨rfl, hne⟩]
    exact (by decide : (-1 : Int) ≤ 0)
  | some d =>
    rw [if_neg (by simp)]
    cases hr : bufReserveEnd C.malloc (freshBuf (n + 3)) (sizeT (i32 n + 3)) with
    | none => exact hfailed
    | some r =>
      obtain ⟨m, dest⟩ := r
      dsimp only
      rw [copyFrom, wp_bind, wp_ite]
      refine ⟨fun hle => ?_, fun _ => trivial⟩
      rw [wp_pure, wp_bind, wp_require]
      refine ⟨fun m' hm' => ?_, fun _ => trivial⟩
      show i32 (i32 n + 3) ≤ 0
      by_contra hpos
      -- one or two bytes are reserved, and nearly 2^64 copied
      have hsmall : sizeT (i32 n + 3) ≤ 2 := by
        unfold i32 at hpos
        unfold sizeT i32
        omega
      have hlarge : 8589934592 < sizeT (i32 n) := by
        unfold i32 at hpos
        unfold sizeT i32
        omega
      have hroom : sizeT (i32 n + 3) ≤ (freshBuf (n + 3)).tailAvail + (freshBuf (n + 3)).dataAvail := by
        show _ ≤ 0 + (n + 3)
        omega
      obtain ⟨⟨m₁, dest₁⟩, hr₁, hbuf⟩ : ∃ r, bufReserveEnd C.malloc (freshBuf (n + 3)) _ = some r ∧ _ :=
        bufReserveEnd_avail hroom
      rw [hr] at hr₁
      cases hr₁
      have hlen : m.buffer.length = n + 3 := by
        rw [hbuf]
        exact List.length_replicate
      have hfit := (bufPoke_some hm').2.2.2
      rw [List.length_append, length_slice hle, hlen] at hfit
      omega

theorem wp_encodeHeader_big (hs : a.sized = true) (hn : 2147483645 ≤ a.hvSize)
    (hlt : a.hvSize < 4294967296) :
    wp (encodeHeader C a.hi a.hv a.hvSize) (fun r _ => r.2.2 ≤ 0) (fun _ _ => True) s := by
  have hfail : (-1 : Int) ≤ 0 := by decide
  unfold Adding.sized at hs
  unfold encodeHeader bufNew
  cases hk : hiType a.hi with
  | byte =>
    rw [hk] at hs
    cases hs
  | int =>
    rw [hk] at hs
    cases hs
  | byteStream =>
    dsimp only
    by_cases hm : C.malloc (a.hvSize + 3) = true
    · rw [if_pos hm]
      dsimp only [insertByteStreamHeader]
      rw [wp_bind]
      exact wp_insertHvHeader_big hn hlt (Int.le_refl 0)
    · rw [if_neg hm]
      exact hfail
  | unicode =>
    dsimp only
    by_cases hm : C.malloc (a.hvSize + 3) = true
    · rw [if_pos hm]
      dsimp only [insertUnicodeHeader]
      rw [wp_bind]
      exact wp_insertHvHeader_big hn hlt trivial
    · rw [if_neg hm]
      exact hfail

/-- A header that is accepted is a valid one. -/
theorem wp_addheader_valid (ha : a.Offered) :
    wp (obexObjectAddheader C p a.hi a.hv a.hvSize a.flags) (fun r _ => r = 1 → a.Valid)
      (fun _ _ => True) s := by
  by_cases hbig : a.sized = true ∧ 2147483645 ≤ a.hvSize
  · obtain ⟨hs, hn⟩ := hbig
    have hnodata : ¬ a.flags.streamDataend = true := Bool.false_ne_true
    have hnodata' : ¬ a.flags.streamData = true := Bool.false_ne_true
    have hnostart : ¬ a.flags.streamStart = true := Bool.false_ne_true
    rw [obexObjectAddheader, wp_bind, wp_get, if_neg hnodata, if_neg hnodata', wp_bind, wp_deref]
    refine ⟨fun o ho => ?_, fun _ => trivial⟩
    by_cases hm : C.malloc sizeofHeaderElement = true
    · rw [if_pos hm, alloc, wp_bind, wp_bind, wp_get, wp_bind, wp_set, wp_pure, if_neg hnostart,
        if_neg ha.named]
      refine wp_seq (wp_encodeHeader_big hs hn ha.size_lt) ?_
      rintro ⟨buf, length, ret⟩ s' hret
      have hret : ret ≤ 0 := hret
      dsimp only
      rw [if_neg fun h => absurd h.1 (by omega)]
      refine wp_ite.2 ⟨fun _ h => ?_, fun _ h => ?_⟩
      · exact absurd h (by decide)
      · omega
    · rw [if_neg hm]
      exact fun h => absurd h (by decide)
  · refine wp_mono wp_true (fun _ _ _ _ => ?_) fun _ _ _ => trivial
    refine ⟨ha.named, fun hs => ?_, ha.readable⟩
    by_contra hn
    exact hbig ⟨hs, Nat.le_of_not_lt hn⟩

end

/-! ## The sender -/

/-- The object at `p` still has the parcels to send; nothing goes in front of its headers. -/
structure Mailing (p : Ptr) (mtu : Nat) (xs : List Parcel) (s : Obex) (o : ObexObject) : Prop where
  prepared : Prepared p s o
  letters : List.Forall₂ Letter xs o.txHeaderq
  front : o.nonhdr = []
  mtuTx : s.mtuTx = mtu
  direct : s.trans.type ≠ .irda

/-- The object is resumed and a packet sent until the queue is empty, `n` times at most. -/
def transmit (C : Ctx) (p : Ptr) (calls : Nat → Bool × Bool) : Nat → M Unit
  | 0 => pure ()
  | n + 1 => do
    let o ← deref p
    if o.txHeaderq = [] then pure ()
    else do
      update p fun o => { o with suspend := false }
      let _ ← obexObjectSend C p (calls n).1 (calls n).2
      transmit C p calls n

section
variable {E : Env} {n : Nat} {p : Ptr} {mtu : Nat} {xs ys : List Parcel} {hs : List Head} {s : Obex}
  {o : ObexObject} {allowfinalcmd forcefinalbit : Bool} {a : Adding}

theorem Mailing.room (h : Mailing p mtu xs s o) :
    initialTxLeft s = mtu - 3 ∧ 252 ≤ mtu - 3 ∧ mtu - 3 < 65536 := by
  have hmtu := h.prepared.mtu
  have hleft : initialTxLeft s = u16 ((s.mtuTx : Int) - 3) := by
    have hdirect := h.direct
    unfold initialTxLeft
    cases ht : s.trans.type with
    | irda => exact absurd ht hdirect
    | _ => rfl
  rw [hleft, h.mtuTx]
  rw [h.mtuTx] at hmtu
  unfold u16
  omega

theorem Mailing.add (h : Mailing p mtu xs s o) (ha : a.Valid) {C : Ctx} {R : Stop → Obex → Prop} :
    wp (obexObjectAddheader C p a.hi a.hv a.hvSize a.flags)
      (fun r t => r = 1 → ∃ o', Mailing p mtu (xs ++ [a.parcel]) t o') R s := by
  refine wp_addheader ha h.prepared.object (fun _ _ b hb hl _ => ?_) fun _ _ _ hr => ?_
  · refine ⟨_, h.prepared.append (ready_of_added ha hb hl) rfl rfl, ?_, h.front, h.mtuTx, h.direct⟩
    exact List.rel_append h.letters (.cons (letter_of_added ha hb hl) .nil)
  · exact absurd hr (by decide)

theorem Mailing.addAll {as : List Adding} (h : Mailing p mtu xs s o) (has : ∀ a ∈ as, a.Valid)
    {C : Ctx} :
    wp (addHeaders C p as) (fun rs t => (∀ r ∈ rs, r = 1) →
      ∃ o', Mailing p mtu (xs ++ as.map Adding.parcel) t o') (fun _ _ => True) s := by
  induction as generalizing xs s o with
  | nil =>
    intro _
    exact ⟨o, by simpa using h⟩
  | cons a as ih =>
    obtain ⟨ha, has⟩ := List.forall_mem_cons.1 has
    refine wp_seq (h.add ha) fun r t ht => ?_
    by_cases hr : r = 1
    · obtain ⟨o', ho'⟩ := ht hr
      refine wp_seq (ih ho' has) fun rs t' ht' => ?_
      rw [wp_pure]
      intro hall
      simpa using ht' (List.forall_mem_cons.1 hall).2
    · refine wp_seq (P := fun _ _ => True) (wp_mono wp_true (fun _ _ h => h) fun _ _ _ => trivial)
        fun rs t' _ => ?_
      rw [wp_pure]
      intro hall
      exact absurd (List.forall_mem_cons.1 hall).1 hr

theorem wp_addHeaders_valid {as : List Adding} (has : ∀ a ∈ as, a.Offered) {C : Ctx} :
    wp (addHeaders C p as) (fun rs _ => (∀ r ∈ rs, r = 1) → ∀ a ∈ as, a.Valid) (fun _ _ => True) s := by
  induction as generalizing s with
  | nil =>
    intro _ a ha
    cases ha
  | cons a as ih =>
    obtain ⟨ha, has⟩ := List.forall_mem_cons.1 has
    refine wp_seq (wp_addheader_valid ha) fun r t hr => ?_
    refine wp_seq (ih has) fun rs t' hrs => ?_
    rw [wp_pure]
    intro hall
    obtain ⟨hr1, hall⟩ := List.forall_mem_cons.1 hall
    exact List.forall_mem_cons.2 ⟨hr hr1, hrs hall⟩

theorem Mailing.sent (h : Mailing p mtu xs s o) {k : Nat} {x : Filled}
    (hx : fill s.mtuTx k o.txHeaderq (initialTxLeft s) = some x) (hys : List.Forall₂ Letter ys x.rest)
    {t : Obex} {o' : ObexObject} (ho' : t.objects p = some o') (hq : o'.txHeaderq = x.rest)
    (hn : o'.nonhdr = []) (hf : t.fresh = s.fresh) (hm : t.mtuTx = s.mtuTx) (ht : t.trans = s.trans) :
    Mailing p mtu ys t o' := by
  refine ⟨h.prepared.sent hx ho' hq hf hm, ?_, hn, hm.trans h.mtuTx, ?_⟩
  · rw [hq]
    exact hys
  · rw [ht]
    exact h.direct

theorem packetsOf_answers {xs : List Obs} (hxs : Answers xs) : packetsOf p xs = [] :=
  packetsOf_quiet fun x hx => .inr (hxs x hx)

/-- One call sends what is packed. -/
theorem Mailing.send (h : Mailing p mtu xs s o) (hm : ∀ k, E.malloc k = true) (hsus : o.suspend = false)
    (hp : Packable (mtu - 3) xs) (hn : xs.length < n) (hpack : pack (mtu - 3) xs = some (hs, ys)) :
    wp (obexObjectSend (E.ctx .all n) p allowfinalcmd forcefinalbit)
      (fun _ t => (∃ o', Mailing p mtu ys t o') ∧
      ∃ opcode, packetsOf p t.log = packetsOf p s.log ++ [packet opcode (hs.flatMap Head.encode)])
      (fun _ _ => False) s := by
  obtain ⟨hleft, -, hlt⟩ := h.room
  have hlen := h.letters.length_eq
  have hroom : mtu - 3 ≤ s.mtuTx := by
    rw [h.mtuTx]
    omega
  obtain ⟨y, hy, hbytes, hrest⟩ := fill_pack h.letters h.prepared.distinct hp hroom hlt
    (by omega : o.txHeaderq.length < n) hpack
  rw [← hleft] at hy
  refine wp_send_total hm h.prepared.object (fun e he => (h.prepared.ready e he).plain) hsus
    (fun x zs r t hx hzs _ _ ht => ?_) (fun m q hover _ => ?_) fun e t hnone _ => ?_
  · rw [hy] at hx
    cases hx
    obtain ⟨m, rfl⟩ := ht
    refine ⟨⟨_, h.sent hy hrest (objects_setObject _ _ _) rfl rfl rfl rfl rfl⟩,
      (chooseOpcode (sending o y.rest y.suspend) allowfinalcmd forcefinalbit).2, ?_⟩
    rw [packetsOf_append, packetsOf_write, packetsOf_answers hzs, hbytes, h.front, List.nil_append]
  · exact absurd hover (not_overruns h.letters h.prepared.distinct hp hroom)
  · rw [hy] at hnone
    cases hnone

theorem Mailing.fail (h : Mailing p mtu xs s o) (hm : ∀ k, E.malloc k = true) (hsus : o.suspend = false)
    (hp : Packable (mtu - 3) xs) (hpack : pack (mtu - 3) xs = none) :
    wp (obexObjectSend (E.ctx .all n) p allowfinalcmd forcefinalbit) (fun _ _ => False)
      (fun _ _ => True) s := by
  obtain ⟨hleft, -, hlt⟩ := h.room
  have hnone : fill s.mtuTx n o.txHeaderq (mtu - 3) = none :=
    fill_pack_none h.letters h.prepared.distinct hp hlt hpack
  rw [← hleft] at hnone
  refine wp_send_total hm h.prepared.object (fun e he => (h.prepared.ready e he).plain) hsus
    (fun x zs r t hx _ _ _ _ => ?_) (fun m q hover _ => ?_) fun _ _ _ _ => trivial
  · rw [hnone] at hx
    cases hx
  · exact absurd hover (not_overruns h.letters h.prepared.distinct hp (by rw [h.mtuTx]; omega))

theorem Mailing.resume (h : Mailing p mtu xs s o) :
    Mailing p mtu xs (s.setObject p (some { o with suspend := false })) { o with suspend := false } :=
  ⟨⟨objects_setObject _ _ _, h.prepared.ready, h.prepared.distinct, h.prepared.bound, h.prepared.mtu⟩,
    h.letters, h.front, h.mtuTx, h.direct⟩

/-- The packets hold the heads that were packed. -/
def Posts (ds : List Bytes) (pk : List (List Head)) : Prop :=
  List.Forall₂ (fun d hs => ∃ opcode, d = packet opcode (hs.flatMap Head.encode)) ds pk

/-- The queue at `p` is empty. -/
def Emptied (p : Ptr) (s : Obex) : Prop := ∃ o, s.objects p = some o ∧ o.txHeaderq = []

/-- The packets are those of `drain`. -/
theorem Mailing.transmit (h : Mailing p mtu xs s o) (hm : ∀ k, E.malloc k = true)
    (hp : Packable (mtu - 3) xs) (hn : xs.length < n) (calls : Nat → Bool × Bool) {k : Nat}
    {pk : List (List Head)} (hdrain : drain (mtu - 3) k xs = some pk) :
    wp (transmit (E.ctx .all n) p calls k) (fun _ t => Emptied p t ∧
      ∃ ds, packetsOf p t.log = packetsOf p s.log ++ ds ∧ Posts ds pk) (fun _ _ => False) s := by
  have hempty {s : Obex} {o : ObexObject} (h : Mailing p mtu [] s o) : o.txHeaderq = [] := by
    have hlen := h.letters.length_eq
    exact List.eq_nil_of_length_eq_zero hlen.symm
  induction k generalizing xs s o pk with
  | zero =>
    cases xs with
    | nil =>
      cases hdrain
      exact ⟨⟨o, h.prepared.object, hempty h⟩, [], by simp, .nil⟩
    | cons x xs => cases hdrain
  | succ k ih =>
    rw [OpenObex.transmit, wp_bind, wp_deref, h.prepared.object]
    refine ⟨?_, by simp⟩
    rintro _ ⟨⟩
    cases xs with
    | nil =>
      cases hdrain
      rw [if_pos (hempty h)]
      exact ⟨⟨o, h.prepared.object, hempty h⟩, [], by simp, .nil⟩
    | cons x xs =>
      have hne : o.txHeaderq ≠ [] := fun hnil => by
        have hlen := h.letters.length_eq
        rw [hnil] at hlen
        cases hlen
      rw [drain] at hdrain
      obtain ⟨⟨hs, ys⟩, hpack, hdrain⟩ := Option.bind_eq_some_iff.1 hdrain
      obtain ⟨pk', hpk, rfl⟩ := Option.map_eq_some_iff.1 hdrain
      have hshort := pack_length hpack
      rw [if_neg hne, wp_bind, wp_update, h.prepared.object]
      refine ⟨?_, by simp⟩
      rintro _ ⟨⟩
      refine wp_seq (h.resume.send hm rfl hp hn hpack) ?_
      rintro r t ⟨⟨o', ho'⟩, opcode, hlog⟩
      refine wp_conseq (ih ho' (pack_packable hp hpack) (by omega) hpk) ?_
      rintro - t' ⟨hdone, ds, hds, hposts⟩
      refine ⟨hdone, _ :: ds, ?_, .cons ⟨opcode, rfl⟩ hposts⟩
      rw [hds, hlog, List.append_assoc]
      rfl

/-- The queue is never emptied where `drain` fails. -/
theorem Mailing.not_emptied (h : Mailing p mtu xs s o) (hm : ∀ k, E.malloc k = true)
    (hp : Packable (mtu - 3) xs) (hn : xs.length < n) (calls : Nat → Bool × Bool) {k : Nat}
    (hdrain : drain (mtu - 3) k xs = none) :
    wp (OpenObex.transmit (E.ctx .all n) p calls k) (fun _ t => ¬ Emptied p t) (fun _ _ => True) s := by
  have hfull {s : Obex} {o : ObexObject} {x : Parcel} {xs : List Parcel}
    (h : Mailing p mtu (x :: xs) s o) :
      o.txHeaderq ≠ [] := fun hnil => by
    have hlen := h.letters.length_eq
    rw [hnil] at hlen
    cases hlen
  induction k generalizing xs s o with
  | zero =>
    cases xs with
    | nil => cases hdrain
    | cons x xs =>
      rintro ⟨o', ho', hnil⟩
      cases h.prepared.object.symm.trans ho'
      exact hfull h hnil
  | succ k ih =>
    cases xs with
    | nil => cases hdrain
    | cons x xs =>
      rw [OpenObex.transmit, wp_bind, wp_deref, h.prepared.object]
      refine ⟨?_, by simp⟩
      rintro _ ⟨⟩
      rw [if_neg (hfull h), wp_bind, wp_update, h.prepared.object]
      refine ⟨?_, by simp⟩
      rintro _ ⟨⟩
      cases hpack : pack (mtu - 3) (x :: xs) with
      | none =>
        have hfail : wp (obexObjectSend (E.ctx .all n) p (calls k).1 (calls k).2) (fun _ _ => False)
          (fun _ _ => True) _ := h.resume.fail hm rfl hp hpack
        exact wp_seq hfail fun _ _ hf => hf.elim
      | some r =>
        obtain ⟨hs, ys⟩ := r
        rw [drain, hpack, Option.bind_some] at hdrain
        have hrest := Option.map_eq_none_iff.1 hdrain
        have hshort := pack_length hpack
        refine wp_seq (wp_mono (h.resume.send hm rfl hp hn hpack) (fun _ _ h => h) fun _ _ hf =>
          hf.elim) ?_
        rintro r t ⟨⟨o', ho'⟩, -⟩
        exact ih ho' (pack_packable hp hpack) (by omega) hrest

/-! ## A header that fits in no packet -/

/-- The queue has a header that is no body and longer than a packet. -/
def Clogged (p : Ptr) (mtu : Nat) (s : Obex) : Prop :=
  ∃ o, Prepared p s o ∧ s.mtuTx = mtu ∧ s.trans.type ≠ .irda ∧
    ∃ e ∈ o.txHeaderq, e.hi ≠ obexHdrBody ∧ e.hi ≠ obexHdrEmpty ∧ mtu - 3 < e.length

theorem Clogged.send (h : Clogged p mtu s) (hm : ∀ k, E.malloc k = true) :
    wp (obexObjectSend (E.ctx .all n) p allowfinalcmd forcefinalbit) (fun _ => Clogged p mtu)
      (fun _ _ => True) s := by
  obtain ⟨o, hprep, hmtu, hdirect, e, he, hb, hne, hlong⟩ := h
  have hleft : initialTxLeft s = mtu - 3 := by
    have hbounds := hprep.mtu
    have hdirect := hdirect
    unfold initialTxLeft
    cases ht : s.trans.type with
    | irda => exact absurd ht hdirect
    | _ =>
      show u16 ((s.mtuTx : Int) - 3) = _
      unfold u16
      omega
  by_cases hsus : o.suspend = true
  · rw [obexObjectSend, wp_bind, wp_deref, hprep.object]
    refine ⟨?_, by simp⟩
    rintro _ ⟨⟩
    rw [if_pos hsus]
    exact ⟨o, hprep, hmtu, hdirect, e, he, hb, hne, hlong⟩
  refine wp_send_total hm hprep.object (fun e he => (hprep.ready e he).plain) (by simpa using hsus)
    (fun x zs r t hx _ _ _ ht => ?_) (fun m q _ hq => ?_) fun _ _ _ _ => trivial
  · obtain ⟨m, rfl⟩ := ht
    have hkept := fill_keeps hx hprep.distinct he hb hne (by rw [hleft]; exact hlong)
    exact ⟨_, hprep.sent hx (objects_setObject _ _ _) rfl rfl rfl, hmtu, hdirect, e, hkept, hb,
      hne, hlong⟩
  · have hkept := hq.keeps hprep.distinct e he hb hne (by rw [hleft]; exact hlong)
    exact ⟨_, hprep.gaveUp hq.sublist (filling_objects _ _ _ _ _ _) rfl rfl rfl, hmtu, hdirect, e,
      hkept, hb, hne, hlong⟩

theorem Clogged.transmit (h : Clogged p mtu s) (hm : ∀ k, E.malloc k = true) (calls : Nat → Bool × Bool)
    (k : Nat) :
    wp (OpenObex.transmit (E.ctx .all n) p calls k) (fun _ t => ¬ Emptied p t) (fun _ _ => True) s := by
  have hfull {s : Obex} (h : Clogged p mtu s) : ¬ Emptied p s := by
    rintro ⟨o', ho', hnil⟩
    obtain ⟨o, hprep, -, -, e, he, -⟩ := h
    cases hprep.object.symm.trans ho'
    rw [hnil] at he
    cases he
  induction k generalizing s with
  | zero => exact hfull h
  | succ k ih =>
    obtain ⟨o, hprep, hrest⟩ := id h
    rw [OpenObex.transmit, wp_bind, wp_deref, hprep.object]
    refine ⟨?_, by simp⟩
    rintro _ ⟨⟩
    rw [if_neg fun hnil => hfull h ⟨o, hprep.object, hnil⟩, wp_bind, wp_update, hprep.object]
    refine ⟨?_, by simp⟩
    rintro _ ⟨⟩
    have hclog : Clogged p mtu (s.setObject p (some { o with suspend := false })) :=
      ⟨_, ⟨objects_setObject _ _ _, hprep.ready, hprep.distinct, hprep.bound, hprep.mtu⟩, hrest⟩
    exact wp_seq (hclog.send hm) fun _ t ht => ih ht

end

/-! ## The receiver -/

/-- The packets are received, and the headers read, `n` at most. -/
def deliver (C : Ctx) (q : Ptr) (ms : List Buf) (n : Nat) :
    M (List Int × List (UInt8 × HeaderValue × Nat)) := do
  let rets ← receiveAll C ms
  let hs ← readHeaders q n
  pure (rets, hs)

section
variable {C : Ctx} {q : Ptr} {t : Obex} {ms : List Buf} {ds : List Bytes} {pk : List (List Head)}
  {xs : List Parcel} {room n : Nat}

theorem Posts.bears (h : Posts ds pk) (hv : ∀ hs ∈ pk, ∀ y ∈ hs, y.Valid)
    (hms : ms.map Buf.contents = ds) :
    List.Forall₂ Bears ms pk := by
  induction h generalizing ms with
  | nil =>
    rw [List.map_eq_nil_iff.1 hms]
    exact .nil
  | @cons d hs ds pk hd _ ih =>
    obtain ⟨m, ms, rfl, hm, hrest⟩ := List.map_eq_cons_iff.1 hms
    obtain ⟨opcode, rfl⟩ := hd
    obtain ⟨hv, hvs⟩ := List.forall_mem_cons.1 hv
    exact .cons ⟨hv, _, by simp [length_be16], hm⟩ (ih hvs hrest)

theorem Head.Valid.typed_of_parcel {x : Parcel} (hv : x.ofBody = false → x.head.Valid) :
    x.head.Typed := by
  cases hb : x.ofBody with
  | false => exact (hv hb).typed
  | true =>
    have hhi : x.head.hi = obexHdrBody := of_decide_eq_true hb
    unfold Head.Typed
    rw [hhi]
    trivial

/-- What has been sent is read. -/
theorem wp_deliver (hm : Plenty C.malloc) (hp : Packable room xs) (hroom : room < 65536) {k : Nat}
    (hdrain : drain room k xs = some pk) (hms : List.Forall₂ Bears ms pk) (hmodest : Modest 0 xs)
    (hsmall : ∀ x ∈ xs, x.head.value.length < 2147483648) (hn : xs.length ≤ n) (ht : Blank false q t) :
    wp (deliver C q ms n) (fun r _ => (∀ x ∈ r.1, x = 1) ∧ r.2 = xs.map fun x => x.head.read)
      (fun _ _ => False) t := by
  have hawaits : Awaits noIntake xs := by
    refine ⟨fun _ hg => ?_, fun _ => hmodest, fun x hx _ => hsmall x hx⟩
    cases hg
  obtain ⟨i, hfold, hqueue, hwhole⟩ := drain_intake hp hroom hdrain hawaits (by simp [noIntake])
  have hrun := buffered_run hm ht hms
  rw [hfold] at hrun
  refine wp_seq hrun ?_
  rintro rets t' ⟨hrets, m, -, o, ho, htook⟩
  have hdue : i.queue.map Item.head = xs.map Parcel.head := hqueue
  have hlen : i.queue.length = xs.length := by
    have hlen := congrArg List.length hdue
    simpa using hlen
  refine wp_seq (wp_readHeaders ho htook.queue htook.sorted (fun y hy => ⟨hwhole y hy, ?_⟩)
    (by omega)) ?_
  · have hmem : y.head ∈ xs.map Parcel.head := by
      rw [← hdue]
      exact List.mem_map_of_mem hy
    obtain ⟨x, hx, heq⟩ := List.mem_map.1 hmem
    rw [← heq]
    exact Head.Valid.typed_of_parcel fun hb => (hp.fits x hx hb).1
  · rintro _ t'' rfl
    refine ⟨fun x hx => ?_, ?_⟩
    · rw [hrets] at hx
      exact List.eq_of_mem_replicate hx
    · have hread := congrArg (List.map Head.read) hdue
      rwa [List.map_map, List.map_map] at hread

theorem deliver_refused (hm : Plenty C.malloc) (hp : Packable room xs) {k : Nat}
    (hdrain : drain room k xs = some pk) (hms : List.Forall₂ Bears ms pk) (hmodest : ¬ Modest 0 xs)
    (ht : Blank false q t) :
    wp (deliver C q ms n) (fun r _ => -1 ∈ r.1) (fun _ _ => True) t := by
  have hrun := buffered_run hm ht hms
  rw [drain_refused hp hdrain rfl hmodest] at hrun
  refine wp_seq (wp_mono hrun (fun _ _ h => h) fun _ _ _ => trivial) ?_
  intro rets t' hrets
  have hread : wp (readHeaders q n) (fun _ _ => True) (fun _ _ => True) t' := wp_true
  exact wp_seq hread fun _ _ _ => hrets

end

/-! ## From one side to the other -/

/-- The queue of `p` is emptied, and the receiver of the packets accepts them and reads the headers that
were added, one after the other. -/
def Transfers (E : Env) (n : Nat) (p : Ptr) (calls : Nat → Bool × Bool) (C' : Ctx) (q : Ptr)
    (as : List Adding) (s t : Obex) : Prop :=
  ∃ k, wp (transmit (E.ctx .all n) p calls k) (fun _ s' => Emptied p s' ∧
      ∀ ms : List Buf, packetsOf p s'.log = packetsOf p s.log ++ ms.map Buf.contents →
        wp (deliver C' q ms (as.length + 1))
          (fun r _ => (∀ x ∈ r.1, x = 1) ∧ r.2 = as.map Adding.read) (fun _ _ => False) t)
    (fun _ _ => False) s

/-- Every header but the body fits in a packet, the body is not reached with one or two bytes left, and
the length announced in front of it is below 2^31. -/
structure Deliverable (mtu : Nat) (as : List Adding) : Prop where
  fits : ∀ a ∈ as, a.hi ≠ obexHdrBody → a.size ≤ mtu - 3
  unwedged : ¬ Wedged (mtu - 3) (mtu - 3) (as.map Adding.parcel)
  modest : Modest 0 (as.map Adding.parcel)

section
variable {E : Env} {n : Nat} {p q : Ptr} {s t : Obex} {o : ObexObject} {as : List Adding} {mtu : Nat}
    {C' : Ctx}

namespace Adding

theorem Valid.length_value_lt {a : Adding} (ha : a.Valid) : a.value.length < 2147483648 := by
  have hle : a.value.length < a.size := by
    rw [ha.size_eq]
    unfold Parcel.size Head.encode parcel
    split
    · exact Nat.lt_succ_self _
    · exact Nat.lt_succ_self _
    · rw [List.length_append]
      exact Nat.lt_add_of_pos_left (Nat.succ_pos _)
  have hsmall := ha.small
  unfold size at hle
  unfold sized at hsmall
  cases hk : hiType a.hi with
  | byte =>
    rw [hk] at hle
    dsimp only at hle
    omega
  | int =>
    rw [hk] at hle
    dsimp only at hle
    omega
  | unicode =>
    rw [hk] at hle hsmall
    have hlt := hsmall rfl
    dsimp only at hle
    omega
  | byteStream =>
    rw [hk] at hle hsmall
    have hlt := hsmall rfl
    dsimp only at hle
    omega

end Adding

theorem packable_of_fits (has : ∀ a ∈ as, a.Offered ∧ a.Valid) (hmtu : mtu ≤ 65535)
    (hone : as.countP (fun a => decide (a.hi = obexHdrBody)) ≤ 1)
    (hfits : ∀ a ∈ as, a.hi ≠ obexHdrBody → a.size ≤ mtu - 3) :
    Packable (mtu - 3) (as.map Adding.parcel) := by
  refine ⟨?_, fun x hx hb => ?_⟩
  · rw [List.countP_map]
    exact hone
  · obtain ⟨a, ha, rfl⟩ := List.mem_map.1 hx
    obtain ⟨hoff, hv⟩ := has a ha
    have hno : a.hi ≠ obexHdrBody := of_decide_eq_false hb
    have hsize := hfits a ha hno
    refine ⟨hv.head.2 (by omega), ?_, ?_⟩
    · simp [Head.isBody, Adding.parcel, hno, hoff.unfinished]
    · rwa [← hv.size_eq]

theorem exists_letter {xs : List Parcel} {queue : List HeaderElement} (h : List.Forall₂ Letter xs queue)
    {x : Parcel} (hx : x ∈ xs) : ∃ e ∈ queue, Letter x e := by
  induction h with
  | nil => cases hx
  | @cons y e xs es hye _ ih =>
    rcases List.mem_cons.1 hx with rfl | hx
    · exact ⟨e, List.mem_cons_self, hye⟩
    · obtain ⟨e', he', h'⟩ := ih hx
      exact ⟨e', List.mem_cons_of_mem _ he', h'⟩

/-- A header that is too long for a packet blocks the queue. -/
theorem Mailing.clogged (h : Mailing p mtu (as.map Adding.parcel) s o) (has : ∀ a ∈ as, a.Valid)
    {a : Adding} (ha : a ∈ as) (hb : a.hi ≠ obexHdrBody) (hlong : mtu - 3 < a.size) :
    Clogged p mtu s := by
  obtain ⟨e, he, hx⟩ := exists_letter h.letters (List.mem_map_of_mem ha)
  have hno : e.hi ≠ obexHdrBody := by
    rw [hx.hi]
    exact hb
  refine ⟨o, h.prepared, h.mtuTx, h.direct, e, he, hno, hx.named, ?_⟩
  rw [hx.length hno, ← (has a ha).size_eq]
  exact hlong

theorem exists_messages (ds : List Bytes) : ∃ ms : List Buf, ms.map Buf.contents = ds := by
  induction ds with
  | nil => exact ⟨[], rfl⟩
  | cons d ds ih =>
    obtain ⟨m, hm⟩ := exists_contents d
    obtain ⟨ms, hms⟩ := ih
    exact ⟨m :: ms, by rw [List.map_cons, hm, hms]⟩

theorem Mailing.delivers (h : Mailing p mtu (as.map Adding.parcel) s o) (hm : ∀ k, E.malloc k = true)
    (hm' : Plenty C'.malloc) (has : ∀ a ∈ as, a.Offered ∧ a.Valid)
    (hone : as.countP (fun a => decide (a.hi = obexHdrBody)) ≤ 1) (hn : as.length < n)
    (ht : Blank false q t) (calls : Nat → Bool × Bool) : Transfers E n p calls C' q as s t ↔
    Deliverable mtu as := by
  obtain ⟨-, hroom, hlt⟩ := h.room
  have hmtu : mtu ≤ 65535 := by
    rw [← h.mtuTx]
    exact h.prepared.mtu.2
  have hlen : (as.map Adding.parcel).length < n := by rwa [List.length_map]
  constructor
  · rintro ⟨k, hk⟩
    -- a header longer than a packet is never sent
    have hfits : ∀ a ∈ as, a.hi ≠ obexHdrBody → a.size ≤ mtu - 3 := by
      intro a ha hb
      by_contra hlong
      have hclog := h.clogged (fun a ha => (has a ha).2) ha hb (by omega)
      exact not_wp_false (wp_mono (wp_and hk (hclog.transmit hm calls k)) (fun _ _ hf => hf.2 hf.1.1)
        fun _ _ hf => hf.1)
    have hp := packable_of_fits has hmtu hone hfits
    cases hdrain : drain (mtu - 3) k (as.map Adding.parcel) with
    | none =>
      exact (not_wp_false (wp_mono (wp_and hk (h.not_emptied hm hp hlen calls hdrain))
        (fun _ _ hf => hf.2 hf.1.1)
        fun _ _ hf => hf.1)).elim
    | some pk =>
      refine ⟨hfits, fun hwedged => ?_, ?_⟩
      · rw [drain_of_wedged (by omega) hp hwedged] at hdrain
        cases hdrain
      · -- a body is refused behind an announced length that is no `int`
        by_contra hmodest
        refine not_wp_false (wp_mono (wp_and hk (h.transmit hm hp hlen calls hdrain)) ?_
          fun _ _ hf => hf.1)
        rintro _ s' ⟨⟨-, harrive⟩, -, ds, hds, hposts⟩
        obtain ⟨ms, hms⟩ := exists_messages ds
        rw [← hms] at hds
        have hbears := hposts.bears (drain_valid hp hlt hdrain) hms
        have hrefused := deliver_refused (n := as.length + 1) hm' hp hdrain hbears hmodest ht
        refine not_wp_false (wp_mono (wp_and (harrive ms hds) hrefused) ?_ fun _ _ hf => hf.1)
        rintro r _ ⟨⟨hall, -⟩, hmem⟩
        exact absurd (hall _ hmem) (by decide)
  · rintro ⟨hfits, hwedged, hmodest⟩
    have hp := packable_of_fits has hmtu hone hfits
    obtain ⟨k, pk, hdrain⟩ := drain_of_not_wedged (by omega) hp hwedged
    refine ⟨k, wp_conseq (h.transmit hm hp hlen calls hdrain) ?_⟩
    rintro _ s' ⟨hempty, ds, hds, hposts⟩
    refine ⟨hempty, fun ms hms => ?_⟩
    have hbears :=
      hposts.bears (drain_valid hp hlt hdrain) (List.append_cancel_left (hms.symm.trans hds))
    refine wp_conseq (wp_deliver hm' hp hlt hdrain hbears hmodest (fun x hx => ?_)
      (by rw [List.length_map]; exact Nat.le_succ _) ht) ?_
    · obtain ⟨a, ha, rfl⟩ := List.mem_map.1 hx
      exact (has a ha).2.length_value_lt
    · rintro r _ ⟨hrets, hread⟩
      refine ⟨hrets, ?_⟩
      rw [hread, List.map_map]
      exact List.map_congr_left fun a _ => a.read_eq.symm

/-- Headers that have been accepted arrive exactly when they are deliverable. -/
theorem transfers_iff (hm : ∀ k, E.malloc k = true) (hm' : Plenty C'.malloc) (ho : s.objects p = some o)
    (hqueue : o.txHeaderq = []) (hfront : o.nonhdr = []) (hmtu : 255 ≤ s.mtuTx ∧ s.mtuTx ≤ 65535)
    (hdirect : s.trans.type ≠ .irda) (has : ∀ a ∈ as, a.Offered)
    (hone : as.countP (fun a => decide (a.hi = obexHdrBody)) ≤ 1) (hn : as.length < n)
    (ht : Blank false q t) (calls : Nat → Bool × Bool) : wp (addHeaders (E.ctx .all n) p as)
      (fun rs s' => (∀ r ∈ rs, r = 1) → (Transfers E n p calls C' q as s' t ↔ Deliverable s.mtuTx as))
      (fun _ _ => True) s := by
  by_cases hv : ∀ a ∈ as, a.Valid
  · have hmail : Mailing p s.mtuTx [] s o := by
      refine ⟨⟨ho, ?_, ?_, ?_, hmtu⟩, ?_, hfront, rfl, hdirect⟩
      · simp [hqueue]
      · simp [hqueue, Distinct]
      · simp [hqueue]
      · rw [hqueue]
        exact .nil
    refine wp_conseq (hmail.addAll hv) fun rs s' hrs hall => ?_
    obtain ⟨o', ho'⟩ := hrs hall
    exact ho'.delivers hm hm' (fun a ha => ⟨has a ha, hv a ha⟩) hone hn ht calls
  · exact wp_conseq (wp_addHeaders_valid has) fun rs s' hrs hall => absurd (hrs hall) hv

/-! ## A body that cannot be begun -/

/-- Headers that fit are accepted. -/
theorem Mailing.accepts {xs : List Parcel} (h : Mailing p mtu xs s o) (hm : ∀ k, E.malloc k = true)
    (has : ∀ a ∈ as, a.Valid ∧ a.fit = false ∧ (a.hi ≠ obexHdrBody → a.size ≤ mtu - 3)) :
    wp (addHeaders (E.ctx .all n) p as) (fun rs _ => ∀ r ∈ rs, r = 1) (fun _ _ => False) s := by
  induction as generalizing xs s o with
  | nil => simp [addHeaders]
  | cons a as ih =>
    obtain ⟨⟨hv, hfit, hsize⟩, has⟩ := List.forall_mem_cons.1 has
    have hmtu := h.prepared.mtu
    have hgranted : a.Granted (E.ctx .all n) := by
      unfold Adding.Granted
      rw [ctx_malloc, hm, hm]
      exact ⟨rfl, rfl⟩
    have hsmall : ¬ a.TooBig s o := by
      rintro ⟨hb | hb, hlt⟩
      · have hle := hsize hb
        unfold maxlen at hlt
        rw [if_neg (by simp [Adding.flags, hfit]), h.mtuTx] at hlt
        rw [h.mtuTx] at hmtu
        unfold u32 at hlt
        omega
      · rw [hfit] at hb
        cases hb
    have hadd : wp (obexObjectAddheader (E.ctx .all n) p a.hi a.hv a.hvSize a.flags) (fun r t => r = 1 ∧
        ∃ o', Mailing p mtu (xs ++ [a.parcel]) t o') (fun _ _ => False) s := by
      have hone : wp (obexObjectAddheader (E.ctx .all n) p a.hi a.hv a.hvSize a.flags)
        (fun r _ => r = 1)
          (fun _ _ => False) s :=
        wp_addheader hv h.prepared.object (fun _ _ _ _ _ => rfl) fun hno =>
          absurd ⟨hgranted, hsmall⟩ hno
      refine wp_mono (wp_and hone (h.add (R := fun _ _ => True) hv)) ?_ fun _ _ hf => hf.1
      rintro r t ⟨hr, ho⟩
      exact ⟨hr, ho hr⟩
    refine wp_seq hadd ?_
    rintro r t ⟨rfl, o', ho'⟩
    refine wp_seq (ih ho' has) fun rs t' hrs => ?_
    rw [wp_pure, List.forall_mem_cons]
    exact ⟨rfl, hrs⟩

end

def bodyOf (b : Bytes) : Adding where
  hi := obexHdrBody
  hv := { bs := some b }
  hvSize := b.length
  fit := false
  suspend := false

theorem streamOf248_offered : streamOf248.Offered :=
  ⟨by decide, by decide, by decide, fun _ => .inr ⟨_, rfl, Nat.le_of_eq List.length_replicate.symm⟩⟩

theorem bodyOf_offered {b : Bytes} (hb : b.length < 4294967296) : (bodyOf b).Offered :=
  ⟨(by decide : obexHdrBody ≠ obexHdrEmpty), (by decide : obexHdrBody ≠ obexHdrBodyEnd), hb, fun _ =>
    .inr ⟨b, rfl, Nat.le_refl _⟩⟩

theorem bodyOf_valid {b : Bytes} (hb : b.length < 2147483645) : (bodyOf b).Valid :=
  ⟨(by decide : obexHdrBody ≠ obexHdrEmpty), fun _ => hb, fun _ => .inr ⟨b, rfl, Nat.le_refl _⟩⟩

/-- Behind a header of 251 bytes one byte is left. -/
theorem wedged_one_byte (b : Bytes) :
    Wedged (255 - 3) (255 - 3) ([streamOf248, bodyOf b].map Adding.parcel) := by
  have hsize : streamOf248.parcel.size = 251 := streamOf248_valid.size_eq.symm
  have hno : streamOf248.parcel.ofBody = false := by decide
  have hpause : streamOf248.parcel.pause = false := rfl
  have hbody : (bodyOf b).parcel.ofBody = true := rfl
  rw [List.map_cons, List.map_singleton, Wedged, hno, hpause, hsize, if_neg (by simp)]
  dsimp only
  rw [if_neg (by simp), Wedged, if_pos hbody]
  decide

/-- A body that begins with one byte left in the packet is not sent. -/
theorem one_byte_left_not_transferred :
    ¬ ∀ (E : Env) (n : Nat) (p q : Ptr) (C' : Ctx) (s t : Obex) (o : ObexObject) (as : List Adding)
      (calls : Nat → Bool × Bool), (∀ k, E.malloc k = true) → Plenty C'.malloc →
    s.objects p = some o → o.txHeaderq = [] → o.nonhdr = [] → (255 ≤ s.mtuTx ∧ s.mtuTx ≤ 65535) →
    s.trans.type ≠ .irda → (∀ a ∈ as, a.Offered) →
      as.countP (fun a => decide (a.hi = obexHdrBody)) ≤ 1 →
    as.length < n → Blank false q t → wp (addHeaders (E.ctx .all n) p as)
      (fun rs s' => (∀ r ∈ rs, r = 1) → Transfers E n p calls C' q as s' t) (fun _ _ => True) s := by
  intro h
  obtain ⟨s, ho, hmtu, htype⟩ : ∃ s : Obex, s.objects 0 = some zeroObject ∧ s.mtuTx = 255 ∧
      s.trans.type = .inet := ⟨oneObject, rfl, rfl, rfl⟩
  obtain ⟨t, ht⟩ := exists_blank false
  obtain ⟨E, hE⟩ : ∃ E : Env, ∀ k, E.malloc k = true := ⟨willingPeer, fun _ => rfl⟩
  have hbounds : 255 ≤ s.mtuTx ∧ s.mtuTx ≤ 65535 := by
    rw [hmtu]
    decide
  have hdirect : s.trans.type ≠ .irda := by
    rw [htype]
    decide
  have hoffered : ∀ a ∈ [streamOf248, bodyOf [1]], a.Offered :=
    List.forall_mem_cons.2
      ⟨streamOf248_offered, List.forall_mem_singleton.2 (bodyOf_offered (by decide))⟩
  have hvalid : ∀ a ∈ [streamOf248, bodyOf [1]], a.Valid :=
    List.forall_mem_cons.2 ⟨streamOf248_valid, List.forall_mem_singleton.2 (bodyOf_valid (by decide))⟩
  have hone : [streamOf248, bodyOf [1]].countP (fun a => decide (a.hi = obexHdrBody)) ≤ 1 := by decide
  have hmail : Mailing 0 255 [] s zeroObject := by
    refine ⟨⟨ho, ?_, List.nodup_nil, ?_, hbounds⟩, .nil, rfl, hmtu, hdirect⟩
    · exact fun e he => (List.not_mem_nil he).elim
    · exact fun e he => (List.not_mem_nil he).elim
  have haccepted : ∀ a ∈ [streamOf248, bodyOf [1]], a.Valid ∧ a.fit = false ∧
      (a.hi ≠ obexHdrBody → a.size ≤ 255 - 3) :=
    List.forall_mem_cons.2 ⟨⟨streamOf248_valid, rfl, fun _ => by decide⟩,
      List.forall_mem_singleton.2 ⟨bodyOf_valid (by decide), rfl, fun hb => absurd rfl hb⟩⟩
  have hrun := h E 3 0 0 (plentyPeer.ctx .all 1) s t zeroObject _ (fun _ => (true, false)) hE
    plentyPeer_plenty
    ho rfl rfl hbounds hdirect hoffered hone (by decide) ht
  have hboth := wp_and hrun (wp_and (hmail.accepts hE haccepted) (hmail.addAll hvalid))
  refine not_wp_false (wp_mono hboth ?_ fun _ _ hf => hf.2.1)
  rintro rs s' ⟨htransfers, hrs, hmailed⟩
  obtain ⟨o', ho'⟩ := hmailed hrs
  have hdeliverable :=
    (ho'.delivers hE plentyPeer_plenty (fun a ha => ⟨hoffered a ha, hvalid a ha⟩) hone
    (by decide) ht _).1 (htransfers hrs)
  exact hdeliverable.unwedged (wedged_one_byte [1])

/-- A body of three bytes, with its length in front. -/
def announcedBody : List Adding :=
  [{ hi := obexHdrLength, hv := { bq4 := 3 }, hvSize := 4, fit := false, suspend := false },
    bodyOf [1, 2, 3]]

theorem transfers_announced_body : ∃ (s t : Obex), s.objects 0 = some zeroObject ∧ Blank false 0 t ∧
    wp (addHeaders (willingPeer.ctx .all 3) 0 announcedBody) (fun rs s' => (∀ r ∈ rs, r = 1) →
      Transfers willingPeer 3 0 (fun _ => (true, false)) (plentyPeer.ctx .all 1) 0 announcedBody s' t)
      (fun _ _ => True) s := by
  obtain ⟨s, ho, hmtu, htype⟩ : ∃ s : Obex, s.objects 0 = some zeroObject ∧ s.mtuTx = 255 ∧
      s.trans.type = .inet := ⟨oneObject, rfl, rfl, rfl⟩
  obtain ⟨t, ht⟩ := exists_blank false
  have hbounds : 255 ≤ s.mtuTx ∧ s.mtuTx ≤ 65535 := by
    rw [hmtu]
    decide
  have hdirect : s.trans.type ≠ .irda := by
    rw [htype]
    decide
  have hoffered : ∀ a ∈ announcedBody, a.Offered :=
    List.forall_mem_cons.2 ⟨⟨by decide, by decide, by decide, fun hs => by cases hs⟩,
      List.forall_mem_singleton.2 (bodyOf_offered (by decide))⟩
  have hdeliverable : Deliverable s.mtuTx announcedBody := by
    rw [hmtu]
    refine ⟨?_, ?_, ?_⟩
    · exact List.forall_mem_cons.2
        ⟨fun _ => by decide, List.forall_mem_singleton.2 fun hb => absurd rfl hb⟩
    · show ¬ 247 < 3
      decide
    · show 3 < 2147483648
      decide
  have hrun := transfers_iff (E := willingPeer) (n := 3) (fun _ => rfl) plentyPeer_plenty ho rfl rfl
    hbounds hdirect hoffered
    (by decide) (by decide) ht fun _ => (true, false)
  exact ⟨s, t, ho, ht, wp_conseq hrun fun rs s' hiff hrs => (hiff hrs).2 hdeliverable⟩

end OpenObex
