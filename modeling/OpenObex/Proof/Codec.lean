import OpenObex.Proof.Grammar
import OpenObex.Proof.Reception

/-!
# Encoding and decoding headers

The four encoders write what the receiver takes apart: a list of headers with values, other than bodies,
comes back as it was written, and a packet of such headers is written again as it came.
-/

namespace OpenObex

open Mem Prog Tokens

/-! ## Values and their headers -/

/-- A value of the kind that the identifier tells. -/
inductive ValueFits : UInt8 × HeaderValue → Prop
  | byte {hi : UInt8} (hk : hiType hi = .byte) (v : UInt8) : ValueFits (hi, .bq1 v)
  | int {hi : UInt8} (hk : hiType hi = .int) {n : Nat} (hn : n < 4294967296) : ValueFits (hi, .bq4 n)
  | unicode {hi : UInt8} (hk : hiType hi = .unicode) {d : Bytes} (hl : d.length ≤ 65532) :
      ValueFits (hi, .bs d)
  | byteStream {hi : UInt8} (hk : hiType hi = .byteStream) (h : hi ≠ obexHdrBody)
      (h' : hi ≠ obexHdrBodyEnd) {d : Bytes} (hl : d.length ≤ 65532) : ValueFits (hi, .bs d)

/-- The value as it stands in a packet. -/
def HeaderValue.bytes : HeaderValue → Bytes
  | .bs d => d
  | .bq4 n => be32 n
  | .bq1 v => [v]

def headOf (f : UInt8 × HeaderValue) : Head := { hi := f.1, value := f.2.bytes }

theorem isBody_of_kind {h : Head} (hk : hiType h.hi ≠ .byteStream) : h.isBody = false := by
  cases hb : h.isBody with
  | false => rfl
  | true => exact absurd (Head.sized_of_isBody hb) hk

theorem ValueFits.valid {f : UInt8 × HeaderValue} (h : ValueFits f) :
    (headOf f).Valid ∧ (headOf f).isBody = false := by
  unfold Head.Valid
  cases h with
  | byte hk v =>
    refine ⟨?_, isBody_of_kind (h := headOf _) (by simp [headOf, hk])⟩
    simp [headOf, hk, HeaderValue.bytes]
  | int hk hn =>
    refine ⟨?_, isBody_of_kind (h := headOf _) (by simp [headOf, hk])⟩
    simp [headOf, hk, HeaderValue.bytes]
  | unicode hk hl =>
    refine ⟨?_, isBody_of_kind (h := headOf _) (by simp [headOf, hk])⟩
    simp only [headOf, hk, HeaderValue.bytes]
    omega
  | byteStream hk h h' hl =>
    refine ⟨?_, by simp [headOf, Head.isBody, h, h']⟩
    simp only [headOf, hk, HeaderValue.bytes]
    omega

theorem ValueFits.read {f : UInt8 × HeaderValue} (h : ValueFits f) :
    (headOf f).read = (f.1, f.2, f.2.bytes.length) := by
  unfold Head.read
  cases h with
  | byte hk v => simp [headOf, hk, HeaderValue.bytes]
  | int hk hn => simp [headOf, hk, HeaderValue.bytes, lengthValue, be32, ofBe32_be32,
    Nat.mod_eq_of_lt hn]
  | unicode hk hl => simp [headOf, hk, HeaderValue.bytes]
  | byteStream hk h h' hl => simp [headOf, hk, HeaderValue.bytes]

/-! ## Encoding -/

/-- The header behind the message. -/
def insertHeader (C : Ctx) (msg : Buf) (f : UInt8 × HeaderValue) : M Buf := do
  let (msg, _) ← (match f.2 with
    | .bq1 v => insertUbyteHeader C msg f.1 v
    | .bq4 n => insertUintHeader C msg f.1 (UInt32.ofNat n)
    | .bs d =>
      if hiType f.1 = .unicode then insertUnicodeHeader C msg f.1 (some d) d.length
      else insertByteStreamHeader C msg f.1 (some d) d.length)
  pure msg

def insertHeaders (C : Ctx) (msg : Buf) : List (UInt8 × HeaderValue) → M Buf
  | [] => pure msg
  | f :: fs => do
    let msg ← insertHeader C msg f
    insertHeaders C msg fs

variable {C : Ctx} {R : Stop → Obex → Prop} {s : Obex}

theorem wp_reserveAndStore (hm : ∀ n, C.malloc n = true) {msg : Buf} {n : Nat} {d : Bytes}
    (hn : d.length = n) {Q : Buf → Obex → Prop} (hq : ∀ b, b.contents = msg.contents ++ d → Q b s) :
    wp (reserveAndStore C msg n d) Q R s := by
  rw [← hn, reserveAndStore, wp_bind, wp_require]
  refine ⟨fun r hr => ?_, fun hnone => ?_⟩
  · obtain ⟨m, dest⟩ := r
    rw [wp_require]
    refine ⟨fun b hb => hq b (contents_poke_end hr hb), fun hnone => ?_⟩
    obtain ⟨h1, h2, h3, -⟩ := bufReserveEnd_some hr
    have hle := m.end_le
    obtain ⟨b, hb⟩ : ∃ b, bufPoke m dest d = some b := bufPoke_of_le (by omega)
    rw [hb] at hnone
    cases hnone
  · obtain ⟨r, hr⟩ := bufReserveEnd_iff.2 (.inr (hm _) : Granted C.malloc msg d.length)
    rw [hr] at hnone
    cases hnone

theorem wp_insertHvHeader (hm : ∀ n, C.malloc n = true) {msg : Buf} {hi : UInt8} {d : Bytes}
    (hl : d.length ≤ 65532) {failed : M (Buf × Int)} {Q : Buf × Int → Obex → Prop}
    (hq : ∀ b, b.contents = msg.contents ++ (hi :: be16 (d.length + 3) ++ d) →
      Q (b, d.length + 3) s) :
    wp (insertHvHeader C msg hi (some d) d.length failed) Q R s := by
  have hsize : sizeT ((d.length : Int) + 3) = d.length + 3 := by
    unfold sizeT
    omega
  have hfrom : sizeT (d.length : Int) = d.length := by
    unfold sizeT
    omega
  have hu : u16 ((d.length : Int) + 3) = d.length + 3 := by
    unfold u16
    omega
  have hret : i32 ((d.length : Int) + 3) = d.length + 3 := by
    unfold i32
    omega
  have hlen : (hi :: be16 (d.length + 3) ++ d).length = d.length + 3 := by
    rw [List.length_append, List.length_cons, length_be16]
    omega
  rw [insertHvHeader, if_neg (by simp), hsize]
  obtain ⟨⟨m, dest⟩, hr⟩ := bufReserveEnd_iff.2 (.inr (hm _) : Granted C.malloc msg (d.length + 3))
  rw [hr]
  dsimp only
  have hcopy : slice d 0 d.length = d := List.take_of_length_le (Nat.le_refl _)
  rw [hfrom, hu, hret, copyFrom, if_pos (by omega), hcopy, wp_bind, wp_pure, wp_bind, wp_require]
  rw [← hlen] at hr
  refine ⟨fun b hb => hq b (contents_poke_end hr hb), fun hnone => ?_⟩
  obtain ⟨h1, h2, h3, -⟩ := bufReserveEnd_some hr
  have hle := m.end_le
  obtain ⟨b, hb⟩ : ∃ b, bufPoke m dest (hi :: be16 (d.length + 3) ++ d) = some b :=
    bufPoke_of_le (by omega)
  rw [hb] at hnone
  cases hnone

/-- An encoder writes the header. -/
theorem wp_insertHeader (hm : ∀ n, C.malloc n = true) {msg : Buf} {f : UInt8 × HeaderValue}
    (hf : ValueFits f) :
    wp (insertHeader C msg f)
      (fun b s' => s' = s ∧ b.contents = msg.contents ++ (headOf f).encode) R s := by
  obtain ⟨hv, -⟩ := hf.valid
  rw [insertHeader, wp_bind]
  cases hf with
  | byte hk v =>
    rw [(hv.fixed (.inl hk)).1]
    refine wp_bind.2 (wp_reserveAndStore hm (n := 2) rfl fun b hb => ?_)
    exact ⟨rfl, hb⟩
  | @int hi hk n hn =>
    rw [(hv.fixed (.inr hk)).1]
    refine wp_bind.2 (wp_reserveAndStore hm (n := 5) rfl fun b hb => ?_)
    rw [UInt32.toNat_ofNat', Nat.mod_eq_of_lt hn] at hb
    exact ⟨rfl, hb⟩
  | @unicode hi hk d hl =>
    rw [(hv.sized (.inl hk)).1]
    dsimp only
    rw [if_pos hk]
    exact wp_insertHvHeader hm hl fun b hb => ⟨rfl, hb⟩
  | @byteStream hi hk h h' d hl =>
    rw [(hv.sized (.inr hk)).1]
    dsimp only
    rw [if_neg (by rw [hk]; simp)]
    exact wp_insertHvHeader hm hl fun b hb => ⟨rfl, hb⟩

theorem wp_insertHeaders (hm : ∀ n, C.malloc n = true) {msg : Buf} {fs : List (UInt8 × HeaderValue)}
    (hf : ∀ f ∈ fs, ValueFits f) :
    wp (insertHeaders C msg fs) (fun b s' => s' = s ∧
      b.contents = msg.contents ++ (fs.map headOf).flatMap Head.encode) R s := by
  induction fs generalizing msg s with
  | nil => exact ⟨rfl, (List.append_nil _).symm⟩
  | cons f fs ih =>
    refine wp_seq (wp_insertHeader hm (hf f List.mem_cons_self)) ?_
    rintro b s' ⟨rfl, hb⟩
    refine wp_conseq (ih fun g hg => hf g (List.mem_cons_of_mem _ hg)) ?_
    rintro b' s'' ⟨rfl, hb'⟩
    refine ⟨rfl, ?_⟩
    rw [hb', hb, List.map_cons, List.flatMap_cons, List.append_assoc]

/-! ## Decoding -/

/-- A new object is current and the packet is in `rx_msg`, `x` in front of its headers `w`. -/
structure Arrived (p : Ptr) (x w : Bytes) (s : Obex) : Prop where
  object : s.object = some p
  alive : ∃ o, s.objects p = some o ∧ o.rxHeaderq = [] ∧ o.rxBody = none ∧ o.headeroffset = 0 ∧
    o.hintedBodyLen = 0 ∧ o.abort = false
  packet : s.rxMsg.contents = x ++ w

/-- The packet is received and its headers are read, `n` at most. -/
def decode (C : Ctx) (p : Ptr) (n : Nat) : M (Int × List (UInt8 × HeaderValue × Nat)) := do
  let ret ← obexObjectReceive C
  let hs ← readHeaders p n
  pure (ret, hs)

theorem Arrived.taking {p : Ptr} {x w : Bytes} (h : Arrived p x w s) :
    ∃ srv, Taking srv p { queue := [], body := none, hint := 0 } s.rxMsg s := by
  obtain ⟨o, ho, hq, hb, hoff, hhint, habort⟩ := h.alive
  refine ⟨o.sSrv, ⟨h.object, ⟨o, ho⟩, rfl⟩, o, ho, ?_⟩
  refine ⟨rfl, habort, hoff, hhint, Nat.zero_lt_succ _, ?_, ?_, ?_, ?_⟩
  · rw [hb]
    exact .none
  · rw [hq]
    exact .nil
  · rw [hq]
    exact .nil
  · rw [hq]
    simp

/-- Headers that are put are the queue. -/
theorem foldlM_put (i : Intake) (hs : List Head) :
    ∃ i', hs.foldlM (fun i h => some (i.put h)) i = some i' ∧
      i'.queue = i.queue ++ hs.map fun h => { head := h, whole := true } := by
  induction hs generalizing i with
  | nil => exact ⟨i, rfl, (List.append_nil _).symm⟩
  | cons h hs ih =>
    obtain ⟨i', hi', hq⟩ := ih (i.put h)
    refine ⟨i', hi', ?_⟩
    rw [hq, List.map_cons, Intake.put, List.append_assoc, List.singleton_append]

/-- The receiver takes the headers, and the application reads them. -/
theorem wp_decode (hm : ∀ n, C.malloc n = true) {p : Ptr} {x : Bytes} (hx : x.length = 3)
    {hs : List Head} (hv : ∀ h ∈ hs, h.Valid ∧ h.isBody = false) {n : Nat} (hn : hs.length ≤ n)
    (h : Arrived p x (hs.flatMap Head.encode) s) :
    wp (decode C p n) (fun r _ => r = (1, hs.map Head.read)) (fun _ _ => False) s := by
  obtain ⟨srv, ht⟩ := h.taking
  obtain ⟨i', hi', hq⟩ := foldlM_put { queue := [], body := none, hint := 0 } hs
  have hrecv := (valueReceiver (fun n _ => hm n) srv p).receive hx ht hv h.packet
  rw [hi'] at hrecv
  refine wp_seq hrecv ?_
  rintro _ s' ⟨rfl, m', ht'⟩
  obtain ⟨o, ho, htook⟩ := ht'.took
  rw [List.nil_append] at hq
  have hread := wp_readHeaders (R := fun _ _ => False) (n := n) ho htook.queue htook.sorted ?_ ?_
  · refine wp_seq hread ?_
    rintro _ _ rfl
    rw [hq, List.map_map]
    rfl
  · rw [hq]
    intro y hy
    obtain ⟨g, hg, rfl⟩ := List.mem_map.1 hy
    exact ⟨rfl, (hv g hg).1.typed⟩
  · rw [hq, List.length_map]
    exact hn

/-! ## Both ways -/

/-- A complete header that is no part of a body. -/
def PlainHeader (t : Bytes) : Prop :=
  Header t ∧ t.head? ≠ some obexHdrBody ∧ t.head? ≠ some obexHdrBodyEnd

theorem PlainHeader.encoded {t : Bytes} (h : PlainHeader t) :
    ∃ f, ValueFits f ∧ (headOf f).encode = t := by
  obtain ⟨ht, hb, hbe⟩ := h
  cases ht with
  | @byte hi hk v =>
    exact ⟨(hi, .bq1 v), .byte hk v, by simp [headOf, Head.encode, hk, HeaderValue.bytes]⟩
  | @int hi hk a b c d =>
    refine ⟨(hi, .bq4 (ofBe32 a b c d)), .int hk (ofBe32_lt a b c d), ?_⟩
    simp only [headOf, Head.encode, hk, HeaderValue.bytes]
    rw [be32_ofBe32]
  | @sized hi hk a b v hl =>
    have hlt := ofBe16_lt a b
    have hle : v.length ≤ 65532 := by omega
    have hlen : be16 (v.length + 3) = [a, b] := by rw [← hl, be16_ofBe16]
    rcases hk with hk | hk
    · refine ⟨(hi, .bs v), .unicode hk hle, ?_⟩
      simp only [headOf, Head.encode, hk, HeaderValue.bytes, hlen]
      rfl
    · refine ⟨(hi, .bs v), .byteStream hk (fun hn => hb (congrArg some hn))
        (fun hn => hbe (congrArg some hn)) hle, ?_⟩
      simp only [headOf, Head.encode, hk, HeaderValue.bytes, hlen]
      rfl

theorem exists_encoded {ts : List Bytes} (hts : ∀ t ∈ ts, PlainHeader t) :
    ∃ fs : List (UInt8 × HeaderValue), (∀ f ∈ fs, ValueFits f) ∧ (fs.map headOf).flatMap Head.encode =
      ts.flatten := by
  induction ts with
  | nil => exact ⟨[], by simp, rfl⟩
  | cons t ts ih =>
    obtain ⟨f, hf, he⟩ := (hts t List.mem_cons_self).encoded
    obtain ⟨fs, hfs, hes⟩ := ih fun u hu => hts u (List.mem_cons_of_mem _ hu)
    refine ⟨f :: fs, fun g hg => ?_, ?_⟩
    · rcases List.mem_cons.1 hg with rfl | hg
      · exact hf
      · exact hfs g hg
    · rw [List.map_cons, List.flatMap_cons, he, hes, List.flatten_cons]

/-- A value as it is read, with the length of its bytes. -/
def asRead (f : UInt8 × HeaderValue) : UInt8 × HeaderValue × Nat := (f.1, f.2, f.2.bytes.length)

/-- What is read, without the length. -/
def asWritten (r : UInt8 × HeaderValue × Nat) : UInt8 × HeaderValue := (r.1, r.2.1)

theorem map_read {fs : List (UInt8 × HeaderValue)} (hf : ∀ f ∈ fs, ValueFits f) :
    (fs.map headOf).map Head.read = fs.map asRead := by
  rw [List.map_map]
  exact List.map_congr_left fun f hmem => (hf f hmem).read

theorem map_asWritten (fs : List (UInt8 × HeaderValue)) : (fs.map asRead).map asWritten = fs := by
  rw [List.map_map]
  exact List.map_id' fs

theorem heads_plain {fs : List (UInt8 × HeaderValue)} (hf : ∀ f ∈ fs, ValueFits f) :
    ∀ h ∈ fs.map headOf, h.Valid ∧ h.isBody = false := by
  intro h hh
  obtain ⟨f, hmem, rfl⟩ := List.mem_map.1 hh
  exact (hf f hmem).valid

/-- What the encoders write for a list of headers is received and read as that list, and the headers
read from a packet of complete ones are written as that packet; `n` reads see the end of the queue. -/
theorem codec_round_trip {C : Ctx} (hm : ∀ n, C.malloc n = true) (p : Ptr) :
    (∀ fs : List (UInt8 × HeaderValue), (∀ f ∈ fs, ValueFits f) → ∀ (size : Nat) (s : Obex),
      wp (insertHeaders C (freshBuf size) fs) (fun b _ =>
        ∀ (x : Bytes) (t : Obex) (n : Nat), x.length = 3 → Arrived p x b.contents t → fs.length < n →
          wp (decode C p n) (fun r _ => r = (1, fs.map asRead)) (fun _ _ => False) t)
        (fun _ _ => False) s) ∧
    (∀ w : Bytes, Concat PlainHeader w → ∀ (x : Bytes) (t : Obex) (n : Nat), x.length = 3 →
      Arrived p x w t → w.length < n →
        wp (decode C p n) (fun r t' => r.1 = 1 ∧ ∀ size : Nat,
          wp (insertHeaders C (freshBuf size) (r.2.map asWritten)) (fun b _ => b.contents = w)
            (fun _ _ => False) t') (fun _ _ => False) t) := by
  constructor
  · intro fs hf size s
    refine wp_conseq (wp_insertHeaders hm hf) ?_
    rintro b _ ⟨rfl, hb⟩ x t n hx ht hn
    rw [hb, contents_freshBuf, List.nil_append] at ht
    rw [← map_read hf]
    exact wp_decode hm hx (heads_plain hf) (by rw [List.length_map]; omega) ht
  · intro w hw x t n hx ht hn
    obtain ⟨ts, hts, rfl⟩ := hw
    obtain ⟨fs, hf, he⟩ := exists_encoded hts
    have hlen : fs.length ≤ ts.flatten.length := by
      rw [← he]
      clear he ht hn hts
      induction fs with
      | nil => exact Nat.zero_le _
      | cons f fs ih =>
        have hpos := (hf f List.mem_cons_self).valid.1.header.two_le_length
        have ih := ih fun g hg => hf g (List.mem_cons_of_mem _ hg)
        rw [List.map_cons, List.flatMap_cons, List.length_append, List.length_cons]
        omega
    rw [← he] at ht
    refine wp_conseq (wp_decode hm hx (heads_plain hf) (n := n) (by rw [List.length_map]; omega) ht) ?_
    rintro _ t' rfl
    refine ⟨rfl, fun size => ?_⟩
    rw [map_read hf, map_asWritten]
    refine wp_conseq (wp_insertHeaders hm hf) ?_
    rintro b _ ⟨-, hb⟩
    rw [hb, contents_freshBuf, List.nil_append, he]

/-- A byte, an integer and an empty name. -/
def threeHeaders : List (UInt8 × HeaderValue) := [(0x97, .bq1 0x01), (0xc3, .bq4 70000), (0x01, .bs [])]

/-- A new object is current at a handle where the packet has arrived. -/
def arrivedAt (d : Bytes) : Obex :=
  (({ obexInit .custom with object := some 0 } : Obex).setObject 0 (some zeroObject)).setRxMsg
  (packetBuf d)

theorem arrived_arrivedAt (x w : Bytes) : Arrived 0 x w (arrivedAt (x ++ w)) :=
  ⟨rfl, ⟨zeroObject, rfl, rfl, rfl, rfl, rfl, rfl⟩, contents_packetBuf _⟩

theorem threeHeaders_fit : ∀ f ∈ threeHeaders, ValueFits f := by
  intro f hf
  simp only [threeHeaders, List.mem_cons, List.not_mem_nil, or_false] at hf
  rcases hf with rfl | rfl | rfl
  · exact .byte rfl _
  · exact .int rfl (by decide)
  · exact .unicode rfl (Nat.zero_le _)

/-- A byte and an empty name, encoded. -/
def twoEncoded : Bytes := [0x97, 0x01, 0x01, 0x00, 0x03]

theorem twoEncoded_plain : Concat PlainHeader twoEncoded := by
  refine ⟨[[0x97, 0x01], [0x01, 0x00, 0x03]], ?_, rfl⟩
  refine List.forall_mem_cons.2 ⟨⟨.byte rfl _, by decide, by decide⟩, List.forall_mem_singleton.2 ?_⟩
  exact ⟨.sized (v := []) (.inl rfl) rfl, by decide, by decide⟩

/-- Three headers come back, and two are written as they came. -/
theorem codec_round_trip_three : ∃ t : Bytes → Obex, (∀ x w, Arrived 0 x w (t (x ++ w))) ∧
    wp (insertHeaders (quietPeer.ctx .all 1) (freshBuf 16) threeHeaders) (fun b _ =>
        wp (decode (quietPeer.ctx .all 1) 0 4) (fun r _ => r = (1, threeHeaders.map asRead))
          (fun _ _ => False) (t ([0xa0, 0x00, 0x10] ++ b.contents)))
        (fun _ _ => False) (obexInit .custom) ∧
      wp (decode (quietPeer.ctx .all 1) 0 6) (fun r t => r.1 = 1 ∧ ∀ size : Nat,
        wp (insertHeaders (quietPeer.ctx .all 1) (freshBuf size) (r.2.map asWritten))
          (fun b _ => b.contents = twoEncoded) (fun _ _ => False) t) (fun _ _ => False)
        (t ([0xa0, 0x00, 0x08] ++ twoEncoded)) := by
  obtain ⟨t, ht⟩ : ∃ t : Bytes → Obex, ∀ x w, Arrived 0 x w (t (x ++ w)) :=
    ⟨arrivedAt, arrived_arrivedAt⟩
  obtain ⟨hwritten, hread⟩ := codec_round_trip (C := quietPeer.ctx .all 1) (fun _ => rfl) 0
  refine ⟨t, ht, ?_, ?_⟩
  · refine wp_conseq (hwritten threeHeaders threeHeaders_fit 16 _) fun b _ hb => ?_
    exact hb [0xa0, 0x00, 0x10] _ 4 rfl (ht _ _) (by decide)
  · exact hread twoEncoded twoEncoded_plain [0xa0, 0x00, 0x08] _ 6 rfl (ht _ _) (by decide)

end OpenObex
