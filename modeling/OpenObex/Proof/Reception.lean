import Mathlib.Data.List.Forall2
import OpenObex.Proof.Parser

/-!
# What the receiver takes

The headers of a packet with their values (`Head`), and what `obex_object_receive` makes of them: in
buffered mode the fragments of a body grow into one element of the queue, in a buffer whose size is
announced by the peer and kept in 32 bits (`Intake`).
-/

namespace OpenObex

open Mem Prog

/-! ## Headers with their values -/

structure Head where
  hi : UInt8
  value : Bytes
  deriving DecidableEq

namespace Head

def isBody (h : Head) : Bool := decide (h.hi = obexHdrBody ∨ h.hi = obexHdrBodyEnd)

/-- The value has the length its type wants, or one that the length field can hold. -/
def Valid (h : Head) : Prop := match hiType h.hi with
  | .byte => h.value.length = 1
  | .int => h.value.length = 4
  | _ => h.value.length + 3 < 65536

instance (h : Head) : Decidable h.Valid := by
  unfold Valid
  split <;> infer_instance

def encode (h : Head) : Bytes := match hiType h.hi with
  | .byte | .int => h.hi :: h.value
  | _ => h.hi :: be16 (h.value.length + 3) ++ h.value

theorem Valid.length_lt {h : Head} (hv : h.Valid) : h.value.length < 65536 := by
  unfold Valid at hv
  split at hv <;> omega

theorem sized_of_isBody {h : Head} (hb : h.isBody = true) : hiType h.hi = .byteStream := by
  unfold isBody at hb
  rcases of_decide_eq_true hb with he | he
  · rw [he]
    rfl
  · rw [he]
    rfl

/-- A header that is not sized has its value right behind the identifier. -/
theorem Valid.fixed {h : Head} (hv : h.Valid) (hk : hiType h.hi = .byte ∨ hiType h.hi = .int) :
    h.encode = h.hi :: h.value ∧
      Parsing.fixedLength h.hi = some (h.value.length + 1, h.value.length) := by
  unfold Valid at hv
  unfold encode Parsing.fixedLength
  rcases hk with hk | hk
  · rw [hk] at hv ⊢
    exact ⟨rfl, by rw [hv]⟩
  · rw [hk] at hv ⊢
    exact ⟨rfl, by rw [hv]⟩

/-- A sized header has its length in front of the value. -/
theorem Valid.sized {h : Head} (hv : h.Valid)
    (hk : hiType h.hi = .unicode ∨ hiType h.hi = .byteStream) :
    h.encode = h.hi :: be16 (h.value.length + 3) ++ h.value ∧ h.value.length + 3 < 65536 := by
  unfold Valid at hv
  unfold encode
  rcases hk with hk | hk
  · rw [hk] at hv ⊢
    exact ⟨rfl, hv⟩
  · rw [hk] at hv ⊢
    exact ⟨rfl, hv⟩

theorem kinds (hi : UInt8) : (hiType hi = .byte ∨ hiType hi = .int) ∨
    hiType hi = .unicode ∨ hiType hi = .byteStream := by
  cases hiType hi <;> simp

theorem Valid.header {h : Head} (hv : h.Valid) : Header h.encode := by
  rcases kinds h.hi with hk | hk
  · rw [(hv.fixed hk).1]
    unfold Valid at hv
    rcases hk with hk | hk
    · rw [hk] at hv
      obtain ⟨v, hv⟩ := List.length_eq_one_iff.1 hv
      rw [hv]
      exact .byte hk v
    · rw [hk] at hv
      match h.value, hv with
      | [a, b, c, d], _ => exact .int hk a b c d
  · obtain ⟨he, hl⟩ := hv.sized hk
    rw [he]
    exact Header.sized hk (v := h.value) (by rw [ofBe16_be16, Nat.mod_eq_of_lt hl])

end Head

/-! ## What has been taken -/

/-- The value of a LENGTH header. -/
def lengthValue (v : Bytes) : Nat := match v with
  | [a, b, c, d] => ofBe32 a b c d
  | _ => 0

theorem lengthValue_lt (v : Bytes) : lengthValue v < 4294967296 := by
  unfold lengthValue
  split
  · exact ofBe32_lt _ _ _ _
  · exact Nat.zero_lt_succ _

/-- A body of which fragments have come: its bytes, and the size of a buffer that never wraps. -/
structure Gathered where
  value : Bytes
  room : Nat

/-- The buffer is large enough for its size to be a 32-bit number. -/
def Gathered.whole (b : Gathered) : Bool := decide (b.room < 4294967296)

/-- The next fragment; a buffer too small for it grows by its length and the threshold. -/
def Gathered.add (b : Gathered) (v : Bytes) : Gathered := {
  value := b.value ++ v
  room := if b.room < b.value.length + v.length then b.room + obexObjectAllocationtreshold + v.length
    else b.room }

/-- A queued header; a body is whole unless its buffer has wrapped. -/
structure Item where
  head : Head
  whole : Bool

structure Intake where
  queue : List Item
  body : Option Gathered
  /-- The length announced last. -/
  hint : Nat

/-- The body that the next fragment, of `n` bytes, belongs to. -/
def Intake.current (i : Intake) (n : Nat) : Gathered :=
  i.body.getD { value := []
                room := if i.hint = 0 then obexObjectAllocationtreshold + n else i.hint }

/-- A buffer of the announced length is not granted. -/
def Intake.Refuses (i : Intake) (h : Head) : Prop :=
  h.isBody = true ∧ i.body = none ∧ 2147483648 ≤ i.hint

instance (i : Intake) (h : Head) : Decidable (i.Refuses h) := by
  unfold Intake.Refuses
  infer_instance

def Intake.put (i : Intake) (h : Head) : Intake := { i with
  queue := i.queue ++ [{ head := h, whole := true }]
  hint := if h.hi = obexHdrLength then lengthValue h.value else i.hint }

def Intake.gather (i : Intake) (h : Head) : Intake :=
  let b := (i.current h.value.length).add h.value
  if h.hi = obexHdrBodyEnd then { i with
    queue := i.queue ++ [{ head := { hi := obexHdrBody, value := b.value }, whole := b.whole }]
    body := none }
  else { i with body := some b }

def Intake.take (i : Intake) (h : Head) : Intake := if h.isBody then i.gather h else i.put h

/-! ## The buffer of a body -/

/-- The largest block the C library grants. -/
def ptrdiffMax : Nat := 9223372036854775807

/-- Allocations of more than `PTRDIFF_MAX` bytes fail and all others succeed. -/
def Plenty (malloc : Nat → Bool) : Prop := ∀ n, malloc n = decide (n ≤ ptrdiffMax)

/-- Small allocations succeed. -/
def Grants (malloc : Nat → Bool) : Prop := ∀ n, n < 8589934592 → malloc n = true

theorem Grants.granted {malloc : Nat → Bool} (hm : Grants malloc) {n : Nat} (hn : n < 8589934592) :
    malloc n = true := hm n hn

theorem Plenty.grants {malloc : Nat → Bool} (hm : Plenty malloc) : Grants malloc := by
  intro n hn
  rw [hm, decide_eq_true_iff]
  unfold ptrdiffMax
  omega

/-- `m` holds the body `b`, or less of it once the size has wrapped. -/
structure Keeping (b : Gathered) (m : Buf) : Prop where
  front : m.data = 0
  size : m.buffer.length < 4294967296
  whole : b.room < 4294967296 → m.buffer.length = b.room ∧ m.contents = b.value
  lost : 4294967296 ≤ b.room → m.dataSize < b.value.length

/-- A buffer with nothing in front of its data still has nothing there. -/
theorem bufResize_front {malloc : Nat → Bool} {m : Buf} {n : Nat} (hf : m.data = 0)
    (hm : malloc n = true) : (bufResize malloc m n).data = 0 := by
  have h1 := m.data_eq
  rw [(bufResize malloc m n).data_eq]
  unfold bufResize
  by_cases hlt : n < bufTotalSize m
  · rw [dif_pos hlt]
    dsimp only
    omega
  · rw [dif_neg hlt, if_pos hm]
    dsimp only
    omega

theorem contents_length_le (m : Buf) : m.dataSize ≤ m.buffer.length := by
  have := m.end_le
  omega

theorem u32_i32_add (a b c : Nat) : u32 (i32 a + b + c) = (a + b + c) % 4294967296 := by
  unfold u32 i32
  omega

/-- The buffer behind the fragment. -/
theorem growRxBody_spec {C : Ctx} {m : Buf} (hm : Grants C.malloc) (hf : m.data = 0) (len : Nat) :
    ∃ m', growRxBody C m len = some m' ∧ m'.data = 0 ∧
      m'.buffer.length = (if m.buffer.length < m.dataSize + len then
        (m.buffer.length + obexObjectAllocationtreshold + len) % 4294967296 else m.buffer.length) ∧
      m'.contents = m.contents.take m'.buffer.length := by
  have h1 := m.data_eq
  have h2 := m.size_eq
  unfold growRxBody
  by_cases hfits : m.dataAvail + m.tailAvail < len
  · have hn : u32 (i32 (bufTotalSize m) + obexObjectAllocationtreshold + len) =
        (m.buffer.length + obexObjectAllocationtreshold + len) % 4294967296 := by
      rw [bufTotalSize_eq, u32_i32_add]
    have hg : C.malloc ((m.buffer.length + obexObjectAllocationtreshold + len) % 4294967296) =
      true := by
      refine hm.granted (Nat.lt_trans (Nat.mod_lt _ ?_) ?_)
      · exact Nat.zero_lt_succ _
      · simp
    have hlen := bufTotalSize_resize (p := m) hg
    rw [if_pos hfits]
    dsimp only
    rw [hn, if_pos (bufTotalSize_resize hg), if_pos (by omega)]
    rw [bufTotalSize_eq] at hlen
    exact ⟨_, rfl, bufResize_front hf hg, hlen, by rw [contents_bufResize hg, hlen]⟩
  · rw [if_neg hfits, if_neg (by omega)]
    refine ⟨m, rfl, hf, rfl, ?_⟩
    rw [List.take_of_length_le (by rw [length_contents]; exact contents_length_le m)]

/-- The fragment is appended to what the buffer still holds. -/
theorem Keeping.add {C : Ctx} {b : Gathered} {m : Buf} (hm : Grants C.malloc) (h : Keeping b m)
    {v : Bytes} (hv : v.length < 65536) :
    ∃ m₁, growRxBody C m v.length = some m₁ ∧ Granted C.malloc m₁ v.length ∧
      ∀ m₂, bufInsertEnd C.malloc m₁ v = some m₂ → Keeping (b.add v) m₂ := by
  obtain ⟨m₁, hm₁, hdata, hlen, hcontents⟩ := growRxBody_spec hm h.front v.length
  have hkept : m₁.dataSize = min m₁.buffer.length m.dataSize := by
    rw [← length_contents, hcontents, List.length_take, length_contents]
  have hin := contents_length_le m
  have hin₁ := contents_length_le m₁
  have hsize := h.size
  have hsize₁ : m₁.buffer.length < 4294967296 := by
    rw [hlen]
    split
    · exact Nat.mod_lt _ (Nat.zero_lt_succ _)
    · exact hsize
  refine ⟨m₁, hm₁, .inr (hm.granted (by omega)), fun m₂ hm₂ => ?_⟩
  obtain ⟨hc₂, hs₂⟩ := bufInsertEnd_some hm₂
  obtain ⟨hd₂, hl₂⟩ := bufInsertEnd_length hm₂
  rw [hdata, Nat.zero_add, hkept] at hl₂
  rw [hkept] at hs₂
  have ht : obexObjectAllocationtreshold = 10240 := rfl
  unfold Gathered.add
  generalize obexObjectAllocationtreshold = t at *
  have hsize₂ : m₂.buffer.length < 4294967296 := by
    by_cases hfits : m.buffer.length < m.dataSize + v.length
    · rw [if_pos hfits] at hlen
      omega
    · rw [if_neg hfits] at hlen
      omega
  by_cases hroom : b.room < 4294967296
  · obtain ⟨hl, hvalue⟩ := h.whole hroom
    have hd : m.dataSize = b.value.length := by rw [← hvalue, length_contents]
    rw [hl, hd] at hlen
    by_cases hfits : b.room < b.value.length + v.length
    · rw [if_pos hfits] at hlen ⊢
      refine ⟨hd₂.trans hdata, hsize₂, fun hlt => ?_, fun hge => ?_⟩
      · dsimp only at hlt ⊢
        rw [Nat.mod_eq_of_lt hlt] at hlen
        refine ⟨by omega, ?_⟩
        rw [hc₂, hcontents, hvalue, List.take_of_length_le (by omega)]
      · -- the size has wrapped
        dsimp only at hge ⊢
        rw [List.length_append]
        omega
    · rw [if_neg hfits] at hlen ⊢
      refine ⟨hd₂.trans hdata, hsize₂, fun hlt => ⟨by dsimp only; omega, ?_⟩, fun hge => ?_⟩
      · rw [hc₂, hcontents, hvalue, List.take_of_length_le (by omega)]
      · exact absurd hroom (by dsimp only at hge; omega)
  · have hlost := h.lost (by omega)
    refine ⟨hd₂.trans hdata, hsize₂, fun hlt => ?_, fun _ => ?_⟩
    · dsimp only at hlt
      split at hlt <;> omega
    · dsimp only
      rw [List.length_append]
      omega

theorem keeping_fresh {n : Nat} (hn : n < 4294967296) :
    Keeping { value := [], room := n } (freshBuf n) := by
  have hlen : (freshBuf n).buffer.length = n := List.length_replicate
  refine ⟨rfl, by rw [hlen]; exact hn, fun _ => ⟨hlen, contents_freshBuf n⟩, fun h => ?_⟩
  exact absurd hn (Nat.not_lt.2 h)

/-! ## The object that takes headers -/

/-- A queued header with its value, or a body that is not whole. -/
structure Element (x : Item) (e : HeaderElement) : Prop where
  hi : e.hi = x.head.hi
  buf : ∃ b, e.buf = some b ∧ e.length = b.dataSize ∧
    (x.whole = true → b.contents = x.head.value) ∧ (x.whole = false → b.dataSize < x.head.value.length)

/-- The object has taken `i`; `srv` tells whether bodies are streamed. -/
structure Took (srv : Bool) (i : Intake) (o : ObexObject) (fresh : Ptr) : Prop where
  srv : o.sSrv = srv
  going : o.abort = false
  offset : o.headeroffset = 0
  hint : o.hintedBodyLen = i32 i.hint
  hint_lt : i.hint < 4294967296
  body : Option.Rel Keeping i.body o.rxBody
  queue : List.Forall₂ Element i.queue o.rxHeaderq
  sorted : (o.rxHeaderq.map addr).Pairwise (· < ·)
  bound : ∀ e ∈ o.rxHeaderq, addr e < fresh

/-- What the current object `p` has taken when `m` is left of the packet. -/
structure Taking (srv : Bool) (p : Ptr) (i : Intake) (m : Buf) (s : Obex) : Prop where
  parsing : Parsing p m s
  took : ∃ o, s.objects p = some o ∧ Took srv i o s.fresh

variable {C : Ctx} {p : Ptr} {R : Stop → Obex → Prop} {srv : Bool} {i : Intake} {m : Buf} {s : Obex}
  {o : ObexObject} {fresh : Ptr} {h : Head} {w : Bytes}

theorem Took.append (ho : Took srv i o fresh) {x : Item} {e : HeaderElement} (hx : Element x e)
    (he : e.addr = fresh) :
    Took srv { i with queue := i.queue ++ [x] }
      { o with rxHeaderq := slistAppend o.rxHeaderq e } (fresh + 1) := by
  refine ⟨ho.srv, ho.going, ho.offset, ho.hint, ho.hint_lt, ho.body, ?_, ?_, fun e' he' => ?_⟩
  · exact List.rel_append ho.queue (.cons hx .nil)
  · dsimp only [slistAppend]
    rw [List.map_append, List.pairwise_append]
    refine ⟨ho.sorted, List.pairwise_singleton _ _, fun a ha b hb => ?_⟩
    obtain ⟨e', he', rfl⟩ := List.mem_map.1 ha
    rw [List.map_singleton, List.mem_singleton] at hb
    have hlt := ho.bound e' he'
    rw [hb]
    exact Nat.lt_of_lt_of_eq hlt he.symm
  · rcases List.mem_append.1 he' with he' | he'
    · exact Nat.lt_succ_of_lt (ho.bound e' he')
    · rw [List.mem_singleton.1 he']
      exact Nat.lt_succ_of_le (Nat.le_of_eq he)

theorem Took.put (ho : Took srv i o fresh) {e : HeaderElement} {n : Int}
    (hn : n = if h.hi = obexHdrLength then i32 (lengthValue h.value) else o.hintedBodyLen)
    (hx : Element { head := h, whole := true } e) (he : e.addr = fresh) :
    Took srv (i.put h) { o with hintedBodyLen := n, rxHeaderq := slistAppend o.rxHeaderq e }
      (fresh + 1) := by
  have ho' := ho.append hx he
  refine ⟨ho'.srv, ho'.going, ho'.offset, ?_, ?_, ho'.body, ho'.queue, ho'.sorted, ho'.bound⟩
  · dsimp only [Intake.put]
    rw [hn]
    split
    · rfl
    · exact ho.hint
  · dsimp only [Intake.put]
    split
    · exact lengthValue_lt _
    · exact ho.hint_lt

/-- The hint behind a header. -/
def hintAfter (o : ObexObject) (h : Head) : Int :=
  if h.hi = obexHdrLength then i32 (lengthValue h.value) else o.hintedBodyLen

/-- A LENGTH is noted. -/
theorem wp_hint (hp : Parsing p m s) (ho : s.objects p = some o) (hv : h.Valid)
    (hhint : h.hi = obexHdrLength → m.reach = h.encode ++ (w ++ m.behind)) :
    wp (when (h.hi = obexHdrLength) (hintBodyLen p s.rxMsg))
      (fun _ s' => s' = s.setObject p (some { o with hintedBodyLen := hintAfter o h })) R s := by
  unfold hintAfter
  rw [wp_when, hp.rxMsg]
  refine ⟨fun hhi => ?_, fun hhi => ?_⟩
  · have hk : hiType h.hi = .int := by rw [hhi]; rfl
    have hreach := hhint hhi
    rw [(hv.fixed (.inr hk)).1] at hreach
    unfold Head.Valid at hv
    rw [hk] at hv
    rw [if_pos hhi]
    generalize h.value = v at hreach hv ⊢
    match v, hv with
    | [a, b, c, d], _ =>
      rw [hintBodyLen]
      refine wp_byteAt_some (b := a) (by rw [hreach]; rfl)
        (wp_byteAt_some (b := b) (by rw [hreach]; rfl)
        (wp_byteAt_some (b := c) (by rw [hreach]; rfl)
          (wp_byteAt_some (b := d) (by rw [hreach]; rfl) ?_)))
      rw [wp_update, ho]
      refine ⟨?_, by simp⟩
      rintro _ ⟨⟩
      rfl
  · rw [if_neg hhi]
    exact (setObject_self ho).symm

theorem wp_queueElement_put (hm : Grants C.malloc) (hp : Parsing p m s)
    (ho : s.objects p = some { o with hintedBodyLen := hintAfter o h }) (ht : Took srv i o s.fresh)
    (hv : h.Valid) {k : Nat} (hpeek : bufPeek m k h.value.length = some h.value) :
    wp (queueElement C p h.hi k h.value.length)
      (fun q s' => q = true ∧ s'.log = s.log ∧ Taking srv p (i.put h) m s') R s := by
  have hlt := hv.length_lt
  refine wp_queueElement (hm.granted (by decide)) (hm.granted (by split <;> omega)) ho
    (fun d b hd hb => ?_) fun hnone => ?_
  · rw [hp.rxMsg, hpeek] at hd
    cases hd
    have hsize : h.value.length = b.dataSize := by rw [← length_contents, hb]
    refine ⟨rfl, rfl, hp.fresh.setObject _, _, objects_setObject _ _ _, ?_⟩
    exact ht.put rfl ⟨rfl, b, rfl, hsize, fun _ => hb, by simp⟩ rfl
  · rw [hp.rxMsg, hpeek] at hnone
    cases hnone

namespace Taking

theorem removeBegin (ht : Taking srv p i m s) (n : Nat) :
    Taking srv p i (bufRemoveBegin m n) (s.setRxMsg (bufRemoveBegin s.rxMsg n)) :=
  ⟨ht.parsing.removeBegin n, ht.took⟩

/-- The hint is noted, the value queued, the header removed. -/
theorem receiveValue (hm : Grants C.malloc) (ht : Taking srv p i m s) (hv : h.Valid) {hlen k : Nat}
    (hle : h.value.length ≤ m.dataSize) (hpeek : bufPeek m k h.value.length = some h.value)
    (hrest : m.contents.drop hlen = w)
    (hhint : h.hi = obexHdrLength → m.reach = h.encode ++ (w ++ m.behind)) :
    wp (receiveValue C p h.hi hlen h.value.length (some k) false)
      (fun err s' => err = false ∧ s'.log = s.log ∧ ∃ m', m'.contents = w ∧
        Taking srv p (i.put h) m' s')
      R s := by
  obtain ⟨hp, o, ho, htook⟩ := ht
  rw [OpenObex.receiveValue, wp_bind, wp_get]
  rw [if_neg (by rw [hp.rxMsg]; omega)]
  refine wp_seq (P := fun err s' => err = false ∧ s'.log = s.log ∧ Taking srv p (i.put h) m s') ?_ ?_
  · refine wp_seq (wp_hint hp ho hv hhint) ?_
    rintro - _ rfl
    refine wp_seq (wp_queueElement_put hm (hp.setObject _) (objects_setObject _ _ _) htook hv hpeek) ?_
    rintro q s' ⟨rfl, hl, ht'⟩
    exact ⟨rfl, hl, ht'⟩
  · rintro err s' ⟨rfl, hl, ht'⟩
    rw [if_neg (by simp), wp_bind, wp_modify]
    refine ⟨rfl, hl, _, ?_, ht'.removeBegin hlen⟩
    rw [contents_bufRemoveBegin, hrest]

/-- A header that is no part of a body. -/
theorem put (hm : Grants C.malloc) (ht : Taking srv p i m s) (hv : h.Valid) (hb : h.isBody = false)
    (hc : m.contents = h.encode ++ w) :
    wp (receiveHeader C p)
      (fun err s' => err = false ∧ s'.log = s.log ∧ ∃ m', m'.contents = w ∧
        Taking srv p (i.put h) m' s')
      R s := by
  have hreach : m.reach = h.encode ++ (w ++ m.behind) := by rw [Buf.reach, hc, List.append_assoc]
  have hsize : m.dataSize = h.encode.length + w.length := by
    rw [← length_contents, hc, List.length_append]
  rcases Head.kinds h.hi with hk | hk
  · obtain ⟨he, hf⟩ := hv.fixed hk
    have hlen : h.encode.length = h.value.length + 1 := by rw [he, List.length_cons]
    refine ht.parsing.receiveHeader_fixed (by rw [hreach, he]; rfl) hf ?_
    refine ht.receiveValue hm hv (by omega) ?_ ?_ fun _ => hreach
    · rw [bufPeek_of_le (by omega), hc, he]
      exact congrArg some List.take_left
    · rw [hc, ← hlen, List.drop_left]
  · obtain ⟨he, hlt⟩ := hv.sized hk
    have hlen : h.encode.length = h.value.length + 3 := by
      rw [he, List.length_append, List.length_cons, length_be16]
      omega
    have hl : ofBe16 (UInt8.ofNat ((h.value.length + 3) / 256)) (UInt8.ofNat (h.value.length + 3)) =
        h.value.length + 3 := by rw [ofBe16_be16, Nat.mod_eq_of_lt hlt]
    have hl3 : u32 (((h.value.length + 3 : Nat) : Int) - 3) = h.value.length := by
      rw [u32_sub_three hlt, if_pos (by omega)]
      omega
    have hno : ¬ (h.hi = obexHdrBody ∨ h.hi = obexHdrBodyEnd) := of_decide_eq_false hb
    refine ht.parsing.receiveHeader_sized hk (by rw [hreach, he]; rfl) (by rw [hreach, he]; rfl)
      (by rw [hreach, he]; rfl) (fun hbody => absurd hbody hno) (.inl ?_)
    rw [hl, hl3]
    refine ht.receiveValue hm hv (by omega) ?_ ?_ fun _ => hreach
    · rw [bufPeek_of_le (by omega), hc, he]
      exact congrArg some List.take_left
    · rw [hc, ← hlen, List.drop_left]

/-- The part of a body: what is left of the packet behind it. -/
theorem body (ht : Taking srv p i m s) (hv : h.Valid) (hb : h.isBody = true)
    (hc : m.contents = h.encode ++ w) {Q : Bool → Obex → Prop}
    (hbody : bufPeek m 3 h.value.length = some h.value → h.value.length + 3 ≤ m.dataSize →
      wp (receiveBodyHeader C p h.hi h.value.length) (fun err s' => (err = true → Q true s') ∧
        (err = false → ∃ i', Taking srv p i' m s' ∧ ∀ m' s'', m'.contents = w → s''.log = s'.log →
          Taking srv p i' m' s'' → Q false s'')) R s) :
    wp (receiveHeader C p) Q R s := by
  have hk := Head.sized_of_isBody hb
  have hreach : m.reach = h.encode ++ (w ++ m.behind) := by rw [Buf.reach, hc, List.append_assoc]
  have hsize : m.dataSize = h.encode.length + w.length := by
    rw [← length_contents, hc, List.length_append]
  obtain ⟨he, hlt⟩ := hv.sized (.inr hk)
  have hlen : h.encode.length = h.value.length + 3 := by
    rw [he, List.length_append, List.length_cons, length_be16]
    omega
  have hl : ofBe16 (UInt8.ofNat ((h.value.length + 3) / 256)) (UInt8.ofNat (h.value.length + 3)) =
      h.value.length + 3 := by rw [ofBe16_be16, Nat.mod_eq_of_lt hlt]
  have hl3 : u32 (((h.value.length + 3 : Nat) : Int) - 3) = h.value.length := by
    rw [u32_sub_three hlt, if_pos (by omega)]
    omega
  refine ht.parsing.receiveHeader_sized (.inr hk) (by rw [hreach, he]; rfl) (by rw [hreach, he]; rfl)
    (by rw [hreach, he]; rfl) (fun _ => ?_) (.inr (of_decide_eq_true hb))
  rw [hl, hl3]
  refine wp_seq (hbody ?_ (by omega)) fun err s' hs' => ?_
  · rw [bufPeek_of_le (by omega), hc, he]
    exact congrArg some List.take_left
  · cases err with
    | true =>
      rw [OpenObex.receiveValue, wp_bind, wp_get]
      refine wp_ite.2 ⟨fun _ => hs'.1 rfl, fun _ => ?_⟩
      rw [wp_bind, wp_pure, if_pos rfl]
      exact hs'.1 rfl
    | false =>
      obtain ⟨i', ht', hQ⟩ := hs'.2 rfl
      rw [OpenObex.receiveValue, wp_bind, wp_get, if_neg (by rw [ht'.parsing.rxMsg]; omega), wp_bind,
        wp_pure, if_neg (by simp), wp_bind, wp_modify]
      refine hQ _ _ ?_ rfl (ht'.removeBegin (h.value.length + 3))
      rw [contents_bufRemoveBegin, hc, ← hlen, List.drop_left]

/-- A fragment of a body that is not announced too long has its buffer. -/
theorem rxBodyBuf_keeping (hm : Grants C.malloc) (ht : Took false i o fresh) {n : Nat} (hn : n < 65536)
    (hr : ¬ (i.body = none ∧ 2147483648 ≤ i.hint)) :
    ∃ b, rxBodyBuf C o n = some b ∧ Keeping (i.current n) b := by
  have hb := ht.body
  unfold rxBodyBuf Intake.current
  generalize i.body = x at *
  generalize o.rxBody = y at *
  cases hb with
  | some h => exact ⟨_, rfl, h⟩
  | none =>
    have hlt : i.hint < 2147483648 := by
      by_contra hge
      exact hr ⟨rfl, by omega⟩
    have hlen : rxBodyAlloclen o n =
        if i.hint = 0 then obexObjectAllocationtreshold + n else i.hint := by
      unfold rxBodyAlloclen
      rw [ht.hint]
      have hhint : i32 i.hint = i.hint := by
        unfold i32
        omega
      rw [hhint]
      by_cases h0 : i.hint = 0
      · rw [h0, if_neg (by simp), if_pos rfl]
        unfold sizeT i32 obexObjectAllocationtreshold
        omega
      · rw [if_pos (by omega), if_neg h0]
        unfold sizeT
        omega
    have hroom : (if i.hint = 0 then obexObjectAllocationtreshold + n else i.hint) < 4294967296 := by
      unfold obexObjectAllocationtreshold
      split <;> omega
    dsimp only [Option.getD_none]
    rw [hlen]
    refine ⟨_, if_pos (hm.granted (by omega)), keeping_fresh hroom⟩

theorem rxBodyBuf_refused (hm : Plenty C.malloc) (ht : Took false i o fresh) {n : Nat}
    (hb : i.body = none) (hr : 2147483648 ≤ i.hint) : rxBodyBuf C o n = none := by
  have hbody := ht.body
  rw [hb] at hbody
  have hno : o.rxBody = none := by
    cases hx : o.rxBody with
    | none => rfl
    | some b =>
      rw [hx] at hbody
      cases hbody
  have hlt := ht.hint_lt
  unfold rxBodyBuf
  rw [hno]
  dsimp only
  unfold bufNew
  rw [hm, if_neg]
  rw [decide_eq_true_iff]
  unfold rxBodyAlloclen
  rw [ht.hint, if_pos (by unfold i32; omega)]
  unfold sizeT i32 ptrdiffMax
  omega

/-- The body with its newest fragment is kept, or moved to the queue. -/
theorem storeRxBody (hm : Grants C.malloc) (hp : Parsing p m s) {g : Gathered} {b : Buf}
    {x : Option Buf} (ho : s.objects p = some { o with rxBody := x }) (ht : Took false i o s.fresh)
    (hg : g = (i.current h.value.length).add h.value) (hb : Keeping g b) :
    wp (storeRxBody C p h.hi b) (fun _ => Taking false p (i.gather h) m) R s := by
  have hsize := contents_length_le b
  have hlt := hb.size
  unfold OpenObex.storeRxBody Intake.gather
  rw [← hg]
  by_cases hend : h.hi = obexHdrBodyEnd
  · rw [if_pos hend, if_pos (hm.granted (by decide)), alloc, wp_bind, wp_bind, wp_get, wp_bind, wp_set,
      wp_pure, wp_update]
    refine ⟨fun o' ho' => ?_, fun hn => ?_⟩
    swap
    · cases ho.symm.trans hn
    cases ho.symm.trans ho'
    rw [if_pos hend]
    have hlen : u32 b.dataSize = b.dataSize := by
      unfold u32
      omega
    have hx : Element { head := { hi := obexHdrBody, value := g.value }, whole := g.whole }
        { addr := s.fresh, buf := some b, hi := obexHdrBody, flags := {}, length := u32 b.dataSize
          bodyTouched := false, stream := false } := by
      refine ⟨rfl, b, rfl, hlen, fun hw => ?_, fun hw => ?_⟩
      · exact (hb.whole (of_decide_eq_true hw)).2
      · exact hb.lost (Nat.le_of_not_lt (of_decide_eq_false hw))
    have happ := ht.append hx rfl
    refine ⟨hp.fresh.setObject _, _, objects_setObject _ _ _, ?_⟩
    exact ⟨happ.srv, happ.going, happ.offset, happ.hint, happ.hint_lt, .none, happ.queue, happ.sorted,
      happ.bound⟩
  · rw [if_neg hend, wp_update]
    refine ⟨fun o' ho' => ?_, fun hn => ?_⟩
    swap
    · cases ho.symm.trans hn
    cases ho.symm.trans ho'
    rw [if_neg hend]
    refine ⟨hp.setObject _, _, objects_setObject _ _ _, ?_⟩
    exact ⟨ht.srv, ht.going, ht.offset, ht.hint, ht.hint_lt, .some hb, ht.queue, ht.sorted, ht.bound⟩

/-- A fragment is gathered unless there is no buffer for it. -/
theorem gather (hm : Plenty C.malloc) (ht : Taking false p i m s) (hv : h.Valid) (hb : h.isBody = true)
    (hc : m.contents = h.encode ++ w) :
    wp (receiveHeader C p) (fun err s' => (i.Refuses h → err = true) ∧ (¬ i.Refuses h → err = false ∧
      ∃ m', m'.contents = w ∧ Taking false p (i.gather h) m' s')) R s := by
  have hlt := hv.length_lt
  refine ht.body hv hb hc fun hpeek hle => ?_
  obtain ⟨hp, o, ho, htook⟩ := ht
  rw [receiveBodyHeader, wp_bind, wp_deref, ho]
  refine ⟨?_, by simp⟩
  rintro _ ⟨⟩
  rw [if_neg (by rw [htook.srv]; simp), wp_bind]
  by_cases hr : i.Refuses h
  · have hno := rxBodyBuf_refused (n := h.value.length) hm htook hr.2.1 hr.2.2
    rw [obexObjectReceiveBody, wp_bind, wp_get, if_neg (by rw [hp.rxMsg]; omega), wp_bind, wp_deref, ho]
    refine ⟨?_, by simp⟩
    rintro _ ⟨⟩
    rw [hno]
    exact ⟨fun _ => ⟨fun _ => rfl, fun hn => absurd hr hn⟩, by simp⟩
  · obtain ⟨b, hbuf, hholds⟩ := rxBodyBuf_keeping hm.grants htook hlt fun hn => hr ⟨hb, hn⟩
    obtain ⟨b₁, hb₁, hroom, hadd⟩ := hholds.add hm.grants hlt
    refine wp_receiveBody ho (by rw [hp.rxMsg]; omega) hbuf hb₁ hroom (fun d b₂ hd hb₂ => ?_)
      fun hnone => ?_
    swap
    · rw [hp.rxMsg, hpeek] at hnone
      cases hnone
    rw [hp.rxMsg, hpeek] at hd
    cases hd
    have hkeep := hadd b₂ hb₂
    -- the fragment is taken
    have hdone {s' : Obex} (h' : Taking false p (i.gather h) m s') :
        wp (pure (decide ((1 : Int) < 0)) : M Bool) (fun err s'' =>
          (err = true → (i.Refuses h → true = true) ∧ (¬ i.Refuses h → true = false ∧
            ∃ m', m'.contents = w ∧ Taking false p (i.gather h) m' s'')) ∧
          (err = false → ∃ i', Taking false p i' m s'' ∧ ∀ m' s₃, m'.contents = w →
            s₃.log = s''.log → Taking false p i' m' s₃ → (i.Refuses h → false = true) ∧
              (¬ i.Refuses h → false = false ∧
                ∃ m', m'.contents = w ∧ Taking false p (i.gather h) m' s₃))) R s' := by
      refine ⟨by simp, fun _ => ⟨_, h', fun m' s₃ hm' _ ht' => ⟨fun hn => absurd hn hr, fun _ => ?_⟩⟩⟩
      exact ⟨rfl, m', hm', ht'⟩
    refine wp_conseq (storeRxBody hm.grants (hp.setObject _) (objects_setObject _ _ _) htook
      rfl hkeep) ?_
    exact fun _ s' h' => hdone h'

end Taking

/-! ## A whole packet -/

/-- What follows from a packet for the state of the receiver `step` describes, `none` for a refusal. -/
def Received {σ : Type} (T : σ → Obex → Prop) (x : Option σ) (r : Int) (s : Obex) : Prop := match x with
  | none => r = -1
  | some a => r = 1 ∧ T a s

/-- A description of the receiver for the headers of `ok`: `T a m s` when it has come to `a` and `m` is
left of the packet, and what a header makes of `a`. -/
structure Receiver (C : Ctx) (p : Ptr) (ok : Head → Prop) {σ : Type} (T : σ → Buf → Obex → Prop)
    (step : σ → Head → Option σ) : Prop where
  parsing : ∀ {a m s}, T a m s → Parsing p m s
  offset : ∀ {a m s o}, T a m s → s.objects p = some o → o.headeroffset = 0
  rxMsg : ∀ {a m s} b, T a m s → T a b (s.setRxMsg b)
  header : ∀ {a m s h w}, T a m s → h.Valid → ok h → m.contents = h.encode ++ w →
    wp (receiveHeader C p) (fun err s' => match step a h with
      | none => err = true
      | some a' => err = false ∧ ∃ m', m'.contents = w ∧ T a' m' s') (fun _ _ => False) s

namespace Receiver

variable {ok : Head → Prop} {σ : Type} {T : σ → Buf → Obex → Prop} {step : σ → Head → Option σ} {a : σ}
  {hs : List Head}

theorem receiveHeaders (hr : Receiver C p ok T step) (ht : T a m s) (hv : ∀ h ∈ hs, h.Valid ∧ ok h)
    (hc : m.contents = hs.flatMap Head.encode) {fuel : Nat} (hf : m.dataSize ≤ fuel) :
    wp (receiveHeaders C p fuel) (Received (fun a s' => ∃ m', T a m' s') (hs.foldlM step a))
      (fun _ _ => False) s := by
  induction hs generalizing a m s fuel with
  | nil => exact receiveHeaders_nil (hr.parsing ht) hc fuel ⟨rfl, m, ht⟩
  | cons h hs ih =>
    obtain ⟨hh, hok⟩ := hv h List.mem_cons_self
    rw [List.flatMap_cons] at hc
    have hpos : 0 < h.encode.length := List.length_pos_iff.2 hh.header.ne_nil
    have hsize : m.dataSize = h.encode.length + (hs.flatMap Head.encode).length := by
      rw [← length_contents, hc, List.length_append]
    refine receiveHeaders_cons (hr.parsing ht) (fun hn => ?_) hf ?_
    · rw [hn] at hc
      exact hh.header.ne_nil (List.append_eq_nil_iff.1 hc.symm).1
    refine wp_conseq (hr.header ht hh hok hc) fun err s' hs' => ?_
    rw [List.foldlM_cons]
    cases hx : step a h with
    | none =>
      rw [hx] at hs'
      have hs' : err = true := hs'
      exact ⟨fun _ => rfl, fun hn => absurd (hs'.symm.trans hn) (by simp)⟩
    | some a' =>
      rw [hx] at hs'
      obtain ⟨he, m', hm', ht'⟩ := hs'
      refine ⟨fun hn => absurd (he.symm.trans hn) (by simp), fun _ => ?_⟩
      refine ih ht' (fun x hx => hv x (List.mem_cons_of_mem _ hx)) hm' ?_
      rw [← length_contents, hm']
      omega

/-- The packet is `x` in front of the headers `hs`. -/
theorem receive (hr : Receiver C p ok T step) {x : Bytes} (hx : x.length = 3)
    (ht : T a m s) (hv : ∀ h ∈ hs, h.Valid ∧ ok h) (hc : m.contents = x ++ hs.flatMap Head.encode) :
    wp (obexObjectReceive C) (Received (fun a s' => ∃ m', T a m' s') (hs.foldlM step a))
      (fun _ _ => False) s := by
  have hp := hr.parsing ht
  have ht' : T a (bufRemoveBegin m 3) (s.setRxMsg (bufRemoveBegin s.rxMsg 3)) := by
    rw [hp.rxMsg]
    exact hr.rxMsg _ ht
  have hp' := hr.parsing ht'
  obtain ⟨o, ho⟩ := hp'.alive
  rw [obexObjectReceive, wp_bind, wp_modify]
  refine hp'.selfObject ?_
  rw [wp_bind, receiveNonhdr, wp_bind, wp_deref, ho]
  refine ⟨?_, by simp⟩
  rintro _ ⟨⟩
  rw [if_pos (hr.offset ht' ho), wp_pure, if_pos rfl, wp_bind, wp_get, hp'.rxMsg]
  refine hr.receiveHeaders ht' hv ?_ (Nat.le_refl _)
  rw [contents_bufRemoveBegin, hc, ← hx, List.drop_left]

end Receiver

/-- What a header makes of the intake in buffered mode. -/
def Intake.step (i : Intake) (h : Head) : Option Intake := if i.Refuses h then none else some (i.take h)

theorem bufferedReceiver (hm : Plenty C.malloc) (p : Ptr) :
    Receiver C p (fun _ => True) (Taking false p) Intake.step := by
  refine ⟨fun ht => ht.parsing, fun ht ho => ?_, fun b ht => ?_, fun {a m s h w} ht hv _ hc => ?_⟩
  · obtain ⟨o', ho', htook⟩ := ht.took
    cases ho.symm.trans ho'
    exact htook.offset
  · exact ⟨⟨ht.parsing.object, ht.parsing.alive, rfl⟩, ht.took⟩
  · unfold Intake.step Intake.take
    cases hb : h.isBody with
    | true =>
      refine wp_conseq (ht.gather hm hv hb hc) fun err s' hs' => ?_
      by_cases hr : a.Refuses h
      · rw [if_pos hr]
        exact hs'.1 hr
      · rw [if_neg hr]
        exact hs'.2 hr
    | false =>
      have hr : ¬ a.Refuses h := fun hr => by
        rw [hr.1] at hb
        cases hb
      refine wp_conseq (ht.put hm.grants hv hb hc) fun err s' hs' => ?_
      rw [if_neg hr]
      exact ⟨hs'.1, hs'.2.2⟩

/-- Headers that are no part of a body are queued, whatever is done with bodies. -/
theorem valueReceiver (hm : Grants C.malloc) (srv : Bool) (p : Ptr) :
    Receiver C p (fun h => h.isBody = false) (Taking srv p) fun i h => some (i.put h) := by
  refine ⟨fun ht => ht.parsing, fun ht ho => ?_, fun b ht => ?_, fun {a m s h w} ht hv hb hc => ?_⟩
  · obtain ⟨o', ho', htook⟩ := ht.took
    cases ho.symm.trans ho'
    exact htook.offset
  · exact ⟨⟨ht.parsing.object, ht.parsing.alive, rfl⟩, ht.took⟩
  · exact wp_conseq (ht.put hm hv hb hc) fun err s' hs' => ⟨hs'.1, hs'.2.2⟩

/-! ## Reading the queue -/

/-- What the application finds in a header. -/
def Head.read (h : Head) : UInt8 × HeaderValue × Nat :=
  (h.hi, match hiType h.hi with
    | .byteStream | .unicode => .bs h.value
    | .int => .bq4 (lengthValue h.value)
    | .byte => .bq1 (h.value.headD 0), h.value.length)

/-- A value whose length its type fixes has that length. -/
def Head.Typed (h : Head) : Prop := match hiType h.hi with
  | .byte => h.value.length = 1
  | .int => h.value.length = 4
  | _ => True

theorem Head.Valid.typed (hv : h.Valid) : h.Typed := by
  unfold Head.Valid at hv
  unfold Head.Typed
  split at hv <;> simp_all

theorem wp_headerValue {e : HeaderElement} (hx : Element { head := h, whole := true } e) (ht : h.Typed)
    {Q : UInt8 × HeaderValue × Nat → Obex → Prop} (hq : Q h.read s) : wp (headerValue e) Q R s := by
  obtain ⟨hhi, b, hb, hlen, hc, -⟩ := hx
  have hc := hc rfl
  have hvalue : b.dataSize = h.value.length := by rw [← length_contents, hc]
  have hreach : b.reach = h.value ++ b.behind := by rw [Buf.reach, hc]
  rw [headerValue, hb, wp_bind, wp_require]
  refine ⟨?_, by simp⟩
  rintro _ ⟨⟩
  rw [hhi, hlen, hvalue]
  unfold Head.Typed at ht
  unfold Head.read at hq
  have hpeek : bufPeek b 0 h.value.length = some h.value := by
    rw [bufPeek_of_le (by omega), hc]
    exact congrArg some (List.take_of_length_le (Nat.le_refl _))
  cases hk : hiType h.hi with
  | byteStream =>
    rw [hk] at hq
    dsimp only
    rw [wp_bind, peek, hpeek, wp_require]
    exact ⟨fun _ h => by cases h; exact hq, by simp⟩
  | unicode =>
    rw [hk] at hq
    dsimp only
    rw [wp_bind, peek, hpeek, wp_require]
    exact ⟨fun _ h => by cases h; exact hq, by simp⟩
  | int =>
    rw [hk] at hq ht
    dsimp only at hq ⊢
    generalize h.value = v at *
    obtain ⟨a, b', c, d, rfl⟩ : ∃ a b' c d, v = [a, b', c, d] := List.length_eq_four.1 ht
    refine wp_byteAt_some (b := a) (by rw [hreach]; rfl) (wp_byteAt_some (b := b') (by rw [hreach]; rfl)
      (wp_byteAt_some (b := c) (by rw [hreach]; rfl)
        (wp_byteAt_some (b := d) (by rw [hreach]; rfl) ?_)))
    exact hq
  | byte =>
    rw [hk] at hq ht
    dsimp only at hq ⊢
    generalize h.value = v at *
    obtain ⟨a, rfl⟩ := List.length_eq_one_iff.1 ht
    refine wp_byteAt_some (b := a) (by rw [hreach]; rfl) ?_
    exact hq

/-- The application reads headers until there are no more, `n` at most. -/
def readHeaders (p : Ptr) : Nat → M (List (UInt8 × HeaderValue × Nat))
  | 0 => pure []
  | n + 1 => do
    match ← obexObjectGetnextheader p with
    | none => pure []
    | some x => do
      let xs ← readHeaders p n
      pure (x :: xs)

theorem wp_readHeaders {q : List Item} {n : Nat} (ho : s.objects p = some o)
    (hq : List.Forall₂ Element q o.rxHeaderq) (hsort : (o.rxHeaderq.map addr).Pairwise (· < ·))
    (hw : ∀ x ∈ q, x.whole = true ∧ x.head.Typed) (hn : q.length ≤ n) :
    wp (readHeaders p n) (fun l _ => l = q.map fun x => x.head.read) R s := by
  induction n generalizing s o q with
  | zero =>
    have hnil : q = [] := List.eq_nil_of_length_eq_zero (Nat.le_zero.1 hn)
    rw [hnil]
    rfl
  | succ n ih =>
    rw [readHeaders, wp_bind, obexObjectGetnextheader, wp_bind, wp_deref, ho]
    refine ⟨?_, by simp⟩
    rintro _ ⟨⟩
    generalize hl : o.rxHeaderq = l at hq hsort
    cases hq with
    | nil => rfl
    | @cons x e q es hx hrest =>
      obtain ⟨hwhole, htyped⟩ := hw x List.mem_cons_self
      rw [wp_bind, wp_update, ho]
      refine ⟨?_, by simp⟩
      rintro _ ⟨⟩
      have hx' : Element { head := x.head, whole := true } e := by
        rw [← hwhole]
        exact hx
      rw [wp_bind]
      refine wp_headerValue hx' htyped ?_
      rw [wp_pure]
      dsimp only
      rw [wp_bind, hl, slistRemove_first (distinct_of_sorted hsort)]
      rw [List.map_cons, List.pairwise_cons] at hsort
      refine wp_conseq (ih (objects_setObject _ _ _) hrest hsort.2
        (fun y hy => hw y (List.mem_cons_of_mem _ hy)) (Nat.le_of_succ_le_succ hn)) ?_
      rintro _ _ rfl
      rfl

end OpenObex
