import OpenObex.Proof.Grammar
import OpenObex.Proof.Runs

/-!
# What the receiver accepts

`obex_object_receive` compares the length of a header's value, without the bytes in front of it, with
the bytes that remain, and removes what remains where a header claims more. So it notices that the
packet ends inside a header only if the header lacks more than its prefix (`Noticed`), and accepts
the packet otherwise (`receive_exact_iff`).
-/

namespace OpenObex

open Mem Prog Tokens

variable {C : Ctx} {p : Ptr} {R : Stop → Obex → Prop}

/-! ## Storing one value -/

/-- The state with a value of `len` bytes, in `b`, queued for the application. -/
def queued (s : Obex) (p : Ptr) (o : ObexObject) (hi : UInt8) (b : Buf) (len : Nat) : Obex :=
  ({ s with fresh := s.fresh + 1 } : Obex).setObject p (some { o with
    rxHeaderq := slistAppend o.rxHeaderq
      { addr := s.fresh, buf := some b, hi, flags := {}, length := len, bodyTouched := false
        stream := false } })

theorem bufNew_total (hm : ∀ n, C.malloc n = true) (n : Nat) :
    bufNew C.malloc n = some (freshBuf n) := if_pos (hm n)

theorem contents_freshBuf (n : Nat) : (freshBuf n).contents = [] := contents_eq_nil rfl

theorem wp_queueElement {s : Obex} {o : ObexObject} {hi : UInt8} {source len : Nat}
    {Q : Bool → Obex → Prop} (hm : C.malloc sizeofHeaderElement = true)
    (hb : C.malloc (if len = 0 then 1 else len) = true) (ho : s.objects p = some o)
    (h : ∀ d b, bufPeek s.rxMsg source len = some d → b.contents = d →
      Q true (queued s p o hi b len))
    (he : bufPeek s.rxMsg source len = none →
      R (.fault .outOfBounds) { s with fresh := s.fresh + 1 }) :
    wp (queueElement C p hi source len) Q R s := by
  rw [queueElement, wp_bind, wp_get, if_pos hm, alloc, wp_bind, wp_bind, wp_get, wp_bind, wp_set,
    wp_pure, bufNew, if_pos hb]
  dsimp only
  rw [wp_bind, peek, wp_require]
  refine ⟨fun d hd => ?_, he⟩
  have hlen : d.length = len := by
    obtain ⟨hle, rfl⟩ := bufPeek_some hd
    exact length_slice hle
  have hstore (b : Buf) (hb : b.contents = d) : wp (update p fun o =>
      { o with
        rxHeaderq := slistAppend o.rxHeaderq
          { addr := s.fresh, buf := some b, hi, flags := {}, length := len, bodyTouched := false
            stream := false } })
      (fun _ => Q true) R ({ s with fresh := s.fresh + 1 } : Obex) := by
    rw [wp_update]
    refine ⟨fun o' ho' => ?_, fun hn => ?_⟩
    · have ho' : s.objects p = some o' := ho'
      rw [ho] at ho'
      cases ho'
      exact h d b hd hb
    · exact absurd (ho.symm.trans hn) (by simp)
  by_cases h0 : len = 0
  · rw [if_pos h0, if_pos h0, wp_bind, wp_pure, wp_bind]
    refine hstore _ ?_
    rw [contents_freshBuf, List.eq_nil_of_length_eq_zero (hlen.trans h0)]
  · rw [if_neg h0, if_neg h0, wp_bind, wp_require]
    refine ⟨fun b hb => wp_bind.2 (hstore b ?_), fun hn => ?_⟩
    · rw [(bufInsertEnd_some hb).1, contents_freshBuf, List.nil_append]
    · obtain ⟨q, hq, -⟩ : ∃ q, bufInsertEnd C.malloc (freshBuf len) d = some q ∧ _ :=
        bufInsertEnd_avail (by rw [hlen]; exact Nat.le_add_left _ _)
      rw [hq] at hn
      cases hn

theorem growRxBody_total (hm : ∀ n, C.malloc n = true) (b : Buf) (len : Nat) :
    ∃ b', growRxBody C b len = some b' := by
  unfold growRxBody
  split
  · dsimp only
    rw [if_pos (bufTotalSize_resize (hm _))]
    exact ⟨_, rfl⟩
  · exact ⟨_, rfl⟩

/-- The buffer that takes the next fragment of the body. -/
def bodyBuf (o : ObexObject) (len : Nat) : Buf :=
  o.rxBody.getD (freshBuf (rxBodyAlloclen o len))

theorem rxBodyBuf_total (hm : ∀ n, C.malloc n = true) (o : ObexObject) (len : Nat) :
    rxBodyBuf C o len = some (bodyBuf o len) := by
  unfold rxBodyBuf bodyBuf
  cases o.rxBody with
  | some b => rfl
  | none => exact bufNew_total hm _

/-- The fragment is appended to the body `b`, grown to `b₁`. -/
theorem wp_receiveBody {s : Obex} {o : ObexObject} {hi : UInt8} {len : Nat} {b b₁ : Buf}
    {Q : Int → Obex → Prop} (ho : s.objects p = some o) (hlen : len ≤ s.rxMsg.dataSize)
    (hb : rxBodyBuf C o len = some b) (hb₁ : growRxBody C b len = some b₁)
    (hroom : Granted C.malloc b₁ len)
    (h : ∀ d b₂, bufPeek s.rxMsg 3 len = some d → bufInsertEnd C.malloc b₁ d = some b₂ →
      wp (storeRxBody C p hi b₂) (fun _ => Q 1) R
        (s.setObject p (some { o with rxBody := some b })))
    (he : bufPeek s.rxMsg 3 len = none → ∀ s, R (.fault .outOfBounds) s) :
    wp (obexObjectReceiveBody C p hi len) Q R s := by
  rw [obexObjectReceiveBody, wp_bind, wp_get, if_neg (by omega), wp_bind, wp_deref, ho]
  refine ⟨?_, by simp⟩
  rintro _ ⟨⟩
  rw [hb]
  dsimp only
  rw [wp_bind, wp_update, ho]
  refine ⟨?_, by simp⟩
  rintro _ ⟨⟩
  rw [hb₁]
  dsimp only
  rw [wp_bind, peek, wp_require]
  refine ⟨fun d hd => ?_, fun hn => he hn _⟩
  rw [wp_bind, wp_require]
  refine ⟨fun b₂ hb₂ => ?_, fun hn => ?_⟩
  · rw [wp_bind]
    exact h d b₂ hd hb₂
  · have hlen : d.length = len := by
      obtain ⟨hle, rfl⟩ := bufPeek_some hd
      exact length_slice hle
    rw [← hlen] at hroom
    obtain ⟨q, hq⟩ := bufInsertEnd_iff.2 hroom
    rw [hq] at hn
    cases hn

/-! ## One header -/

theorem u32_sub_three {n : Nat} (h : n < 65536) :
    u32 (n - 3) = if 3 ≤ n then n - 3 else 4294967293 + n := by
  unfold u32
  split <;> omega

/-- The rest `m` of the packet is parsed for the current object. -/
structure Parsing (p : Ptr) (m : Buf) (s : Obex) : Prop where
  object : s.object = some p
  alive : ∃ o, s.objects p = some o
  rxMsg : s.rxMsg = m

/-- Memory does not run out, and the callback returns, the packet and the object left in place. -/
structure Reader (C : Ctx) (p : Ptr) : Prop where
  malloc : ∀ n, C.malloc n = true
  event : ∀ m notice s, Parsing p m s →
    wp (C.eventcb notice) (fun _ => Parsing p m) (fun _ _ => False) s

/-- A read of `n` bytes at `off` that leaves the allocation ends with an error of `R`. -/
def MayRead (R : Stop → Obex → Prop) (m : Buf) (off n : Nat) : Prop :=
  m.reach.length < off + n → ∀ s, R (.fault .outOfBounds) s

theorem MayRead.peek_none {m : Buf} {off n : Nat} (h : MayRead R m off n)
    (hn : bufPeek m off n = none) : ∀ s, R (.fault .outOfBounds) s := by
  rw [bufPeek_reach] at hn
  refine h ?_
  by_contra hle
  rw [if_pos (by omega)] at hn
  cases hn

namespace Parsing

variable {m : Buf} {s : Obex}

theorem setObject (h : Parsing p m s) (o : ObexObject) : Parsing p m (s.setObject p (some o)) :=
  ⟨h.object, ⟨o, if_pos rfl⟩, h.rxMsg⟩

theorem fresh (h : Parsing p m s) : Parsing p m { s with fresh := s.fresh + 1 } :=
  ⟨h.object, h.alive, h.rxMsg⟩

theorem removeBegin (h : Parsing p m s) (n : Nat) :
    Parsing p (bufRemoveBegin m n) (s.setRxMsg (bufRemoveBegin s.rxMsg n)) :=
  ⟨h.object, h.alive, congrArg (bufRemoveBegin · n) h.rxMsg⟩

theorem deref {α : Type} {f : ObexObject → M α} {Q : α → Obex → Prop} (h : Parsing p m s)
    (hf : ∀ o, s.objects p = some o → wp (f o) Q R s) : wp (deref p >>= f) Q R s := by
  obtain ⟨o, ho⟩ := h.alive
  rw [wp_bind, wp_deref]
  exact ⟨hf, fun hn => absurd (ho.symm.trans hn) (by simp)⟩

theorem update (h : Parsing p m s) (f : ObexObject → ObexObject) :
    wp (update p f) (fun _ => Parsing p m) R s := by
  obtain ⟨o, ho⟩ := h.alive
  rw [wp_update]
  exact ⟨fun o' _ => h.setObject _, fun hn => absurd (ho.symm.trans hn) (by simp)⟩

theorem selfObject {α : Type} {f : Ptr → M α} {Q : α → Obex → Prop} (h : Parsing p m s)
    (hf : wp (f p) Q R s) : wp (selfObject >>= f) Q R s := by
  rw [wp_bind, wp_selfObject, h.object]
  exact ⟨by rintro _ ⟨⟩; exact hf, by simp⟩

variable (hr : Reader C p)
include hr

theorem event (h : Parsing p m s) :
    wp (obexDeliverEvent C .streamavail 0 0 false) (fun _ => Parsing p m) R s :=
  wp_deliverEvent (wp_mono (hr.event m _ _ ⟨h.object, h.alive, h.rxMsg⟩) (fun _ _ h => h)
    fun _ _ he => he.elim)

theorem receiveStream (h : Parsing p m s) (hi : UInt8) (len : Nat) :
    wp (obexObjectReceiveStream C hi len) (fun _ => Parsing p m) R s := by
  rw [obexObjectReceiveStream]
  refine h.selfObject ?_
  split
  · exact h
  rw [wp_bind, wp_get]
  refine wp_seq (h.update _) fun _ s h => h.deref fun o _ => ?_
  split
  · exact h
  refine wp_seq (h.event hr) fun _ s h => ?_
  rw [wp_when]
  refine ⟨fun _ => ?_, fun _ => h⟩
  exact wp_seq (h.update _) fun _ s h => h.event hr

theorem storeRxBody (h : Parsing p m s) (hi : UInt8) (b : Buf) :
    wp (storeRxBody C p hi b) (fun _ => Parsing p m) R s := by
  unfold OpenObex.storeRxBody
  split
  · rw [if_pos (hr.malloc _), alloc, wp_bind, wp_bind, wp_get, wp_bind, wp_set, wp_pure]
    exact h.fresh.update _
  · exact h.update _

/-- A body header is refused only if its value is longer than the rest of the packet. -/
theorem receiveBodyHeader (h : Parsing p m s) (hi : UInt8) {len : Nat}
    (hread : len ≤ m.dataSize → MayRead R m 3 len) :
    wp (receiveBodyHeader C p hi len)
      (fun err s' => Parsing p m s' ∧ (err = true → m.dataSize < len)) R s := by
  rw [OpenObex.receiveBodyHeader]
  refine h.deref fun o ho => ?_
  split
  · exact wp_seq (h.receiveStream hr hi len) fun _ s h => ⟨h, by simp⟩
  by_cases hlen : m.dataSize < len
  · rw [obexObjectReceiveBody, wp_bind, wp_bind, wp_get, h.rxMsg, if_pos hlen]
    exact ⟨h, fun _ => hlen⟩
  obtain ⟨b₁, hb₁⟩ := growRxBody_total hr.malloc (bodyBuf o len) len
  rw [wp_bind]
  refine wp_receiveBody ho (by rw [h.rxMsg]; omega) (rxBodyBuf_total hr.malloc o len) hb₁
    (.inr (hr.malloc _)) (fun d b₂ _ _ => ?_) fun hn => ?_
  · exact wp_conseq ((h.setObject _).storeRxBody hr hi b₂) fun _ s h => ⟨h, by simp⟩
  · rw [h.rxMsg] at hn
    exact (hread (by omega)).peek_none hn

omit hr in
/-- A value longer than the rest of the packet is refused. -/
theorem receiveValue_long {hi : UInt8} {hlen len : Nat} {source : Option Nat} {err : Bool}
    (h : Parsing p m s) (hl : m.dataSize < len) :
    wp (receiveValue C p hi hlen len source err) (fun e _ => e = true) R s := by
  rw [receiveValue, wp_bind, wp_get, h.rxMsg, if_pos hl]
  rfl

omit hr in
theorem hint {hi : UInt8} (h : Parsing p m s) (hread : hi = obexHdrLength → MayRead R m 1 4) :
    wp (when (hi = obexHdrLength) (hintBodyLen p m)) (fun _ => Parsing p m) R s := by
  rw [wp_when]
  refine ⟨fun hhi => ?_, fun _ => h⟩
  have byte {α : Type} {f : UInt8 → M α} {Q : α → Obex → Prop} {off : Nat} (ho : off < 5)
      (hf : ∀ b, wp (f b) Q R s) : wp (byteAt m off >>= f) Q R s := by
    rw [wp_bind]
    exact wp_byteAt_reach (fun b _ => hf b) fun hle => hread hhi (by omega) s
  exact byte (by omega) fun _ => byte (by omega) fun _ => byte (by omega) fun _ =>
    byte (by omega) fun _ => h.update _

/-- Any other value is taken. -/
theorem receiveValue {hi : UInt8} {hlen len : Nat} {source : Option Nat} (h : Parsing p m s)
    (hl : len ≤ m.dataSize) (hread : ∀ k, source = some k → MayRead R m k len)
    (hint : hi = obexHdrLength → ∀ k, source = some k → k = 1 ∧ len = 4) :
    wp (receiveValue C p hi hlen len source false)
      (fun err s' => err = false ∧ Parsing p (bufRemoveBegin m hlen) s') R s := by
  have hrest (s : Obex) (h : Parsing p m s) : wp (do
      modify fun s => s.setRxMsg (bufRemoveBegin s.rxMsg hlen)
      pure false : M Bool) (fun err s' => err = false ∧ Parsing p (bufRemoveBegin m hlen) s') R s := by
    rw [wp_bind, wp_modify]
    exact ⟨rfl, h.removeBegin hlen⟩
  rw [OpenObex.receiveValue, wp_bind, wp_get, h.rxMsg, if_neg (by omega)]
  cases source with
  | none => exact hrest s h
  | some k =>
    have hk : MayRead R m k len := hread k rfl
    have hq (s : Obex) (h : Parsing p m s) : wp (queueElement C p hi k len)
        (fun q s' => q = true ∧ Parsing p m s') R s := by
      obtain ⟨o, ho⟩ := h.alive
      refine wp_queueElement (hr.malloc _) (hr.malloc _) ho (fun _ _ _ _ => ⟨rfl, h.fresh.setObject _⟩)
        fun hn => ?_
      rw [h.rxMsg] at hn
      exact hk.peek_none hn _
    have hh : wp (when (hi = obexHdrLength) (hintBodyLen p m)) (fun _ => Parsing p m) R s :=
      h.hint fun hhi => by
      obtain ⟨rfl, rfl⟩ := hint hhi k rfl
      exact hk
    refine wp_seq (P := fun e s' => e = false ∧ Parsing p m s') (wp_seq hh fun _ s h => ?_) ?_
    · refine wp_seq (hq s h) ?_
      rintro q s ⟨rfl, h⟩
      exact ⟨rfl, h⟩
    · rintro e s ⟨rfl, h⟩
      exact hrest s h

/-- The length of a header and of its value, where they do not stand in the header. -/
def fixedLength (hi : UInt8) : Option (Nat × Nat) :=
  match hiType hi with
  | .byte => some (2, 1)
  | .int => some (5, 4)
  | _ => none

omit hr in
theorem receiveHeader_fixed {hi : UInt8} {hlen len : Nat} (h : Parsing p m s)
    (hhi : m.reach[0]? = some hi) (hf : fixedLength hi = some (hlen, len)) {Q : Bool → Obex → Prop}
    (hv : wp (OpenObex.receiveValue C p hi hlen len (some 1) false) Q R s) :
    wp (receiveHeader C p) Q R s := by
  rw [receiveHeader, wp_bind, wp_get, h.rxMsg]
  refine wp_byteAt_some hhi ?_
  unfold fixedLength at hf
  cases hk : hiType hi with
  | byte =>
    rw [hk] at hf
    cases hf
    exact hv
  | int =>
    rw [hk] at hf
    cases hf
    exact hv
  | unicode =>
    rw [hk] at hf
    cases hf
  | byteStream =>
    rw [hk] at hf
    cases hf

omit hr in
/-- A header with a length field. -/
theorem receiveHeader_sized {hi a b : UInt8} (h : Parsing p m s)
    (hk : hiType hi = .unicode ∨ hiType hi = .byteStream) (hhi : m.reach[0]? = some hi)
    (ha : m.reach[1]? = some a) (hb : m.reach[2]? = some b) {Q : Bool → Obex → Prop}
    (hbody : hi = obexHdrBody ∨ hi = obexHdrBodyEnd →
      wp (OpenObex.receiveBodyHeader C p hi (u32 (ofBe16 a b - 3)) >>= fun err =>
        OpenObex.receiveValue C p hi (ofBe16 a b) (u32 (ofBe16 a b - 3)) none err) Q R s)
    (hvalue : wp (OpenObex.receiveValue C p hi (ofBe16 a b) (u32 (ofBe16 a b - 3)) (some 3) false)
      Q R s ∨ hi = obexHdrBody ∨ hi = obexHdrBodyEnd) :
    wp (receiveHeader C p) Q R s := by
  rw [receiveHeader, wp_bind, wp_get, h.rxMsg]
  refine wp_byteAt_some hhi ?_
  cases hk with
  | inl hk =>
    rw [hk]
    refine wp_byteAt_some ha (wp_byteAt_some hb (hvalue.resolve_right ?_))
    rintro (rfl | rfl)
    · exact absurd hk (by decide)
    · exact absurd hk (by decide)
  | inr hk =>
    rw [hk]
    refine wp_byteAt_some ha (wp_byteAt_some hb ?_)
    dsimp only
    split
    · exact hbody ‹_›
    · exact hvalue.resolve_right ‹_›

/-- A header with a length field whose value is longer than the rest of the packet. -/
theorem receiveHeader_long {hi a b : UInt8} (h : Parsing p m s)
    (hk : hiType hi = .unicode ∨ hiType hi = .byteStream) (hhi : m.reach[0]? = some hi)
    (ha : m.reach[1]? = some a) (hb : m.reach[2]? = some b)
    (hl : m.dataSize < u32 (ofBe16 a b - 3)) :
    wp (receiveHeader C p) (fun err _ => err = true) R s := by
  refine h.receiveHeader_sized hk hhi ha hb (fun _ => ?_) (.inl (h.receiveValue_long hl))
  refine wp_seq (h.receiveBodyHeader hr hi fun hle => absurd hl (by omega)) fun err s h => ?_
  exact h.1.receiveValue_long hl

/-- A header with a length field whose value fits into the rest of the packet. -/
theorem receiveHeader_short {hi a b : UInt8} (h : Parsing p m s)
    (hk : hiType hi = .unicode ∨ hiType hi = .byteStream) (hhi : m.reach[0]? = some hi)
    (ha : m.reach[1]? = some a) (hb : m.reach[2]? = some b)
    (hl : u32 (ofBe16 a b - 3) ≤ m.dataSize) (hread : MayRead R m 3 (u32 (ofBe16 a b - 3))) :
    wp (receiveHeader C p)
      (fun err s' => err = false ∧ Parsing p (bufRemoveBegin m (ofBe16 a b)) s') R s := by
  have hint (hh : hi = obexHdrLength) : False := by
    rw [hh] at hk
    exact absurd hk (by decide)
  refine h.receiveHeader_sized hk hhi ha hb (fun _ => ?_) (.inl ?_)
  · refine wp_seq (h.receiveBodyHeader hr hi fun _ => hread) fun err s h => ?_
    cases err with
    | true => exact absurd (h.2 rfl) (by omega)
    | false => exact h.1.receiveValue hr hl (by simp) fun hh => (hint hh).elim
  · exact h.receiveValue hr hl (by rintro _ ⟨⟩; exact hread) fun hh => (hint hh).elim

omit hr in
/-- A header with a length field that is not even in the allocation. -/
theorem receiveHeader_outside {hi : UInt8} (h : Parsing p m s)
    (hk : hiType hi = .unicode ∨ hiType hi = .byteStream) (hhi : m.reach[0]? = some hi)
    (hl : m.reach.length < 3) {Q : Bool → Obex → Prop} :
    wp (receiveHeader C p) Q (fun _ _ => True) s := by
  have hbytes {α : Type} {f : UInt8 → UInt8 → M α} {Q : α → Obex → Prop} :
      wp (byteAt m 1 >>= fun a => byteAt m 2 >>= f a) Q (fun _ _ => True) s := by
    rw [wp_bind]
    refine wp_byteAt_reach (fun a _ => ?_) fun _ => trivial
    rw [wp_bind]
    refine wp_byteAt_reach (fun b hb => ?_) fun _ => trivial
    rw [List.getElem?_eq_none (by omega)] at hb
    cases hb
  rw [receiveHeader, wp_bind, wp_get, h.rxMsg]
  refine wp_byteAt_some hhi ?_
  cases hk with
  | inl hk =>
    rw [hk]
    exact hbytes
  | inr hk =>
    rw [hk]
    exact hbytes

end Parsing

/-! ## The three ways a header can be -/

/-- A header that does not fit into the rest of the packet, and the receiver sees it: it lacks all
of its value but for three bytes at most, or its length field, read from what follows the packet where
it is not in it, is too small or too large by more than the three bytes of its prefix. -/
inductive Noticed (behind : Bytes) : Bytes → Prop
  | int {hi : UInt8} {t : Bytes} (h : hiType hi = .int) (hl : (hi :: t).length < 4) :
    Noticed behind (hi :: t)
  | sized {hi a b : UInt8} {t v : Bytes} (h : hiType hi = .unicode ∨ hiType hi = .byteStream)
      (hb : t ++ behind = a :: b :: v)
      (hl : ofBe16 a b < 3 ∨ (hi :: t).length + 3 < ofBe16 a b) : Noticed behind (hi :: t)

theorem Noticed.ne_nil {behind rest : Bytes} (h : Noticed behind rest) : rest ≠ [] := by
  cases h <;> simp

theorem Noticed.not_starts {behind rest : Bytes} (h : Noticed behind rest) :
    ¬ Starts Header rest := by
  rintro ⟨u, x, hu, he⟩
  cases h with
  | int h hl =>
    cases hu with
    | byte h' => simp_all
    | int h' =>
      rw [← he] at hl
      simp only [List.length_append, List.length_cons] at hl
      omega
    | sized h' => simp_all
  | sized h hb hl =>
    cases hu with
    | byte h' => simp_all
    | int h' => simp_all
    | sized h' hl' =>
      simp only [List.cons_append, List.cons.injEq] at he
      obtain ⟨rfl, rfl⟩ := he
      simp only [List.cons_append, List.cons.injEq] at hb
      obtain ⟨rfl, rfl, -⟩ := hb
      simp only [List.length_cons, List.length_append] at hl
      omega

section
variable {m : Buf} {s : Obex} (hr : Reader C p) (h : Parsing p m s) (hm : m.dataSize < 65536)
include hr h hm

/-- A complete header is taken. -/
theorem receiveHeader_complete {t w : Bytes} (ht : Header t) (hc : m.contents = t ++ w) :
    wp (receiveHeader C p)
      (fun err s' => err = false ∧ Parsing p (bufRemoveBegin m t.length) s') R s := by
  have hreach : m.reach = t ++ (w ++ m.behind) := by rw [Buf.reach, hc, List.append_assoc]
  have hsize : m.dataSize = t.length + w.length := by rw [← length_contents, hc, List.length_append]
  have hin {off n : Nat} (hle : off + n ≤ t.length) : MayRead R m off n := by
    intro hlt
    rw [hreach, List.length_append] at hlt
    omega
  cases ht with
  | byte hk v =>
    simp only [List.length_cons, List.length_nil] at hsize hin ⊢
    refine h.receiveHeader_fixed (by rw [hreach]; rfl) (by rw [Parsing.fixedLength, hk]) ?_
    refine h.receiveValue hr (by omega) (by rintro _ ⟨⟩; exact hin (by omega)) fun hh => ?_
    rw [hh] at hk
    exact absurd hk (by decide)
  | int hk a b c d =>
    simp only [List.length_cons, List.length_nil] at hsize hin ⊢
    refine h.receiveHeader_fixed (by rw [hreach]; rfl) (by rw [Parsing.fixedLength, hk]) ?_
    exact h.receiveValue hr (by omega) (by rintro _ ⟨⟩; exact hin (by omega))
      fun _ => by rintro _ ⟨⟩; exact ⟨rfl, rfl⟩
  | @sized hi hk a b v hl =>
    have hlen : u32 (ofBe16 a b - 3) = v.length := by
      rw [u32_sub_three (ofBe16_lt a b), if_pos (by omega)]
      omega
    simp only [List.length_cons] at hsize hin ⊢
    rw [← hl]
    exact h.receiveHeader_short hr hk (by rw [hreach]; rfl) (by rw [hreach]; rfl)
      (by rw [hreach]; rfl) (by omega) (hin (by omega))

theorem receiveHeader_noticed (hn : Noticed m.behind m.contents) :
    wp (receiveHeader C p) (fun err _ => err = true) R s := by
  have hsize : m.dataSize = m.contents.length := (length_contents m).symm
  have hreach : m.reach = m.contents ++ m.behind := rfl
  generalize m.contents = rest at *
  cases hn with
  | int hk hl =>
    refine h.receiveHeader_fixed (by rw [hreach]; rfl) (by rw [Parsing.fixedLength, hk]) ?_
    exact h.receiveValue_long (by omega)
  | @sized hi a b t v hk hb hl =>
    rw [List.cons_append, hb] at hreach
    refine h.receiveHeader_long hr hk (by rw [hreach]; rfl) (by rw [hreach]; rfl)
      (by rw [hreach]; rfl) ?_
    have := ofBe16_lt a b
    rw [u32_sub_three this]
    split <;> omega

omit hm in
theorem missed_sized {hi : UInt8} {t : Bytes} (hsize : m.dataSize = t.length + 1)
    (hreach : m.reach = hi :: t ++ m.behind) (hk : hiType hi = .unicode ∨ hiType hi = .byteStream)
    (hs : ¬ Starts Header (hi :: t)) (hn : ¬ Noticed m.behind (hi :: t)) :
    wp (receiveHeader C p)
      (fun err s' => err = false ∧ ∃ m', m'.dataSize = 0 ∧ Parsing p m' s') (fun _ _ => True) s := by
  by_cases hlen : m.reach.length < 3
  · exact h.receiveHeader_outside hk (by rw [hreach]; rfl) hlen
  obtain ⟨a, b, v, hb⟩ : ∃ a b v, t ++ m.behind = a :: b :: v := by
    rw [hreach, List.cons_append, List.length_cons] at hlen
    have h2 : 2 ≤ (t ++ m.behind).length := by omega
    match t ++ m.behind, h2 with
    | a :: b :: v, _ => exact ⟨a, b, v, rfl⟩
  have hL : 3 ≤ ofBe16 a b ∧ ofBe16 a b ≤ t.length + 4 := by
    have : ¬ (ofBe16 a b < 3 ∨ (hi :: t).length + 3 < ofBe16 a b) := fun hl => hn (.sized hk hb hl)
    rw [List.length_cons] at this
    omega
  -- a header that fits would be complete
  have hout : t.length + 1 ≤ ofBe16 a b := by
    by_contra hlt
    match t, hb with
    | [], _ => simp at hlt; omega
    | [_], _ => simp at hlt; omega
    | c :: d :: x, hb =>
      simp only [List.cons_append, List.cons.injEq] at hb
      obtain ⟨rfl, rfl, -⟩ := hb
      simp only [List.length_cons] at hlt hL
      refine hs ⟨hi :: c :: d :: x.take (ofBe16 c d - 3), x.drop (ofBe16 c d - 3), .sized hk ?_, ?_⟩
      · rw [List.length_take]
        omega
      · simp only [List.cons_append, List.take_append_drop]
  have hlen : u32 (ofBe16 a b - 3) ≤ m.dataSize := by
    rw [u32_sub_three (ofBe16_lt a b), if_pos hL.1]
    omega
  rw [List.cons_append, hb] at hreach
  refine wp_conseq (h.receiveHeader_short hr hk (by rw [hreach]; rfl) (by rw [hreach]; rfl)
    (by rw [hreach]; rfl) hlen fun _ _ => trivial) fun err s hs => ⟨hs.1, _, ?_, hs.2⟩
  rw [bufRemoveBegin_dataSize]
  omega

/-- An incomplete header that is not noticed is taken with the rest of the packet, unless the read
of its value leaves the allocation. -/
theorem receiveHeader_missed (hne : m.contents ≠ []) (hs : ¬ Starts Header m.contents)
    (hn : ¬ Noticed m.behind m.contents) :
    wp (receiveHeader C p)
      (fun err s' => err = false ∧ ∃ m', m'.dataSize = 0 ∧ Parsing p m' s') (fun _ _ => True) s := by
  have hsize : m.dataSize = m.contents.length := (length_contents m).symm
  have hreach : m.reach = m.contents ++ m.behind := rfl
  have hall {n : Nat} (hle : m.dataSize ≤ n) : (bufRemoveBegin m n).dataSize = 0 := by
    rw [bufRemoveBegin_dataSize]
    omega
  generalize m.contents = rest at *
  cases rest with
  | nil => exact absurd rfl hne
  | cons hi t =>
    have hread (off n : Nat) : MayRead (fun _ _ => True) m off n := fun _ _ => trivial
    rw [List.length_cons] at hsize
    cases hk : hiType hi with
    | byte =>
      have ht : t = [] := by
        cases t with
        | nil => rfl
        | cons v x => exact absurd ⟨[hi, v], x, .byte hk v, rfl⟩ hs
      refine h.receiveHeader_fixed (by rw [hreach]; rfl) (by rw [Parsing.fixedLength, hk]) ?_
      refine wp_conseq (h.receiveValue hr (by omega) (fun _ _ => hread _ _) fun hh => ?_)
        fun err s hs => ⟨hs.1, _, hall (by rw [hsize, ht]; decide), hs.2⟩
      rw [hh] at hk
      exact absurd hk (by decide)
    | int =>
      have ht : t.length = 3 := by
        have hlt : ¬ (hi :: t).length < 4 := fun hl => hn (.int hk hl)
        rw [List.length_cons] at hlt
        by_contra hne
        have h4 : 4 ≤ t.length := by omega
        match t, h4 with
        | a :: b :: c :: d :: x, _ => exact hs ⟨[hi, a, b, c, d], x, .int hk a b c d, rfl⟩
      refine h.receiveHeader_fixed (by rw [hreach]; rfl) (by rw [Parsing.fixedLength, hk]) ?_
      refine wp_conseq (h.receiveValue hr (by omega) (fun _ _ => hread _ _)
        fun _ => by rintro _ ⟨⟩; exact ⟨rfl, rfl⟩)
        fun err s hs => ⟨hs.1, _, hall (by omega), hs.2⟩
    | unicode => exact missed_sized hr h hsize hreach (.inl hk) hs hn
    | byteStream => exact missed_sized hr h hsize hreach (.inr hk) hs hn

end

/-! ## The loop -/

section
variable {m : Buf} {s : Obex} (hr : Reader C p) (h : Parsing p m s) (hm : m.dataSize < 65536)
include h

theorem receiveHeaders_nil (hc : m.contents = []) (fuel : Nat) {Q : Int → Obex → Prop} (hQ : Q 1 s) :
    wp (receiveHeaders C p fuel) Q R s := by
  have h0 : s.rxMsg.dataSize = 0 := by rw [h.rxMsg, ← length_contents, hc, List.length_nil]
  cases fuel with
  | zero =>
    rw [receiveHeaders, wp_bind, wp_get, if_pos h0]
    exact hQ
  | succ fuel =>
    rw [receiveHeaders, wp_bind, wp_get, if_pos h0]
    exact hQ

theorem receiveHeaders_cons (hc : m.contents ≠ []) {fuel : Nat} (hf : m.dataSize ≤ fuel)
    {Q : Int → Obex → Prop}
    (hw : wp (receiveHeader C p) (fun err s' => (err = true → Q (-1) s') ∧
      (err = false → wp (receiveHeaders C p (fuel - 1)) Q R s')) R s) :
    wp (receiveHeaders C p fuel) Q R s := by
  have h0 : m.dataSize ≠ 0 := by
    rw [← length_contents]
    intro h0
    exact hc (List.eq_nil_of_length_eq_zero h0)
  obtain ⟨k, rfl⟩ : ∃ k, fuel = k + 1 := ⟨fuel - 1, by omega⟩
  rw [receiveHeaders, wp_bind, wp_get, h.rxMsg, if_neg h0]
  refine wp_seq hw fun err s' hs' => ?_
  cases err with
  | true => exact hs'.1 rfl
  | false => exact hs'.2 rfl

include hr hm

/-- The complete headers at the start are taken one after the other; `P` is what a header keeps. -/
theorem receiveHeaders_split {P : Obex → Prop} (hP : Keeps P (fun _ _ => True) (receiveHeader C p))
    (hs : P s) {ts : List Bytes} {rest : Bytes} (hts : ∀ t ∈ ts, Header t)
    (hc : m.contents = ts.flatten ++ rest) {fuel : Nat} (hf : m.dataSize ≤ fuel)
    {Q : Int → Obex → Prop}
    (hrest : ∀ m' s' fuel', Parsing p m' s' → P s' → m'.contents = rest → m'.behind = m.behind →
      m'.dataSize < 65536 → m'.dataSize ≤ fuel' → wp (receiveHeaders C p fuel') Q R s') :
    wp (receiveHeaders C p fuel) Q R s := by
  induction ts generalizing m s fuel with
  | nil => exact hrest m s fuel h hs hc rfl hm hf
  | cons t ts ih =>
    have ht : Header t := hts t List.mem_cons_self
    rw [List.flatten_cons, List.append_assoc] at hc
    refine receiveHeaders_cons h ?_ hf ?_
    · rw [hc]
      intro hn
      exact ht.ne_nil (List.append_eq_nil_iff.1 hn).1
    refine wp_mono (wp_and (receiveHeader_complete hr h hm ht hc) (hP s hs)) ?_ fun _ _ he => he.1
    rintro err s' ⟨⟨rfl, h'⟩, hs'⟩
    refine ⟨by simp, fun _ => ?_⟩
    have hsize := bufRemoveBegin_dataSize m t.length
    have htl : 0 < t.length := List.length_pos_iff.2 ht.ne_nil
    refine ih h' (by omega) hs' (fun u hu => hts u (List.mem_cons_of_mem _ hu)) ?_ (by omega) ?_
    · rw [contents_bufRemoveBegin, hc, List.drop_left]
    · rw [behind_bufRemoveBegin]
      exact hrest

theorem receiveHeaders_complete {ts : List Bytes} (hts : ∀ t ∈ ts, Header t)
    (hc : m.contents = ts.flatten) {fuel : Nat} (hf : m.dataSize ≤ fuel) :
    wp (receiveHeaders C p fuel) (fun r _ => r = 1) R s := by
  refine receiveHeaders_split hr h hm .trivial trivial hts (by rw [hc, List.append_nil]) hf ?_
  intro m' s' fuel' h' _ hc' _ _ _
  exact receiveHeaders_nil h' hc' fuel' rfl

theorem receiveHeaders_noticed {ts : List Bytes} {rest : Bytes} (hts : ∀ t ∈ ts, Header t)
    (hc : m.contents = ts.flatten ++ rest) (hn : Noticed m.behind rest) {fuel : Nat}
    (hf : m.dataSize ≤ fuel) : wp (receiveHeaders C p fuel) (fun r _ => r = -1) R s := by
  refine receiveHeaders_split hr h hm .trivial trivial hts hc hf ?_
  intro m' s' fuel' h' _ hc' hb' hm' hf'
  rw [← hc', ← hb'] at hn
  refine receiveHeaders_cons h' hn.ne_nil hf' ?_
  refine wp_conseq (receiveHeader_noticed hr h' hm' hn) ?_
  rintro err s'' rfl
  exact ⟨fun _ => rfl, by simp⟩

theorem receiveHeaders_missed {ts : List Bytes} {rest : Bytes} (hts : ∀ t ∈ ts, Header t)
    (hc : m.contents = ts.flatten ++ rest) (hne : rest ≠ []) (hs : ¬ Starts Header rest)
    (hn : ¬ Noticed m.behind rest) {fuel : Nat} (hf : m.dataSize ≤ fuel) :
    wp (receiveHeaders C p fuel) (fun r _ => r = 1) (fun _ _ => True) s := by
  refine receiveHeaders_split hr h hm .trivial trivial hts hc hf ?_
  intro m' s' fuel' h' _ hc' hb' hm' hf'
  rw [← hc'] at hne hs
  rw [← hc', ← hb'] at hn
  refine receiveHeaders_cons h' hne hf' ?_
  refine wp_conseq (receiveHeader_missed hr h' hm' hne hs hn) ?_
  rintro err s'' ⟨rfl, m'', h0, h''⟩
  refine ⟨by simp, fun _ => receiveHeaders_nil h'' (contents_eq_nil h0) _ rfl⟩

end

/-! ## The whole packet -/

theorem receiveNonhdr_spec {m : Buf} {s : Obex} {o : ObexObject} (hr : Reader C p)
    (h : Parsing p m s) (ho : s.objects p = some o) (hle : o.headeroffset ≤ m.dataSize) :
    wp (receiveNonhdr C p) (fun ok s' => ok = true ∧ ∃ m', Parsing p m' s' ∧
      m'.contents = m.contents.drop o.headeroffset ∧ m'.behind = m.behind) R s := by
  rw [receiveNonhdr]
  refine h.deref fun o' ho' => ?_
  rw [ho] at ho'
  cases ho'
  split
  · refine ⟨rfl, m, h, ?_, rfl⟩
    rw [‹o.headeroffset = 0›, List.drop_zero]
  rw [bufNew_total hr.malloc]
  dsimp only
  rw [wp_bind, wp_get, h.rxMsg, wp_bind, peek, bufPeek_of_le (by omega), wp_require]
  refine ⟨?_, by simp⟩
  rintro d -
  obtain ⟨b, hb⟩ := bufInsertEnd_total hr.malloc (freshBuf o.headeroffset) d
  rw [hb, wp_bind, wp_require]
  refine ⟨?_, by simp⟩
  rintro _ -
  refine wp_seq (h.update _) fun _ s' hs' => ?_
  rw [wp_bind, wp_modify]
  exact ⟨rfl, _, hs'.removeBegin _, contents_bufRemoveBegin _ _, behind_bufRemoveBegin _ _⟩

/-- What `obex_object_receive` does with a packet is what its loop does with the headers. -/
theorem wp_receive {P : Obex → Prop} (hP : Keeps P (fun _ _ => True) (receiveNonhdr C p)) {s : Obex}
    (hPs : P (s.setRxMsg (bufRemoveBegin s.rxMsg 3))) {o : ObexObject} (hr : Reader C p)
    (hs : s.object = some p) (ho : s.objects p = some o)
    (hlen : 3 + o.headeroffset ≤ s.rxMsg.dataSize) {Q : Int → Obex → Prop}
    (hloop : ∀ m s' fuel, Parsing p m s' → P s' →
      m.contents = s.rxMsg.contents.drop (3 + o.headeroffset) → m.behind = s.rxMsg.behind →
      m.dataSize ≤ s.rxMsg.dataSize → m.dataSize ≤ fuel → wp (receiveHeaders C p fuel) Q R s') :
    wp (obexObjectReceive C) Q R s := by
  have h : Parsing p (bufRemoveBegin s.rxMsg 3) (s.setRxMsg (bufRemoveBegin s.rxMsg 3)) :=
    ⟨hs, ⟨o, ho⟩, rfl⟩
  rw [obexObjectReceive, wp_bind, wp_modify]
  have hle : o.headeroffset ≤ (bufRemoveBegin s.rxMsg 3).dataSize := by
    rw [bufRemoveBegin_dataSize]
    omega
  refine h.selfObject ?_
  rw [wp_bind]
  refine wp_mono (wp_and (receiveNonhdr_spec hr h ho hle) (hP _ hPs)) ?_ fun _ _ he => he.1
  rintro ok s' ⟨⟨rfl, m, hm, hc, hb⟩, hPs'⟩
  rw [if_pos rfl, wp_bind, wp_get, hm.rxMsg]
  have hc : m.contents = s.rxMsg.contents.drop (3 + o.headeroffset) := by
    rw [hc, contents_bufRemoveBegin, List.drop_drop]
  refine hloop m s' _ hm hPs' hc (by rw [hb, behind_bufRemoveBegin]) ?_ (Nat.le_refl _)
  rw [← length_contents m, hc, List.length_drop, length_contents]
  omega

/-- `obex_object_receive` returns, with success exactly for well-formed headers `w`. -/
structure Exact (C : Ctx) (s : Obex) (w : Bytes) : Prop where
  run : wp (obexObjectReceive C) (fun r _ => (0 < r ↔ WellFormed w) ∧ (¬ WellFormed w → r < 0))
    (fun _ _ => False) s

theorem Exact.wellFormed {C : Ctx} {s : Obex} {w : Bytes} (h : Exact C s w)
    (hrun : returnsWith (obexObjectReceive C) s (fun r => decide (r = 1)) = true) :
    WellFormed w := by
  obtain ⟨r, -, hr, hiff, -⟩ := exists_of_returnsWith hrun h.run
  simp only [decide_eq_true_eq] at hr
  exact hiff.1 (by omega)

/-- The headers are well-formed, or the first incomplete one is noticed. -/
def Judged (behind w : Bytes) : Prop :=
  ∃ (ts : List Bytes) (rest : Bytes), (∀ t ∈ ts, Header t) ∧ w = ts.flatten ++ rest ∧
    (rest = [] ∨ Noticed behind rest)

/-- The receiver is exact on the packets it judges by what they hold, and on no others. -/
theorem receive_exact_iff {C : Ctx} {p : Ptr} {s : Obex} {o : ObexObject} (hr : Reader C p)
    (hs : s.object = some p) (ho : s.objects p = some o)
    (hlen : 3 + o.headeroffset ≤ s.rxMsg.dataSize) (hm : s.rxMsg.dataSize < 65536) :
    Exact C s (s.rxMsg.contents.drop (3 + o.headeroffset)) ↔
      Judged s.rxMsg.behind (s.rxMsg.contents.drop (3 + o.headeroffset)) := by
  generalize hw : s.rxMsg.contents.drop (3 + o.headeroffset) = w
  constructor
  · intro hex
    obtain ⟨ts, rest, hts, rfl, hst⟩ := exists_split (fun _ => Header.ne_nil) w
    refine ⟨ts, rest, hts, rfl, ?_⟩
    by_contra hno
    obtain ⟨hne, hn⟩ := not_or.1 hno
    have hwf : ¬ WellFormed (ts.flatten ++ rest) := mt (header_code.concat_split_iff hts hst).1 hne
    have hrun : wp (obexObjectReceive C) (fun r _ => r = 1) (fun _ _ => True) s := by
      refine wp_receive .trivial trivial hr hs ho hlen fun m s' fuel h _ hc hb hle hf => ?_
      rw [hw] at hc
      rw [← hb] at hn
      exact receiveHeaders_missed hr h (by omega) hts hc hne hst hn hf
    have hboth := wp_and hex.run hrun
    unfold wp at hboth
    split at hboth
    · obtain ⟨⟨-, hneg⟩, rfl⟩ := hboth
      exact absurd (hneg hwf) (by decide)
    · exact hboth.1
  · rintro ⟨ts, rest, hts, rfl, hrest⟩
    refine ⟨wp_receive .trivial trivial hr hs ho hlen fun m s' fuel h _ hc hb hle hf => ?_⟩
    rw [hw] at hc
    cases hrest with
    | inl hnil =>
      rw [hnil, List.append_nil] at hc ⊢
      have hwf : WellFormed ts.flatten := ⟨ts, hts, rfl⟩
      refine wp_conseq (receiveHeaders_complete hr h (by omega) hts hc hf) ?_
      rintro r _ rfl
      exact ⟨⟨fun _ => hwf, fun _ => by decide⟩, fun hn => absurd hwf hn⟩
    | inr hn =>
      have hwf : ¬ WellFormed (ts.flatten ++ rest) :=
        mt (header_code.concat_split_iff hts hn.not_starts).1 hn.ne_nil
      rw [← hb] at hn
      refine wp_conseq (receiveHeaders_noticed hr h (by omega) hts hc hn hf) ?_
      rintro r _ rfl
      exact ⟨⟨fun h => absurd h (by decide), fun h => absurd h hwf⟩, fun _ => by decide⟩

/-! ## A header cut short -/

/-- A handle with a packet in `rx_msg` and a new request as its current object. -/
def receiving (d : Bytes) : Obex :=
  { obexInit .custom with
    object := some 0
    objects := fun q => if q = 0 then some zeroObject else none
    rxMsg := (bufInsertEnd (fun _ => true) (freshBuf 1024) d).getD (freshBuf 0) }

theorem receiving_object (d : Bytes) : (receiving d).object = some 0 := rfl

theorem receiving_objects (d : Bytes) : (receiving d).objects 0 = some zeroObject := rfl

theorem quietPeer_reader (p : Ptr) : Reader (quietPeer.ctx .all 1) p := by
  refine ⟨fun _ => rfl, fun m notice s h => ?_⟩
  rw [Env.ctx, wp_bind, wp_get, wp_bind]
  exact h

/-- A PUT whose last byte is the identifier of a one-byte header. -/
abbrev cutPut : Obex := receiving [0x82, 0x00, 0x04, 0x97]

/-- The missing value is read from behind the packet. -/
theorem cut_header_accepted :
    ¬ ∀ (C : Ctx) (p : Ptr) (s : Obex) (o : ObexObject), Reader C p → s.object = some p →
      s.objects p = some o → 3 + o.headeroffset ≤ s.rxMsg.dataSize → s.rxMsg.dataSize < 65536 →
      Exact C s (s.rxMsg.contents.drop (3 + o.headeroffset)) := by
  intro h
  have hrun : returnsWith (obexObjectReceive (quietPeer.ctx .all 1)) cutPut
      (fun r => decide (r = 1)) = true := by
    decide +kernel
  have hw : cutPut.rxMsg.contents.drop (3 + zeroObject.headeroffset) = [0x97] := by
    decide +kernel
  have hlen : 3 + zeroObject.headeroffset ≤ cutPut.rxMsg.dataSize := by decide +kernel
  have hm : cutPut.rxMsg.dataSize < 65536 := by decide +kernel
  have hex := h (quietPeer.ctx .all 1) 0 cutPut zeroObject (quietPeer_reader 0)
    (receiving_object _) (receiving_objects _) hlen hm
  rw [hw] at hex
  obtain ⟨t, x, ht, he⟩ := (hex.wellFormed hrun).starts (by simp)
  have hone := congrArg List.length he
  have htwo := ht.two_le_length
  simp only [List.length_append, List.length_cons, List.length_nil] at hone
  omega

theorem receive_exact_iff_put :
    returnsWith (obexObjectReceive (quietPeer.ctx .all 1)) (receiving [0x82, 0x00, 0x05, 0x97, 0x01])
        (fun r => decide (0 < r)) = true ∧
      (Exact (quietPeer.ctx .all 1) (receiving [0x82, 0x00, 0x05, 0x97, 0x01])
          ((receiving [0x82, 0x00, 0x05, 0x97, 0x01]).rxMsg.contents.drop (3 + 0)) ↔
        Judged (receiving [0x82, 0x00, 0x05, 0x97, 0x01]).rxMsg.behind
          ((receiving [0x82, 0x00, 0x05, 0x97, 0x01]).rxMsg.contents.drop (3 + 0))) :=
  ⟨by decide +kernel, receive_exact_iff (o := zeroObject) (quietPeer_reader 0)
    (receiving_object _) (receiving_objects _) (by decide +kernel) (by decide +kernel)⟩

end OpenObex
