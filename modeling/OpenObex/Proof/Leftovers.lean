import OpenObex.Lib.Twin
import OpenObex.Proof.Parser

/-!
# What lies behind the packet

`rx_msg` is reused, so leftovers of earlier packets lie behind the one being parsed. Two runs of
`obex_object_receive` on the same packet with different leftovers end alike when the packet is made of
complete headers, up to its end or to a header that is refused, or whose value is dropped, without a
look behind the packet (`Contained`); otherwise leftovers are stored or handed to the application, or
decide whether the packet is accepted.
-/

namespace OpenObex

open Mem Prog Tokens

/-! ## Two runs on one packet -/

/-- The same data in allocations of the same size. -/
structure SameData (b c : Buf) : Prop where
  headAvail : b.headAvail = c.headAvail
  dataAvail : b.dataAvail = c.dataAvail
  tailAvail : b.tailAvail = c.tailAvail
  contents : b.contents = c.contents

theorem SameData.dataSize {b c : Buf} (h : SameData b c) : b.dataSize = c.dataSize := by
  rw [← length_contents, h.contents, length_contents]

theorem SameData.length_reach {b c : Buf} (h : SameData b c) : b.reach.length = c.reach.length := by
  have h1 := b.size_eq
  have h2 := c.size_eq
  have h3 := b.data_eq
  have h4 := c.data_eq
  have h5 := h.headAvail
  have h6 := h.dataAvail
  have h7 := h.tailAvail
  have h8 := h.dataSize
  rw [Buf.length_reach, Buf.length_reach]
  omega

theorem SameData.removeBegin {b c : Buf} (h : SameData b c) (n : Nat) :
    SameData (bufRemoveBegin b n) (bufRemoveBegin c n) := by
  obtain ⟨h1, h2, h3⟩ := bufRemoveBegin_avail b n
  obtain ⟨h4, h5, h6⟩ := bufRemoveBegin_avail c n
  refine ⟨?_, ?_, ?_, ?_⟩
  · rw [h1, h4, h.headAvail, h.dataSize]
  · rw [h2, h5, h.dataAvail]
  · rw [h3, h6, h.tailAvail]
  · rw [contents_bufRemoveBegin, contents_bufRemoveBegin, h.contents]

/-- What is read inside the data does not depend on what lies behind. -/
theorem SameData.peek {b c : Buf} (h : SameData b c) {off n : Nat} (hle : off + n ≤ b.dataSize) :
    peek c off n = peek b off n := by
  unfold OpenObex.peek
  rw [bufPeek_of_le hle, bufPeek_of_le (by rw [← h.dataSize]; exact hle), h.contents]

/-- The states of the two runs: all is the same but the packet's buffer. -/
structure Alike (b c : Buf) (s t : Obex) : Prop where
  data : SameData b c
  left : s.rxMsg = b
  right : t = s.setRxMsg c

/-- The callback does not look at the packet, which it cannot reach. -/
def Discreet (C : Ctx) : Prop :=
  ∀ notice b c s t, Alike b c s t →
    Twin (fun _ _ => Alike b c) (fun s t => ∃ b c, Alike b c s t)
      (C.eventcb notice) (C.eventcb notice) s t

/-! ## What is received -/

/-- The data in front of the headers, the values queued and the body collected so far. -/
structure Stored where
  nonhdr : Option Bytes
  headers : List (UInt8 × Option Bytes)
  body : Option Bytes
  deriving DecidableEq, Repr

def ObexObject.stored (o : ObexObject) : Stored :=
  { nonhdr := o.rxNonhdrData.map Buf.contents
    headers := o.rxHeaderq.map fun h => (h.hi, h.buf.map Buf.contents)
    body := o.rxBody.map Buf.contents }

/-- The fragments the application was handed. -/
def fragments (log : List Obs) : List (Option Bytes × Nat) :=
  log.filterMap fun x => match x with
    | .event n => if n.event = .streamavail then n.data else none
    | _ => none

/-- The same is stored and handed out. -/
structure Seen (p : Ptr) (s t : Obex) : Prop where
  stored : (s.objects p).map ObexObject.stored = (t.objects p).map ObexObject.stored
  fragments : fragments s.log = fragments t.log

theorem Alike.seen {b c : Buf} {s t : Obex} (h : Alike b c s t) (p : Ptr) : Seen p s t := by
  obtain ⟨-, -, rfl⟩ := h
  exact ⟨rfl, rfl⟩

/-! ## What happens to the body -/

inductive BodyMode
  | buffered
  | streamed
  | dropped
  deriving DecidableEq, Repr

/-- An aborted request drops its stream. -/
def bodyMode (o : ObexObject) : BodyMode :=
  if o.sSrv then (if o.abort then .dropped else .streamed) else .buffered

theorem RxStep.bodyMode {o o' : ObexObject} (h : RxStep o o') : bodyMode o' = bodyMode o := by
  have h1 := congrArg ObexObject.sSrv (show o'.eraseRx = o.eraseRx from h)
  have h2 := congrArg ObexObject.abort (show o'.eraseRx = o.eraseRx from h)
  have h1 : o'.sSrv = o.sSrv := h1
  have h2 : o'.abort = o.abort := h2
  unfold OpenObex.bodyMode
  rw [h1, h2]

/-- The two runs on the packets `b` and `c`. While nothing is streamed, the application is not
called, so the mode stays. -/
structure Pair (md : BodyMode) (p : Ptr) (b c : Buf) (s t : Obex) : Prop where
  alike : Alike b c s t
  mode : md = .streamed ∨ (s.object = some p ∧ ∀ o, s.objects p = some o → bodyMode o = md)

/-- The same value in such states. -/
def Same {α : Type} (md : BodyMode) (p : Ptr) (b c : Buf) (x y : α) (s t : Obex) : Prop :=
  x = y ∧ Pair md p b c s t

namespace Pair

variable {α β : Type} {C : Ctx} {md : BodyMode} {p : Ptr} {b c : Buf} {s t : Obex}

theorem seen (h : Pair md p b c s t) : Seen p s t := h.alike.seen p

theorem left (h : Pair md p b c s t) : s.rxMsg = b := h.alike.left

theorem right (h : Pair md p b c s t) : t.rxMsg = c := by
  rw [h.alike.right]
  rfl

theorem object (h : Pair md p b c s t) : t.object = s.object := by
  rw [h.alike.right]
  rfl

theorem objects (h : Pair md p b c s t) : t.objects = s.objects := by
  rw [h.alike.right]
  rfl

theorem seq {R : β → β → Obex → Obex → Prop} {E : Obex → Obex → Prop} {m n : M α}
    {f g : α → M β} (hm : Twin (Same md p b c) E m n s t)
    (hf : ∀ a s' t', Pair md p b c s' t' → Twin R E (f a) (g a) s' t') :
    Twin R E (m >>= f) (n >>= g) s t := by
  refine hm.bind ?_
  rintro a _ s' t' ⟨rfl, h⟩
  exact hf a s' t' h

theorem ret (h : Pair md p b c s t) (a : α) :
    Twin (Same md p b c) (Seen p) (pure a : M α) (pure a) s t := Twin.pure ⟨rfl, h⟩

theorem fault (h : Pair md p b c s t) (f : Fault) {R : α → α → Obex → Obex → Prop} :
    Twin R (Seen p) (fault f : M α) (OpenObex.fault f) s t := Twin.throw h.seen

theorem require (h : Pair md p b c s t) (f : Fault) (x : Option α) :
    Twin (Same md p b c) (Seen p) (require f x) (OpenObex.require f x) s t := by
  cases x with
  | none => exact h.fault f
  | some a => exact h.ret a

theorem deref (h : Pair md p b c s t) (q : Ptr) :
    Twin (fun o o' s' t' => o = o' ∧ s.objects q = some o ∧ s' = s ∧ t' = t) (Seen p)
      (deref q) (OpenObex.deref q) s t := by
  refine Twin.get_bind ?_
  rw [h.objects]
  cases s.objects q with
  | none => exact h.fault _
  | some o => exact Twin.pure ⟨rfl, rfl, rfl, rfl⟩

theorem setObject (h : Pair md p b c s t) {q : Ptr} {o o' : ObexObject} (ho : s.objects q = some o)
    (hrx : RxStep o o') : Pair md p b c (s.setObject q (some o')) (t.setObject q (some o')) := by
  refine ⟨⟨h.alike.data, h.alike.left, ?_⟩, ?_⟩
  · rw [h.alike.right]
    rfl
  cases h.mode with
  | inl hm => exact .inl hm
  | inr hm =>
    refine .inr ⟨hm.1, fun x hx => ?_⟩
    by_cases hq : p = q
    · rw [hq, objects_setObject] at hx
      cases hx
      rw [hrx.bodyMode]
      exact hm.2 o (hq ▸ ho)
    · rw [objects_setObject_ne s _ hq] at hx
      exact hm.2 x hx

theorem update (h : Pair md p b c s t) (q : Ptr) {f : ObexObject → ObexObject}
    (hf : ∀ o, RxStep o (f o)) :
    Twin (Same md p b c) (Seen p) (update q f) (OpenObex.update q f) s t := by
  refine (h.deref q).bind ?_
  rintro o _ _ _ ⟨rfl, ho, rfl, rfl⟩
  exact ⟨rfl, h.setObject ho (hf o)⟩

theorem alloc (h : Pair md p b c s t) : Twin (Same md p b c) (Seen p) alloc OpenObex.alloc s t := by
  have hfresh : t.fresh = s.fresh := by
    rw [h.alike.right]
    rfl
  refine Twin.get_bind (Twin.set_bind ?_)
  rw [hfresh]
  refine Twin.pure ⟨rfl, ⟨h.alike.data, h.alike.left, ?_⟩, h.mode⟩
  rw [h.alike.right]
  rfl

theorem byteAt (h : Pair md p b c s t) (off : Nat) :
    Twin (fun x y s' t' => b.reach[off]? = some x ∧ c.reach[off]? = some y ∧ s' = s ∧ t' = t)
      (Seen p) (byteAt b off) (OpenObex.byteAt c off) s t := by
  unfold OpenObex.byteAt peek
  rw [bufPeek_reach, bufPeek_reach, ← h.alike.data.length_reach]
  by_cases hle : off + 1 ≤ b.reach.length
  · rw [if_pos hle, if_pos hle, slice_one (by omega),
      slice_one (by rw [← h.alike.data.length_reach]; omega)]
    exact ⟨List.getElem?_eq_getElem (by omega), List.getElem?_eq_getElem _, rfl, rfl⟩
  · rw [if_neg hle, if_neg hle]
    exact ⟨rfl, h.seen⟩

theorem byteAt_data (h : Pair md p b c s t) {off : Nat} (hlt : off < b.dataSize) {f g : UInt8 → M α}
    {R : α → α → Obex → Obex → Prop}
    (hf : ∀ x, b.contents[off]? = some x → Twin R (Seen p) (f x) (g x) s t) :
    Twin R (Seen p) (OpenObex.byteAt b off >>= f) (OpenObex.byteAt c off >>= g) s t := by
  refine (h.byteAt off).bind ?_
  rintro x y _ _ ⟨hx, hy, rfl, rfl⟩
  have hb : off < b.contents.length := by rwa [length_contents]
  have hc : off < c.contents.length := by rwa [← h.alike.data.contents]
  rw [Buf.reach, List.getElem?_append_left hb] at hx
  rw [Buf.reach, List.getElem?_append_left hc, ← h.alike.data.contents, hx] at hy
  cases hy
  exact hf x hx

/-! ### The parts of the receiver -/

theorem removeBegin (h : Pair md p b c s t) (n : Nat) :
    Pair md p (bufRemoveBegin b n) (bufRemoveBegin c n) (s.setRxMsg (bufRemoveBegin s.rxMsg n))
      (t.setRxMsg (bufRemoveBegin t.rxMsg n)) := by
  refine ⟨⟨h.alike.data.removeBegin n, ?_, ?_⟩, h.mode⟩
  · rw [h.left]
    rfl
  · rw [h.right, h.alike.right]
    rfl

theorem selfObject (h : Pair md p b c s t) :
    Twin (fun q q' s' t' => q = q' ∧ s.object = some q ∧ s' = s ∧ t' = t) (Seen p)
      selfObject OpenObex.selfObject s t := by
  refine Twin.get_bind ?_
  rw [h.object]
  cases s.object with
  | none => exact h.fault _
  | some o => exact Twin.pure ⟨rfl, rfl, rfl, rfl⟩

theorem event (h : Pair .streamed p b c s t) (hC : Discreet C) :
    Twin (Same .streamed p b c) (Seen p) (obexDeliverEvent C .streamavail 0 0 false)
      (obexDeliverEvent C .streamavail 0 0 false) s t := by
  obtain ⟨⟨hd, hl, rfl⟩, -⟩ := h
  have hcall := hC (noticeOf s .streamavail 0 0) b c (s.emit (.event (noticeOf s .streamavail 0 0))) _
    ⟨hd, hl, rfl⟩
  refine Twin.get_bind (Twin.set_bind (Twin.modify_bind ?_))
  refine Twin.bind (S := fun _ _ => Alike b c) ?_ ?_
  · exact hcall.mono (fun _ _ _ _ h => h) fun _ _ ⟨_, _, h⟩ => h.seen p
  · intro _ _ s t h
    exact ⟨rfl, h, .inl rfl⟩

theorem queueElement (h : Pair md p b c s t) (hi : UInt8) {source len : Nat}
    (hle : source + len ≤ b.dataSize) :
    Twin (Same md p b c) (Seen p) (queueElement C p hi source len)
      (OpenObex.queueElement C p hi source len) s t := by
  refine Twin.get_bind ?_
  dsimp only
  rw [h.left, h.right, h.alike.data.peek hle]
  refine Twin.ite (fun _ => ?_) fun _ => h.ret false
  refine seq h.alloc fun a s t h => ?_
  split
  · exact h.ret false
  refine seq (h.require _ _) fun d s t h => ?_
  refine seq (Twin.ite (fun _ => h.ret _) fun _ => h.require _ _) fun b' s t h => ?_
  exact seq (h.update p fun _ => rfl) fun _ s t h => h.ret true

theorem storeRxBody (h : Pair md p b c s t) (hi : UInt8) (body : Buf) :
    Twin (Same md p b c) (Seen p) (storeRxBody C p hi body) (OpenObex.storeRxBody C p hi body) s t := by
  unfold OpenObex.storeRxBody
  refine Twin.ite (fun _ => Twin.ite (fun _ => ?_) fun _ => h.update p fun _ => rfl)
    fun _ => h.update p fun _ => rfl
  exact seq h.alloc fun _ s t h => h.update p fun _ => rfl

/-- A fragment inside the packet, or one that is refused. -/
theorem receiveBody (h : Pair md p b c s t) (hi : UInt8) {len : Nat} (hle : 3 + len ≤ b.dataSize) :
    Twin (Same md p b c) (Seen p) (obexObjectReceiveBody C p hi len)
      (obexObjectReceiveBody C p hi len) s t := by
  refine Twin.get_bind ?_
  rw [h.left, h.right, ← h.alike.data.dataSize, h.alike.data.peek hle]
  refine Twin.ite (fun _ => h.ret _) fun _ => ?_
  refine (h.deref p).bind ?_
  rintro o _ _ _ ⟨rfl, -, rfl, rfl⟩
  cases rxBodyBuf C o len with
  | none => exact h.ret _
  | some body =>
    refine seq (h.update p fun _ => rfl) fun _ s t h => ?_
    cases growRxBody C body len with
    | none => exact h.ret _
    | some body =>
      refine seq (h.require _ _) fun d s t h => ?_
      refine seq (h.require _ _) fun body s t h => ?_
      exact seq (h.storeRxBody hi body) fun _ s t h => h.ret _

/-- A fragment inside the packet. -/
theorem receiveStream (h : Pair md p b c s t) (hC : Discreet C) (hi : UInt8) {len : Nat}
    (hle : 3 + len ≤ b.dataSize) (hmd : md ≠ .buffered) :
    Twin (Same md p b c) (Seen p) (obexObjectReceiveStream C hi len)
      (obexObjectReceiveStream C hi len) s t := by
  refine h.selfObject.bind ?_
  rintro q _ s t ⟨rfl, hq, rfl, rfl⟩
  refine Twin.ite (fun _ => h.ret _) fun _ => Twin.get_bind ?_
  have hsource : slice t.rxMsg.buffer (t.rxMsg.data + 3) len =
      slice s.rxMsg.buffer (s.rxMsg.data + 3) len := by
    rw [h.left, h.right, slice_data hle, slice_data (by rw [← h.alike.data.dataSize]; exact hle),
      h.alike.data.contents]
  rw [hsource]
  have hcur : md = .streamed ∨ q = p := by
    cases h.mode with
    | inl hm => exact .inl hm
    | inr hm => exact .inr (by rw [hm.1] at hq; cases hq; rfl)
  refine seq (h.update q fun _ => rfl) fun _ s t h => (h.deref q).bind ?_
  rintro o _ _ _ ⟨rfl, ho, rfl, rfl⟩
  refine Twin.ite (fun _ => h.ret _) fun ha => ?_
  -- the stream of an aborted request ends here
  have hmd : md = .streamed := by
    cases hcur with
    | inl hm => exact hm
    | inr hqp =>
      cases h.mode with
      | inl hm => exact hm
      | inr hm =>
        have ho := hm.2 o (hqp ▸ ho)
        unfold bodyMode at ho
        rw [if_neg ha] at ho
        split at ho
        · exact ho.symm
        · exact absurd ho.symm hmd
  subst hmd
  refine seq (h.event hC) fun _ s t h => Twin.ite (fun _ => ?_) fun _ => h.ret _
  exact seq (h.update q fun _ => rfl) fun _ s t h => h.event hC

theorem deref_mode (h : Pair md p b c s t) :
    Twin (fun o o' s' t' => o = o' ∧ (md = .streamed ∨ bodyMode o = md) ∧ s' = s ∧ t' = t) (Seen p)
      (OpenObex.deref p) (OpenObex.deref p) s t := by
  refine (h.deref p).mono ?_ fun _ _ h => h
  rintro o _ _ _ ⟨rfl, ho, hs, ht⟩
  refine ⟨rfl, ?_, hs, ht⟩
  cases h.mode with
  | inl hm => exact .inl hm
  | inr hm => exact .inr (hm.2 o ho)

theorem receiveBodyHeader (h : Pair md p b c s t) (hC : Discreet C) (hi : UInt8) {len : Nat}
    (hle : 3 + len ≤ b.dataSize) :
    Twin (Same md p b c) (Seen p) (receiveBodyHeader C p hi len)
      (OpenObex.receiveBodyHeader C p hi len) s t := by
  refine h.deref_mode.bind ?_
  rintro o _ s t ⟨rfl, hmd, rfl, rfl⟩
  refine Twin.ite (fun hsrv => ?_) fun _ => ?_
  · refine seq (h.receiveStream hC hi hle ?_) fun _ s t h => h.ret _
    rintro rfl
    unfold bodyMode at hmd
    rw [if_pos hsrv] at hmd
    split at hmd <;> simp at hmd
  · exact seq (h.receiveBody hi hle) fun _ s t h => h.ret _

/-- The error flag of a round; without an error the header has been removed. -/
def Round (md : BodyMode) (p : Ptr) (b c : Buf) (n : Nat) (x y : Bool) (s t : Obex) : Prop :=
  x = y ∧ Seen p s t ∧ (x = false → Pair md p (bufRemoveBegin b n) (bufRemoveBegin c n) s t)

theorem receiveValue (h : Pair md p b c s t) {hi : UInt8} {hlen len : Nat} {source : Option Nat}
    {err : Bool} (hsource : ∀ k, source = some k → k + len ≤ b.dataSize)
    (hint : hi = obexHdrLength → 5 ≤ b.dataSize) :
    Twin (Round md p b c hlen) (Seen p) (receiveValue C p hi hlen len source err)
      (OpenObex.receiveValue C p hi hlen len source err) s t := by
  refine Twin.get_bind ?_
  rw [h.left, h.right, ← h.alike.data.dataSize]
  refine Twin.ite (fun _ => Twin.pure ⟨rfl, h.seen, by simp⟩) fun _ => ?_
  refine Twin.bind (S := Same md p b c) ?_ ?_
  · cases source with
    | none => exact h.ret _
    | some k =>
      refine seq (Twin.ite (fun hhi => ?_) fun _ => h.ret _) fun _ s t h => ?_
      · have h5 := hint hhi
        refine h.byteAt_data (by omega) fun _ _ => h.byteAt_data (by omega) fun _ _ => ?_
        refine h.byteAt_data (by omega) fun _ _ => h.byteAt_data (by omega) fun _ _ => ?_
        exact h.update p fun o => rxStep_hintedBodyLen o _
      · exact seq (h.queueElement hi (hsource k rfl)) fun _ s t h => h.ret _
  · rintro err _ s t ⟨rfl, h⟩
    refine Twin.ite (fun _ => Twin.pure ⟨rfl, h.seen, by simp⟩) fun _ => Twin.modify_bind ?_
    have hrm := h.removeBegin hlen
    exact Twin.pure ⟨rfl, hrm.seen, fun _ => hrm⟩

/-- A complete header. -/
theorem receiveHeader (h : Pair md p b c s t) (hC : Discreet C) {u w : Bytes} (hu : Header u)
    (hb : b.contents = u ++ w) :
    Twin (Round md p b c u.length) (Seen p) (receiveHeader C p) (OpenObex.receiveHeader C p) s t := by
  have hsize : b.dataSize = u.length + w.length := by
    rw [← length_contents, hb, List.length_append]
  refine Twin.get_bind ?_
  rw [h.left, h.right]
  cases hu with
  | byte hk v =>
    simp only [List.length_cons, List.length_nil] at hsize ⊢
    refine h.byteAt_data (by omega) fun x hx => ?_
    rw [hb] at hx
    cases hx
    rw [hk]
    refine h.receiveValue (by rintro _ ⟨⟩; omega) fun hh => ?_
    rw [hh] at hk
    exact absurd hk (by decide)
  | int hk a b c d =>
    simp only [List.length_cons, List.length_nil] at hsize ⊢
    refine h.byteAt_data (by omega) fun x hx => ?_
    rw [hb] at hx
    cases hx
    rw [hk]
    exact h.receiveValue (by rintro _ ⟨⟩; omega) fun _ => by omega
  | @sized hi hk a e v hl =>
    -- the length field is that of the value, which lies inside the packet: both runs read the same
    -- bytes
    have hlen : u32 (ofBe16 a e - 3) = v.length := by
      rw [u32_sub_three (ofBe16_lt a e), if_pos (by omega)]
      omega
    have hint (hh : hi = obexHdrLength) : False := by
      rw [hh] at hk
      exact absurd hk (by decide)
    simp only [List.length_cons] at hsize ⊢
    refine h.byteAt_data (by omega) fun x hx => ?_
    rw [hb] at hx
    cases hx
    have hbytes {f : UInt8 → UInt8 → M Bool} {R : Bool → Bool → Obex → Obex → Prop}
        (hf : Twin R (Seen p) (f a e) (f a e) s t) : Twin R (Seen p)
          (OpenObex.byteAt b 1 >>= fun x => OpenObex.byteAt b 2 >>= f x)
          (OpenObex.byteAt c 1 >>= fun x => OpenObex.byteAt c 2 >>= f x) s t := by
      refine h.byteAt_data (by omega) fun x hx => h.byteAt_data (by omega) fun y hy => ?_
      rw [hb] at hx hy
      cases hx
      cases hy
      exact hf
    cases hk with
    | inl hk =>
      rw [hk]
      refine hbytes ?_
      rw [hlen, hl]
      exact h.receiveValue (by rintro _ ⟨⟩; omega) fun hh => (hint hh).elim
    | inr hk =>
      rw [hk]
      refine hbytes ?_
      rw [hlen, hl]
      refine Twin.ite (fun _ => ?_) fun _ => ?_
      · refine seq (h.receiveBodyHeader hC hi (by omega)) fun err s t h => ?_
        exact h.receiveValue (by simp) fun hh => (hint hh).elim
      · exact h.receiveValue (by rintro _ ⟨⟩; omega) fun hh => (hint hh).elim

end Pair

/-! ## Headers that end a packet early -/

/-- The header at the start is part of the body. -/
def StartsBody (rest : Bytes) : Prop :=
  ∃ hi t, rest = hi :: t ∧ (hi = obexHdrBody ∨ hi = obexHdrBodyEnd)

/-- An incomplete header handled without a look behind the packet: it is refused whatever lies there,
and not handed out before; or it is the body of an aborted request, with its length field. -/
inductive Closed (md : BodyMode) : Bytes → Prop
  | refused {rest : Bytes} (h : ∀ behind : Bytes, 2 ≤ behind.length → Noticed behind rest)
      (hb : md = .streamed → ¬ StartsBody rest) : Closed md rest
  | dropped {hi a b : UInt8} {v : Bytes} (hm : md = .dropped)
    (h : hi = obexHdrBody ∨ hi = obexHdrBodyEnd)
      (hl : ofBe16 a b < 3 ∨ (hi :: a :: b :: v).length < ofBe16 a b) : Closed md (hi :: a :: b :: v)

/-- The headers are complete, up to the end or to an incomplete one that needs no look behind. -/
def Contained (md : BodyMode) (w : Bytes) : Prop :=
  ∃ (ts : List Bytes) (rest : Bytes), (∀ t ∈ ts, Header t) ∧ w = ts.flatten ++ rest ∧
    (rest = [] ∨ Closed md rest)

theorem refused_length {m : Buf} {hi x y : UInt8} {t : Bytes} (hc : m.contents = hi :: t)
    (hk : hiType hi = .unicode ∨ hiType hi = .byteStream)
    (h : ∀ behind : Bytes, 2 ≤ behind.length → Noticed behind (hi :: t))
    (hx : m.reach[1]? = some x) (hy : m.reach[2]? = some y) :
    ofBe16 x y < 3 ∨ m.dataSize + 3 < ofBe16 x y := by
  have hn := h (m.behind ++ [0, 0]) (by simp)
  have hreach : m.reach ++ [0, 0] = hi :: (t ++ (m.behind ++ [0, 0])) := by
    rw [Buf.reach, hc, List.append_assoc, List.cons_append]
  have hx : (m.reach ++ [0, 0])[1]? = some x := by
    rw [List.getElem?_append_left (List.getElem?_eq_some_iff.1 hx).1]
    exact hx
  have hy : (m.reach ++ [0, 0])[2]? = some y := by
    rw [List.getElem?_append_left (List.getElem?_eq_some_iff.1 hy).1]
    exact hy
  rw [← length_contents, hc]
  cases hn with
  | int h => simp_all
  | sized h hb hl =>
    rw [hreach, hb] at hx hy
    cases hx
    cases hy
    exact hl

namespace Pair

variable {C : Ctx} {md : BodyMode} {p : Ptr} {b c : Buf} {s t : Obex}

/-- How the last header leaves the two runs. -/
def Last (p : Ptr) (x y : Bool) (s t : Obex) : Prop :=
  x = y ∧ Seen p s t ∧ (x = false → s.rxMsg.dataSize = 0 ∧ t.rxMsg.dataSize = 0)

theorem receiveValue_long (hd : SameData b c) (hb : s.rxMsg = b) (hc : t.rxMsg = c) (hs : Seen p s t)
    {hi : UInt8} {hlen hlen' len len' : Nat} {source : Option Nat} {err err' : Bool}
    (hl : b.dataSize < len) (hl' : b.dataSize < len') :
    Twin (Last p) (Seen p) (OpenObex.receiveValue C p hi hlen len source err)
      (OpenObex.receiveValue C p hi hlen' len' source err') s t := by
  refine Twin.get_bind ?_
  rw [hb, hc, if_pos hl, if_pos (by rw [← hd.dataSize]; exact hl')]
  exact Twin.pure ⟨rfl, hs, by simp⟩

/-- The value of a body header that claims more than there is. -/
theorem receiveValue_rest (hd : SameData b c) (hb : s.rxMsg = b) (hc : t.rxMsg = c) (hs : Seen p s t)
    {hi : UInt8} {hlen len : Nat} (hl : b.dataSize ≤ hlen) :
    Twin (Last p) (Seen p) (OpenObex.receiveValue C p hi hlen len none false)
      (OpenObex.receiveValue C p hi hlen len none false) s t := by
  refine Twin.get_bind ?_
  rw [hb, hc, ← hd.dataSize]
  refine Twin.ite (fun _ => Twin.pure ⟨rfl, hs, by simp⟩) fun _ => ?_
  refine Twin.bind (S := fun e e' s' t' => e = false ∧ e' = false ∧ s' = s ∧ t' = t)
    (Twin.pure ⟨rfl, rfl, rfl, rfl⟩) ?_
  rintro _ _ _ _ ⟨rfl, rfl, rfl, rfl⟩
  refine Twin.modify_bind (Twin.pure ⟨rfl, ⟨hs.stored, hs.fragments⟩, fun _ => ⟨?_, ?_⟩⟩)
  · simp only [Obex.setRxMsg, hb, bufRemoveBegin_dataSize]
    omega
  · have := hd.dataSize
    simp only [Obex.setRxMsg, hc, bufRemoveBegin_dataSize]
    omega

/-- Nothing is stored or handed out. -/
structure Unseen (p : Ptr) (s s' : Obex) : Prop where
  stored : (s'.objects p).map ObexObject.stored = (s.objects p).map ObexObject.stored
  log : s'.log = s.log
  rxMsg : s'.rxMsg = s.rxMsg

theorem wp_receiveStream_aborted {o : ObexObject} {hi : UInt8} {len : Nat} (hp : s.object = some p)
    (ho : s.objects p = some o) (ha : o.abort = true) :
    wp (obexObjectReceiveStream C hi len) (fun _ => Unseen p s) (fun _ _ => False) s := by
  rw [obexObjectReceiveStream, wp_bind, wp_selfObject, hp]
  refine ⟨?_, by simp⟩
  rintro _ ⟨⟩
  split
  · exact ⟨rfl, rfl, rfl⟩
  rw [wp_bind, wp_get, wp_bind, wp_update, ho]
  refine ⟨?_, by simp⟩
  rintro _ ⟨⟩
  rw [wp_bind, wp_deref, objects_setObject]
  refine ⟨?_, by simp⟩
  rintro _ ⟨⟩
  rw [if_pos ha]
  refine ⟨?_, rfl, rfl⟩
  rw [objects_setObject, ho]
  rfl

/-- A fragment of the body that is not stored. -/
theorem receiveBodyHeader_closed (h : Pair md p b c s t) (hmd : md ≠ .streamed) {hi : UInt8}
    {len len' : Nat}
    (hl : md = .buffered → b.dataSize < len ∧ b.dataSize < len') :
    Twin (fun x y s' t' => x = y ∧ (md = .dropped → x = false) ∧ Seen p s' t' ∧ s'.rxMsg = b ∧
        t'.rxMsg = c) (Seen p)
      (OpenObex.receiveBodyHeader C p hi len) (OpenObex.receiveBodyHeader C p hi len') s t := by
  have hcur : s.object = some p ∧ ∀ o, s.objects p = some o → bodyMode o = md :=
    h.mode.resolve_left hmd
  refine (h.deref p).bind ?_
  rintro o _ s t ⟨rfl, ho, rfl, rfl⟩
  have hmode : bodyMode o = md := hcur.2 o ho
  have hseen := h.seen
  unfold bodyMode at hmode
  by_cases hsrv : o.sSrv = true
  · rw [if_pos hsrv] at hmode
    have ha : o.abort = true := by
      by_contra ha
      rw [if_neg ha] at hmode
      exact hmd hmode.symm
    rw [if_pos hsrv, if_pos hsrv]
    refine Twin.bind (Twin.of_wp (wp_receiveStream_aborted hcur.1 ho ha)
      (wp_receiveStream_aborted (by rw [h.object]; exact hcur.1) (by rw [h.objects]; exact ho) ha)
      fun _ _ _ _ => And.intro) ?_
    rintro _ _ s' t' ⟨hs, ht⟩
    refine Twin.pure ⟨rfl, fun _ => rfl, ⟨?_, ?_⟩, ?_, ?_⟩
    · rw [hs.stored, ht.stored]
      exact hseen.stored
    · rw [hs.log, ht.log]
      exact hseen.fragments
    · rw [hs.rxMsg]
      exact h.left
    · rw [ht.rxMsg]
      exact h.right
  · rw [if_neg hsrv] at hmode
    have hl := hl hmode.symm
    rw [if_neg hsrv, if_neg hsrv]
    refine Twin.bind (S := fun x y s' t' => x = -1 ∧ y = -1 ∧ s' = s ∧ t' = t) ?_ ?_
    · refine Twin.get_bind ?_
      rw [h.left, h.right, if_pos hl.1, if_pos (by rw [← h.alike.data.dataSize]; exact hl.2)]
      exact Twin.pure ⟨rfl, rfl, rfl, rfl⟩
    · rintro _ _ s t ⟨rfl, rfl, rfl, rfl⟩
      refine Twin.pure ⟨rfl, fun hd => ?_, hseen, h.left, h.right⟩
      rw [hd] at hmode
      cases hmode

theorem receiveHeader_closed (h : Pair md p b c s t) (hm : b.dataSize < 65536)
    (hcl : Closed md b.contents) :
    Twin (Last p) (Seen p) (OpenObex.receiveHeader C p) (OpenObex.receiveHeader C p) s t := by
  have hsize : b.dataSize = b.contents.length := (length_contents b).symm
  have hlong {x y : UInt8} (hl : ofBe16 x y < 3 ∨ b.dataSize + 3 < ofBe16 x y) :
      b.dataSize < u32 (ofBe16 x y - 3) := by
    rw [u32_sub_three (ofBe16_lt x y)]
    have := ofBe16_lt x y
    split <;> omega
  refine Twin.get_bind ?_
  rw [h.left, h.right]
  generalize hw : b.contents = w at hcl hsize
  cases hcl with
  | @refused rest href hbody =>
    cases href [0, 0] (by simp) with
    | @int hi v hk hl =>
      refine h.byteAt_data (by rw [hsize, List.length_cons]; omega) fun x hx => ?_
      rw [hw] at hx
      cases hx
      rw [hk]
      exact receiveValue_long h.alike.data h.left h.right h.seen (by omega) (by omega)
    | @sized hi _ _ v _ hk _ _ =>
      refine h.byteAt_data (by rw [hsize, List.length_cons]; omega) fun x hx => ?_
      rw [hw] at hx
      cases hx
      have hc : c.contents = hi :: v := by rw [← h.alike.data.contents, hw]
      -- the two runs may read different lengths
      have hbytes {f g : UInt8 → UInt8 → M Bool}
          (hf : ∀ x y x' y', b.dataSize < u32 (ofBe16 x y - 3) → b.dataSize < u32 (ofBe16 x' y' - 3) →
            Twin (Last p) (Seen p) (f x y) (g x' y') s t) : Twin (Last p) (Seen p)
            (OpenObex.byteAt b 1 >>= fun x => OpenObex.byteAt b 2 >>= f x)
            (OpenObex.byteAt c 1 >>= fun x => OpenObex.byteAt c 2 >>= g x) s t := by
        refine (h.byteAt 1).bind ?_
        rintro x x' s t ⟨hx, hx', rfl, rfl⟩
        refine (h.byteAt 2).bind ?_
        rintro y y' s t ⟨hy, hy', rfl, rfl⟩
        have hl' := refused_length hc hk href hx' hy'
        rw [← h.alike.data.dataSize] at hl'
        exact hf x y x' y' (hlong (refused_length hw hk href hx hy)) (hlong hl')
      cases hk with
      | inl hk =>
        rw [hk]
        exact hbytes fun x y x' y' hl hl' =>
          receiveValue_long h.alike.data h.left h.right h.seen hl hl'
      | inr hk =>
        rw [hk]
        refine hbytes fun x y x' y' hl hl' => Twin.ite (fun hh => ?_) fun _ =>
          receiveValue_long h.alike.data h.left h.right h.seen hl hl'
        refine (h.receiveBodyHeader_closed (fun hmd => hbody hmd ⟨hi, v, rfl, hh⟩)
          fun _ => ⟨hl, hl'⟩).bind ?_
        rintro _ _ s t ⟨rfl, -, hs, hb, hc⟩
        exact receiveValue_long h.alike.data hb hc hs hl hl'
  | @dropped hi x y v hmd hh hl =>
    simp only [List.length_cons] at hsize hl
    refine h.byteAt_data (by omega) fun z hz => ?_
    rw [hw] at hz
    cases hz
    have hk : hiType hi = .byteStream := by
      rcases hh with rfl | rfl <;> decide
    rw [hk]
    refine h.byteAt_data (by omega) fun z hz => ?_
    rw [hw] at hz
    cases hz
    refine h.byteAt_data (by omega) fun z hz => ?_
    rw [hw] at hz
    cases hz
    dsimp only
    rw [if_pos hh]
    refine (h.receiveBodyHeader_closed (by rw [hmd]; simp) (by rw [hmd]; simp)).bind ?_
    rintro e _ s t ⟨rfl, he, hs, hb, hc⟩
    rw [he hmd]
    cases hl with
    | inl hl => exact receiveValue_long h.alike.data hb hc hs (hlong (.inl hl)) (hlong (.inl hl))
    | inr hl => exact receiveValue_rest h.alike.data hb hc hs (by omega)

/-! ### The whole packet -/

/-- The same result, and the same received. -/
def Result (p : Ptr) (x y : Int) (s t : Obex) : Prop := x = y ∧ Seen p s t

theorem receiveHeaders_nil {fuel fuel' : Nat} (hs : Seen p s t) (h0 : s.rxMsg.dataSize = 0)
    (h0' : t.rxMsg.dataSize = 0) :
    Twin (Result p) (Seen p) (receiveHeaders C p fuel) (receiveHeaders C p fuel') s t := by
  have hnil {s : Obex} (h0 : s.rxMsg.dataSize = 0) (fuel : Nat) :
      receiveHeaders C p fuel s = .ok 1 s := by
    cases fuel with
    | zero =>
      show (if s.rxMsg.dataSize = 0 then pure 1 else throw .timeout : M Int) s = _
      rw [if_pos h0]
      rfl
    | succ fuel =>
      show (if s.rxMsg.dataSize = 0 then pure 1 else _ : M Int) s = _
      rw [if_pos h0]
      rfl
  unfold Twin
  rw [hnil h0, hnil h0']
  exact ⟨rfl, hs⟩

theorem receiveHeaders (hC : Discreet C) (h : Pair md p b c s t) (hm : b.dataSize < 65536)
    {ts : List Bytes} {rest : Bytes} (hts : ∀ u ∈ ts, Header u)
    (hb : b.contents = ts.flatten ++ rest) (hrest : rest = [] ∨ Closed md rest) (fuel : Nat) :
    Twin (Result p) (Seen p) (receiveHeaders C p fuel) (OpenObex.receiveHeaders C p fuel) s t := by
  induction fuel generalizing b c s t ts with
  | zero =>
    refine Twin.get_bind ?_
    rw [h.left, h.right, ← h.alike.data.dataSize]
    exact Twin.ite (fun _ => Twin.pure ⟨rfl, h.seen⟩) fun _ => Twin.throw h.seen
  | succ fuel ih =>
    refine Twin.get_bind ?_
    rw [h.left, h.right, ← h.alike.data.dataSize]
    refine Twin.ite (fun _ => Twin.pure ⟨rfl, h.seen⟩) fun h0 => ?_
    cases ts with
    | nil =>
      rw [List.flatten_nil, List.nil_append] at hb
      cases hrest with
      | inl hnil =>
        rw [hnil] at hb
        rw [← length_contents, hb] at h0
        exact absurd rfl h0
      | inr hcl =>
        rw [← hb] at hcl
        refine (h.receiveHeader_closed hm hcl).bind ?_
        rintro e _ s t ⟨rfl, hs, hnil⟩
        cases e with
        | true => exact Twin.pure ⟨rfl, hs⟩
        | false => exact receiveHeaders_nil hs (hnil rfl).1 (hnil rfl).2
    | cons u ts =>
      rw [List.flatten_cons, List.append_assoc] at hb
      refine (h.receiveHeader hC (hts u List.mem_cons_self) hb).bind ?_
      rintro e _ s t ⟨rfl, hs, hnext⟩
      cases e with
      | true => exact Twin.pure ⟨rfl, hs⟩
      | false =>
        refine ih (hnext rfl) ?_ (fun v hv => hts v (List.mem_cons_of_mem _ hv)) ?_
        · rw [bufRemoveBegin_dataSize]
          omega
        · rw [contents_bufRemoveBegin, hb, List.drop_left]

theorem receive (hC : Discreet C) (h : Pair md p b c s t) (hm : b.dataSize < 65536)
    (hp : s.object = some p) {o : ObexObject} (ho : s.objects p = some o)
    (hlen : 3 + o.headeroffset ≤ b.dataSize)
    (hw : Contained md (b.contents.drop (3 + o.headeroffset))) :
    Twin (Result p) (Seen p) (obexObjectReceive C) (obexObjectReceive C) s t := by
  obtain ⟨ts, rest, hts, hb, hrest⟩ := hw
  refine Twin.modify_bind ?_
  have hsize := bufRemoveBegin_dataSize b 3
  have hcont := contents_bufRemoveBegin b 3
  replace h := h.removeBegin 3
  have ho : (s.setRxMsg (bufRemoveBegin s.rxMsg 3)).objects p = some o := ho
  have hp : (s.setRxMsg (bufRemoveBegin s.rxMsg 3)).object = some p := hp
  generalize s.setRxMsg (bufRemoveBegin s.rxMsg 3) = s at *
  generalize t.setRxMsg (bufRemoveBegin t.rxMsg 3) = t at *
  generalize bufRemoveBegin b 3 = b₁ at *
  generalize bufRemoveBegin c 3 = c₁ at *
  refine h.selfObject.bind ?_
  rintro q _ s t ⟨rfl, hq, rfl, rfl⟩
  obtain rfl : q = p := by
    rw [hp] at hq
    cases hq
    rfl
  refine Twin.bind (S := fun x y s' t' => x = y ∧ Seen q s' t' ∧ (x = true → ∃ b' c',
    Pair md q b' c' s' t' ∧ b'.dataSize ≤ b₁.dataSize ∧
      b'.contents = b₁.contents.drop o.headeroffset)) ?_ ?_
  · refine (h.deref q).bind ?_
    rintro o' _ s t ⟨rfl, ho', rfl, rfl⟩
    obtain rfl : o' = o := by
      rw [ho] at ho'
      cases ho'
      rfl
    refine Twin.ite (fun h0 => ?_) fun _ => ?_
    · refine Twin.pure ⟨rfl, h.seen, fun _ => ⟨b₁, c₁, h, Nat.le_refl _, ?_⟩⟩
      rw [h0, List.drop_zero]
    cases bufNew C.malloc o'.headeroffset with
    | none => exact seq (h.update q fun _ => rfl) fun _ s t h => Twin.pure ⟨rfl, h.seen, by simp⟩
    | some n =>
      refine Twin.get_bind ?_
      rw [h.left, h.right, h.alike.data.peek (by omega)]
      refine seq (h.require _ _) fun d s t h => seq (h.require _ _) fun n s t h => ?_
      refine seq (h.update q fun _ => rfl) fun _ s t h => Twin.modify_bind ?_
      have hrm := h.removeBegin o'.headeroffset
      refine Twin.pure ⟨rfl, hrm.seen, fun _ => ⟨_, _, hrm, ?_, contents_bufRemoveBegin _ _⟩⟩
      rw [bufRemoveBegin_dataSize]
      omega
  · rintro ok _ s t ⟨rfl, hs, hok⟩
    cases ok with
    | false => exact Twin.pure ⟨rfl, hs⟩
    | true =>
      obtain ⟨b', c', h, hle, hc'⟩ := hok rfl
      refine Twin.get_bind ?_
      rw [h.left, h.right, ← h.alike.data.dataSize]
      refine h.receiveHeaders hC (by omega) hts ?_ hrest _
      rw [hc', hcont, List.drop_drop, hb]

end Pair

end OpenObex
