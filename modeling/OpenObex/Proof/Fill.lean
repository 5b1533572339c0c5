import OpenObex.Proof.Events

/-!
# Filling a packet

What `obex_object_send` puts into a packet depends only on the queue, the space and the MTU as long as
no header is a stream: `fill` computes it, the headers that remain in the queue and whether one of
those sent suspends the object. `wp_send_fill` says that the library does the same.
-/

namespace OpenObex

open Mem Prog

/-- What is still to be sent of a body. -/
def HeaderElement.bodyBuf (h : HeaderElement) : Option Buf :=
  h.buf.map fun b => if h.bodyTouched then b else bufRemoveBegin b 3

/-- One header put into the packet. -/
structure FillStep where
  bytes : Bytes
  queue : List HeaderElement
  txLeft : Nat
  addmore : Bool

/-- A body goes on with its next bytes, or ends. -/
def fillBody (h : HeaderElement) (b : Buf) (queue : List HeaderElement) (txLeft : Nat) :
    Option FillStep :=
  if txLeft < b.dataSize + 3 then
    (bufPeek b 0 (sizeT (txLeft - 3))).map fun d => {
      bytes := (obexHdrBody :: be16 (u16 txLeft)) ++ d
      queue := queue.map fun e => if addr e = addr h then
        { h with buf := some (bufRemoveBegin b (sizeT (txLeft - 3))), bodyTouched := true } else e
      txLeft := u16 (txLeft - txLeft), addmore := true }
  else some {
    bytes := (obexHdrBodyEnd :: be16 (u16 (b.dataSize + 3))) ++ b.contents
    queue := slistRemove queue h, txLeft := u16 (txLeft - b.dataSize), addmore := true }

/-- `none` if the header is too long for the peer, or the code reads outside the header's buffer. -/
def fillHeader (mtuTx : Nat) (h : HeaderElement) (queue : List HeaderElement) (txLeft : Nat) :
    Option FillStep :=
  if h.hi = obexHdrBody then h.bodyBuf.bind fun b => fillBody h b queue txLeft
  else if h.hi = obexHdrEmpty then
    some { bytes := [], queue := slistRemove queue h, txLeft, addmore := true }
  else if h.length ≤ txLeft then
    h.buf.bind fun b => (bufPeek b 0 h.length).map fun d =>
      { bytes := d, queue := slistRemove queue h, txLeft := txLeft - h.length, addmore := true }
  else if mtuTx < h.length then none
  else some { bytes := [], queue, txLeft, addmore := false }

/-- The headers of a packet, the queue behind it and whether the object is suspended. -/
structure Filled where
  bytes : Bytes
  rest : List HeaderElement
  suspend : Bool

def fill (mtuTx : Nat) : Nat → List HeaderElement → Nat → Option Filled
  | 0, _, _ => none
  | _ + 1, [], _ => some { bytes := [], rest := [], suspend := false }
  | fuel + 1, h :: hs, txLeft =>
    (fillHeader mtuTx h (h :: hs) txLeft).bind fun x =>
      let suspend := x.addmore && h.flags.suspend
      if x.addmore ∧ ¬ suspend ∧ x.txLeft ≠ 0 then
        (fill mtuTx fuel x.queue x.txLeft).map fun y => { y with bytes := x.bytes ++ y.bytes }
      else some { bytes := x.bytes, rest := x.queue, suspend }

/-- The header is longer than any packet. -/
def Overlong (mtuTx : Nat) (h : HeaderElement) (txLeft : Nat) : Prop :=
  h.hi ≠ obexHdrBody ∧ h.hi ≠ obexHdrEmpty ∧ txLeft < h.length ∧ mtuTx < h.length

/-- The packet comes to such a header; `obex_object_send` gives up. -/
def Overruns (mtuTx : Nat) : Nat → List HeaderElement → Nat → Prop
  | fuel + 1, h :: hs, txLeft => Overlong mtuTx h txLeft ∨
    ∃ x, fillHeader mtuTx h (h :: hs) txLeft = some x ∧
      (x.addmore = true ∧ ¬ (x.addmore && h.flags.suspend) = true ∧ x.txLeft ≠ 0) ∧
      Overruns mtuTx fuel x.queue x.txLeft
  | _, _, _ => False

/-! ## The number of rounds -/

theorem slistRemove_shorter {h : HeaderElement} {hs : List HeaderElement} :
    (slistRemove (h :: hs) h).length ≤ hs.length := by
  unfold slistRemove
  rw [List.filter_cons_of_neg (by simp)]
  exact List.length_filter_le _ _

/-- A round that goes on takes its header off the queue. -/
theorem fillHeader_removes {mtuTx txLeft : Nat} {h : HeaderElement} {queue : List HeaderElement}
    {x : FillStep} (hx : fillHeader mtuTx h queue txLeft = some x) (hmore : x.addmore = true)
    (hleft : x.txLeft ≠ 0) : x.queue = slistRemove queue h := by
  unfold fillHeader at hx
  split at hx
  · obtain ⟨b, -, hx⟩ := Option.bind_eq_some_iff.1 hx
    unfold fillBody at hx
    split at hx
    · obtain ⟨d, -, rfl⟩ := Option.map_eq_some_iff.1 hx
      have hzero : u16 ((txLeft : Int) - txLeft) = 0 := by rw [Int.sub_self]; rfl
      exact absurd hzero hleft
    · cases hx
      rfl
  split at hx
  · cases hx
    rfl
  split at hx
  · obtain ⟨b, -, hx⟩ := Option.bind_eq_some_iff.1 hx
    obtain ⟨d, -, rfl⟩ := Option.map_eq_some_iff.1 hx
    rfl
  split at hx
  · cases hx
  · cases hx
    cases hmore

theorem fillHeader_shorter {mtuTx txLeft : Nat} {h : HeaderElement} {hs : List HeaderElement}
    {x : FillStep} (hx : fillHeader mtuTx h (h :: hs) txLeft = some x) (hmore : x.addmore = true)
    (hleft : x.txLeft ≠ 0) : x.queue.length ≤ hs.length := by
  rw [fillHeader_removes hx hmore hleft]
  exact slistRemove_shorter

theorem u16_le {a : Int} {n : Nat} (h0 : 0 ≤ a) (h : a ≤ n) : u16 a ≤ n := by
  unfold u16
  omega

theorem fillHeader_left {mtuTx txLeft : Nat} {h : HeaderElement} {queue : List HeaderElement}
    {x : FillStep} (hx : fillHeader mtuTx h queue txLeft = some x) : x.txLeft ≤ txLeft := by
  unfold fillHeader at hx
  split at hx
  · obtain ⟨b, -, hx⟩ := Option.bind_eq_some_iff.1 hx
    unfold fillBody at hx
    split at hx
    · obtain ⟨d, -, rfl⟩ := Option.map_eq_some_iff.1 hx
      exact u16_le (by omega) (by omega)
    · cases hx
      exact u16_le (by omega) (by omega)
  split at hx
  · cases hx
    exact Nat.le_refl _
  split at hx
  · obtain ⟨b, -, hx⟩ := Option.bind_eq_some_iff.1 hx
    obtain ⟨d, -, rfl⟩ := Option.map_eq_some_iff.1 hx
    exact Nat.sub_le _ _
  split at hx
  · cases hx
  · cases hx
    exact Nat.le_refl _

/-- A header that does not fit stays in the queue. -/
theorem fillHeader_keeps {mtuTx txLeft : Nat} {h e : HeaderElement} {hs : List HeaderElement}
    {x : FillStep} (hx : fillHeader mtuTx h (h :: hs) txLeft = some x) (hd : Distinct (h :: hs))
    (he : e ∈ h :: hs) (hb : e.hi ≠ obexHdrBody) (hn : e.hi ≠ obexHdrEmpty)
    (hlong : txLeft < e.length) : e ∈ x.queue := by
  obtain ⟨hne, -⟩ := List.nodup_cons.1 hd
  have hother (hno : e ≠ h) : e ∈ hs ∧ addr e ≠ addr h := by
    have hmem := (List.mem_cons.1 he).resolve_left hno
    exact ⟨hmem, fun ha => hne (by rw [← ha]; exact List.mem_map_of_mem hmem)⟩
  have hremove (hno : e ≠ h) : e ∈ slistRemove (h :: hs) h :=
    List.mem_filter.2 ⟨he, by simpa using (hother hno).2⟩
  unfold fillHeader at hx
  split at hx
  · have hno : e ≠ h := fun heq => hb (by rwa [heq])
    obtain ⟨b, -, hx⟩ := Option.bind_eq_some_iff.1 hx
    unfold fillBody at hx
    split at hx
    · obtain ⟨d, -, rfl⟩ := Option.map_eq_some_iff.1 hx
      exact List.mem_map.2 ⟨e, he, if_neg (hother hno).2⟩
    · cases hx
      exact hremove hno
  split at hx
  · cases hx
    exact hremove fun heq => hn (by rwa [heq])
  split at hx
  · obtain ⟨b, -, hx⟩ := Option.bind_eq_some_iff.1 hx
    obtain ⟨d, -, rfl⟩ := Option.map_eq_some_iff.1 hx
    exact hremove fun heq => by
      rw [heq] at hlong
      omega
  split at hx
  · cases hx
  · cases hx
    exact he

theorem fill_keeps {mtuTx fuel txLeft : Nat} {queue : List HeaderElement} {e : HeaderElement}
    {x : Filled} (hx : fill mtuTx fuel queue txLeft = some x) (hd : Distinct queue) (he : e ∈ queue)
    (hb : e.hi ≠ obexHdrBody) (hn : e.hi ≠ obexHdrEmpty) (hlong : txLeft < e.length) : e ∈ x.rest := by
  induction fuel generalizing queue txLeft x with
  | zero => cases hx
  | succ fuel ih =>
    cases queue with
    | nil => cases he
    | cons h hs =>
      rw [fill] at hx
      obtain ⟨y, hy, hx⟩ := Option.bind_eq_some_iff.1 hx
      have hkeep := fillHeader_keeps hy hd he hb hn hlong
      dsimp only at hx
      by_cases hgo : y.addmore = true ∧ ¬ (y.addmore && h.flags.suspend) = true ∧ y.txLeft ≠ 0
      · rw [if_pos hgo] at hx
        obtain ⟨z, hz, rfl⟩ := Option.map_eq_some_iff.1 hx
        have hleft := fillHeader_left hy
        have hd' : Distinct y.queue := by
          rw [fillHeader_removes hy hgo.1 hgo.2.2]
          exact hd.sublist (List.filter_sublist.map _)
        have hrest := ih hz hd' hkeep (by omega)
        exact hrest
      · rw [if_neg hgo] at hx
        cases hx
        exact hkeep

/-- What a call that gives up leaves in the queue: what is too long for the packet is still there. -/
structure Dropped (txLeft : Nat) (queue q : List HeaderElement) : Prop where
  sublist : q.Sublist queue
  keeps : Distinct queue → ∀ e ∈ queue, e.hi ≠ obexHdrBody → e.hi ≠ obexHdrEmpty →
    txLeft < e.length → e ∈ q

/-- One round for each header and one more are enough. -/
theorem fill_rounds {mtuTx a b txLeft : Nat} {queue : List HeaderElement} {x : Filled}
    (h : fill mtuTx a queue txLeft = some x) (hb : queue.length < b) :
    fill mtuTx b queue txLeft = some x := by
  induction a generalizing b queue txLeft x with
  | zero => cases h
  | succ a ih =>
    cases b with
    | zero => omega
    | succ b =>
      cases queue with
      | nil => exact h
      | cons e es =>
        rw [fill] at h ⊢
        obtain ⟨y, hy, h⟩ := Option.bind_eq_some_iff.1 h
        rw [hy, Option.bind_some]
        dsimp only at h ⊢
        by_cases hgo : y.addmore = true ∧ ¬ (y.addmore && e.flags.suspend) = true ∧ y.txLeft ≠ 0
        · rw [if_pos hgo] at h ⊢
          obtain ⟨z, hz, hx⟩ := Option.map_eq_some_iff.1 h
          have hlen := fillHeader_shorter hy hgo.1 hgo.2.2
          rw [List.length_cons] at hb
          rw [ih hz (by omega), Option.map_some, hx]
        · rw [if_neg hgo] at h ⊢
          exact h

/-! ## The states of the loop -/

/-- The object of a send in progress. -/
def sending (o : ObexObject) (queue : List HeaderElement) (suspend : Bool) : ObexObject :=
  { o with txHeaderq := queue, suspend }

/-- A state of the loop over the queue. -/
def filling (s : Obex) (p : Ptr) (o : ObexObject) (m : Buf) (queue : List HeaderElement)
    (suspend : Bool) : Obex := (s.setTxMsg m).setObject p (some (sending o queue suspend))

section
variable (s : Obex) (p : Ptr) (o : ObexObject) (m : Buf) (queue : List HeaderElement) (suspend : Bool)

@[simp] theorem filling_txMsg : (filling s p o m queue suspend).txMsg = m := rfl

@[simp] theorem filling_mtuTx : (filling s p o m queue suspend).mtuTx = s.mtuTx := rfl

@[simp] theorem filling_objects :
    (filling s p o m queue suspend).objects p = some (sending o queue suspend) :=
  objects_setObject _ _ _

@[simp] theorem filling_setTxMsg (b : Buf) :
    (filling s p o m queue suspend).setTxMsg b = filling s p o b queue suspend := rfl

@[simp] theorem filling_setObject (o' : ObexObject) (q : List HeaderElement) (b : Bool) :
    (filling s p o m queue suspend).setObject p (some (sending o' q b)) = filling s p o' m q b :=
  setObject_setObject _ _ _ _

end

/-! ## The loop -/

section
variable {C : Ctx} {s : Obex} {p : Ptr} {o : ObexObject} {m : Buf} {queue : List HeaderElement}
  {suspend : Bool} {α : Type} {R : Stop → Obex → Prop}

theorem wp_filling_update {f : ObexObject → ObexObject} {q : List HeaderElement} {b : Bool}
    {Q : Unit → Obex → Prop} (hf : f (sending o queue suspend) = sending o q b)
    (h : Q () (filling s p o m q b)) : wp (update p f) Q R (filling s p o m queue suspend) := by
  rw [wp_update, filling_objects]
  refine ⟨?_, by simp⟩
  rintro _ ⟨⟩
  rw [hf, filling_setObject]
  exact h

theorem wp_filling_suspend {h : HeaderElement} {Q : Unit → Obex → Prop}
    (hq : Q () (filling s p o m queue (suspend || h.flags.suspend))) :
    wp (suspendAfter p h) Q R (filling s p o m queue suspend) := by
  rw [suspendAfter, wp_when]
  refine ⟨fun hs => wp_filling_update rfl ?_, fun hs => ?_⟩
  · rwa [hs, Bool.or_true] at hq
  · rwa [Bool.eq_false_iff.2 hs, Bool.or_false] at hq

theorem wp_filling_insert {d : Bytes} {Q : Unit → Obex → Prop}
    (hq : ∀ m', m'.contents = m.contents ++ d → Q () (filling s p o m' queue suspend))
    (hr : (¬ ∀ n, C.malloc n = true) → R (.fault .assertion) (filling s p o m queue suspend)) :
    wp (txInsertEnd C d) Q R (filling s p o m queue suspend) := by
  rw [txInsertEnd, wp_bind, wp_get, wp_bind, wp_require, filling_txMsg]
  refine ⟨fun m' hm => hq m' (bufInsertEnd_some hm).1, fun hnone => hr fun hmalloc => ?_⟩
  obtain ⟨m', hm⟩ := bufInsertEnd_total hmalloc m d
  rw [hm] at hnone
  cases hnone

/-- The header of a body is reserved first and stored when the length is known. -/
theorem wp_filling_body {h : HeaderElement} {txLeft : Nat} {Q : Nat → Obex → Prop}
    (hplain : h.hi = obexHdrBody)
    (hok : ∀ x m', fillHeader s.mtuTx h queue txLeft = some x → m'.contents = m.contents ++ x.bytes →
      ∀ actual : Nat, x.txLeft = u16 (txLeft - actual) → Q actual (filling s p o m' x.queue suspend))
    (hstop : ∀ e m', (fillHeader s.mtuTx h queue txLeft ≠ none → ¬ ∀ n, C.malloc n = true) →
      e ≠ .fault .nullObject → e ≠ .timeout → R e (filling s p o m' queue suspend)) :
    wp (sendBody C p h txLeft) Q R (filling s p o m queue suspend) := by
  have hfill : fillHeader s.mtuTx h queue txLeft = h.bodyBuf.bind fun b => fillBody h b queue txLeft :=
    if_pos hplain
  rw [hfill] at hok hstop
  rw [sendBody, wp_bind, wp_get, wp_bind, wp_require, filling_txMsg]
  refine ⟨fun r hr => ?_, fun hnone => hstop _ _ (fun _ hmalloc => ?_) (by simp) (by simp)⟩
  swap
  · obtain ⟨r, hr⟩ := bufReserveEnd_iff.2 (.inr (hmalloc _) : Granted C.malloc m 3)
    rw [hr] at hnone
    cases hnone
  obtain ⟨m₁, dest⟩ := r
  have hpoke (hi : UInt8) (n : Nat) : ∃ m₂, bufPoke m₁ dest (hi :: be16 n) = some m₂ ∧
      m₂.contents = m.contents ++ (hi :: be16 n) := by
    obtain ⟨h1, h2, h3, -⟩ := bufReserveEnd_some hr
    have hle := m₁.end_le
    have hp : dest + (hi :: be16 n).length ≤ m₁.buffer.length := by
      simp only [List.length_cons, length_be16]
      omega
    obtain ⟨m₂, hm₂⟩ := bufPoke_of_le hp
    exact ⟨m₂, hm₂, contents_poke_end hr hm₂⟩
  rw [wp_bind, wp_require]
  refine ⟨fun b hb => ?_, fun hnone => hstop _ _ (fun h _ => h ?_) (by simp) (by simp)⟩
  swap
  · rw [HeaderElement.bodyBuf, hnone, Option.map_none, Option.bind_none]
  have hbody : h.bodyBuf = some (if h.bodyTouched then b else bufRemoveBegin b 3) := by
    rw [HeaderElement.bodyBuf, hb, Option.map_some]
  rw [hbody, Option.bind_some] at hok hstop
  dsimp only
  -- what is left to send of the body, with or without its own header
  generalize (if h.bodyTouched then b else bufRemoveBegin b 3) = c at *
  unfold fillBody at hok hstop
  by_cases hmore : txLeft < c.dataSize + 3
  · rw [if_pos hmore] at hok hstop ⊢
    rw [wp_bind, peek, wp_require]
    refine ⟨fun d hd => ?_, fun hnone => hstop _ _ (fun h _ => h ?_) (by simp) (by simp)⟩
    swap
    · rw [hnone, Option.map_none]
    rw [hd, Option.map_some] at hok hstop
    obtain ⟨m₂, hm₂, hc₂⟩ := hpoke obexHdrBody (u16 txLeft)
    rw [wp_bind, wp_require, hm₂]
    refine ⟨?_, by simp⟩
    rintro _ ⟨⟩
    rw [wp_bind, wp_set, filling_setTxMsg, wp_bind]
    refine wp_filling_insert (fun m₃ hc₃ => ?_) fun hmalloc => hstop _ _ (fun _ => hmalloc)
      (by simp) (by simp)
    rw [wp_bind]
    refine wp_filling_update rfl (hok _ m₃ rfl ?_ _ rfl)
    rw [hc₃, hc₂, List.append_assoc]
  · rw [if_neg hmore] at hok hstop ⊢
    obtain ⟨m₂, hm₂, hc₂⟩ := hpoke obexHdrBodyEnd (u16 (c.dataSize + 3))
    rw [wp_bind, wp_require, hm₂]
    refine ⟨?_, by simp⟩
    rintro _ ⟨⟩
    rw [wp_bind, wp_set, filling_setTxMsg, wp_bind]
    refine wp_filling_insert (fun m₃ hc₃ => ?_) fun hmalloc => hstop _ _ (fun _ => hmalloc)
      (by simp) (by simp)
    rw [wp_bind]
    refine wp_filling_update rfl (hok _ m₃ rfl ?_ _ rfl)
    rw [hc₃, hc₂, List.append_assoc]

theorem Overlong.fillHeader {mtuTx txLeft : Nat} {h : HeaderElement} (hlong : Overlong mtuTx h txLeft)
    (queue : List HeaderElement) : fillHeader mtuTx h queue txLeft = none := by
  obtain ⟨hbody, hempty, hleft, hmtu⟩ := hlong
  unfold OpenObex.fillHeader
  rw [if_neg hbody, if_neg hempty, if_neg (by omega), if_pos hmtu]

theorem wp_fillHeader {h : HeaderElement} {txLeft : Nat} {Q : Option (Nat × Bool) → Obex → Prop}
    (hplain : h.stream = false)
    (hok : ∀ x m', fillHeader s.mtuTx h queue txLeft = some x → m'.contents = m.contents ++ x.bytes →
      Q (some (x.txLeft, x.addmore))
        (filling s p o m' x.queue (suspend || (x.addmore && h.flags.suspend))))
    (hnone : Overlong s.mtuTx h txLeft → Q none (filling s p o m queue suspend))
    (hstop : ∀ e m' b, (fillHeader s.mtuTx h queue txLeft ≠ none ∨ Overlong s.mtuTx h txLeft →
      ¬ ∀ n, C.malloc n = true) → e ≠ .fault .nullObject → e ≠ .timeout →
        R e (filling s p o m' queue b)) :
    wp (sendHeader C p h txLeft) Q R (filling s p o m queue suspend) := by
  rw [sendHeader, wp_bind, wp_get, hplain, if_neg (by simp)]
  by_cases hbody : h.hi = obexHdrBody
  · rw [if_pos hbody, wp_bind]
    refine wp_filling_suspend ?_
    rw [wp_bind]
    refine wp_filling_body hbody (fun x m' hx hm' actual hleft => ?_) fun e m' he => hstop e m' _ ?_
    swap
    · exact fun h => he (h.resolve_right fun hlong => hlong.1 hbody)
    -- a body that goes into the packet, whole or cut, always lets the loop go on
    have hmore : x.addmore = true := by
      rw [fillHeader, if_pos hbody] at hx
      obtain ⟨b, -, hx⟩ := Option.bind_eq_some_iff.1 hx
      unfold fillBody at hx
      split at hx
      · obtain ⟨d, -, rfl⟩ := Option.map_eq_some_iff.1 hx
        rfl
      · cases hx
        rfl
    have hq := hok x m' hx hm'
    rwa [hleft, hmore, Bool.true_and] at hq
  rw [if_neg hbody]
  unfold fillHeader at hok hstop
  rw [if_neg hbody] at hok hstop
  by_cases hempty : h.hi = obexHdrEmpty
  · rw [if_pos hempty] at hok ⊢
    rw [wp_bind]
    refine wp_filling_suspend ?_
    rw [wp_bind]
    refine wp_filling_update rfl ?_
    have hq := hok _ m rfl (List.append_nil _).symm
    rwa [Bool.true_and] at hq
  rw [if_neg hempty] at hok hstop ⊢
  by_cases hfits : h.length ≤ txLeft
  · -- from here the header is sent whole
    have hnot : ¬ Overlong s.mtuTx h txLeft := fun hlong => absurd hlong.2.2.1 (by omega)
    rw [if_pos hfits] at hok hstop ⊢
    rw [wp_bind, wp_require]
    refine ⟨fun b hb => ?_, fun hno => hstop _ _ _ (fun h _ => h.resolve_right hnot ?_) (by simp)
      (by simp)⟩
    swap
    · rw [hno, Option.bind_none]
    rw [hb, Option.bind_some] at hok hstop
    rw [wp_bind, peek, wp_require]
    refine ⟨fun d hd => ?_, fun hno => hstop _ _ _ (fun h _ => h.resolve_right hnot ?_) (by simp)
      (by simp)⟩
    swap
    · rw [hno, Option.map_none]
    rw [hd, Option.map_some] at hok hstop
    rw [wp_bind]
    refine wp_filling_insert (fun m' hm' => ?_) fun hmalloc => hstop _ _ _ (fun _ => hmalloc)
      (by simp) (by simp)
    rw [wp_bind]
    refine wp_filling_suspend ?_
    rw [wp_bind]
    refine wp_filling_update rfl ?_
    have hq := hok _ m' rfl hm'
    rwa [Bool.true_and] at hq
  rw [if_neg hfits] at hok ⊢
  by_cases hlong : s.mtuTx < h.length
  · rw [filling_mtuTx, if_pos hlong]
    exact hnone ⟨hbody, hempty, Nat.lt_of_not_le hfits, hlong⟩
  · rw [if_neg hlong] at hok
    rw [filling_mtuTx, if_neg hlong]
    have hq := hok _ m rfl (List.append_nil _).symm
    rwa [Bool.false_and, Bool.or_false] at hq

/-- What is put back is no stream. -/
theorem fillHeader_plain {mtuTx txLeft : Nat} {h : HeaderElement} {x : FillStep}
    (hx : fillHeader mtuTx h queue txLeft = some x) (hh : h.stream = false)
    (hq : ∀ e ∈ queue, e.stream = false) : ∀ e ∈ x.queue, e.stream = false := by
  have hremove : ∀ e ∈ slistRemove queue h, e.stream = false := fun e he =>
    hq e (slistRemove_subset he)
  unfold fillHeader at hx
  split at hx
  · obtain ⟨b, -, hx⟩ := Option.bind_eq_some_iff.1 hx
    unfold fillBody at hx
    split at hx
    · obtain ⟨d, -, rfl⟩ := Option.map_eq_some_iff.1 hx
      intro e he
      obtain ⟨e', he', rfl⟩ := List.mem_map.1 he
      split
      · exact hh
      · exact hq e' he'
    · cases hx
      exact hremove
  split at hx
  · cases hx
    exact hremove
  split at hx
  · obtain ⟨b, -, hx⟩ := Option.bind_eq_some_iff.1 hx
    obtain ⟨d, -, rfl⟩ := Option.map_eq_some_iff.1 hx
    exact hremove
  split at hx
  · cases hx
  · cases hx
    exact hq

/-- The loop over a queue without streams. -/
theorem wp_fill {fuel txLeft : Nat} {Q : Bool → Obex → Prop}
    (hplain : ∀ e ∈ queue, e.stream = false)
    (hok : ∀ x m', fill s.mtuTx fuel queue txLeft = some x → m'.contents = m.contents ++ x.bytes →
      Q true (filling s p o m' x.rest x.suspend))
    (hnone : ∀ m' q, Overruns s.mtuTx fuel queue txLeft → Dropped txLeft queue q →
      Q false (filling s p o m' q false))
    (hstop : ∀ e m' q b, (fill s.mtuTx fuel queue txLeft ≠ none ∨ Overruns s.mtuTx fuel queue txLeft →
      ¬ ∀ n, C.malloc n = true) → e ≠ .fault .nullObject → R e (filling s p o m' q b)) :
    wp (sendHeaders C p fuel txLeft) Q R (filling s p o m queue false) := by
  induction fuel generalizing m queue txLeft with
  | zero => exact hstop _ _ _ _ (fun h => absurd rfl (h.resolve_right fun h => h)) (by simp)
  | succ fuel ih =>
    rw [sendHeaders, wp_bind, wp_deref, filling_objects]
    refine ⟨?_, by simp⟩
    rintro _ ⟨⟩
    cases queue with
    | nil => exact hok _ m rfl (List.append_nil _).symm
    | cons h hs =>
      have hh := hplain h List.mem_cons_self
      show wp (sendHeader C p h txLeft >>= _) _ _ _
      rw [fill] at hok hstop
      rw [wp_bind]
      refine wp_fillHeader hh (fun x m' hx hm' => ?_)
        (fun hlong => hnone m _ (.inl hlong) ⟨List.Sublist.refl _, fun _ _ he _ _ _ => he⟩)
        fun e m' b he hnull _ => ?_
      · rw [hx, Option.bind_some] at hok hstop
        rw [Bool.false_or, wp_bind, wp_deref, filling_objects]
        refine ⟨?_, by simp⟩
        rintro _ ⟨⟩
        dsimp only at hok hstop
        -- a round that goes on leaves the rest of the queue to the induction; what is lost there
        -- was lost here
        refine wp_ite.2 ⟨fun hgo => ?_, fun hgo => ?_⟩
        · change x.addmore = true ∧ ¬ (x.addmore && h.flags.suspend) = true ∧ x.txLeft ≠ 0 at hgo
          have hsus : (x.addmore && h.flags.suspend) = false := Bool.eq_false_iff.2 hgo.2.1
          rw [if_pos hgo] at hok hstop
          rw [hsus]
          refine ih (fillHeader_plain hx hh hplain) (fun y m'' hy hm'' => ?_) (fun m'' q hno hsub => ?_)
            fun e m'' q b he => ?_
          · rw [hy, Option.map_some] at hok
            refine hok { y with bytes := x.bytes ++ y.bytes } m'' rfl ?_
            rw [hm'', hm', List.append_assoc]
          · have hleft := fillHeader_left hx
            have hshort : x.queue.Sublist (h :: hs) := by
              rw [fillHeader_removes hx hgo.1 hgo.2.2]
              exact List.filter_sublist
            refine hnone m'' q (.inr ⟨x, hx, hgo, hno⟩)
              ⟨hsub.sublist.trans hshort, fun hd e he hb hn hlong => ?_⟩
            exact hsub.keeps (hd.sublist (hshort.map _)) e (fillHeader_keeps hx hd he hb hn hlong) hb hn
              (by omega)
          · refine hstop e m'' q b fun h => he ?_
            cases h with
            | inl hsome => exact .inl fun hno => hsome (by rw [hno, Option.map_none])
            | inr hover =>
              obtain hlong | ⟨y, hy, -, hrest⟩ := hover
              · rw [hlong.fillHeader] at hx
                cases hx
              · rw [hx] at hy
                cases hy
                exact .inr hrest
        · change ¬ (x.addmore = true ∧ ¬ (x.addmore && h.flags.suspend) = true ∧ x.txLeft ≠ 0) at hgo
          rw [if_neg hgo] at hok
          exact hok _ m' rfl hm'
      · refine hstop e m' _ b (fun h => he ?_) hnull
        cases h with
        | inl hsome => exact .inl fun hno => hsome (by rw [hno, Option.bind_none])
        | inr hover =>
          obtain hlong | ⟨y, hy, -⟩ := hover
          · exact .inr hlong
          · exact .inl fun hno => by
              rw [hno] at hy
              cases hy

/-! ## The packet -/

/-- The data in front of the headers. -/
def ObexObject.nonhdr (o : ObexObject) : Bytes := (o.txNonhdrData.map Buf.contents).getD []

/-- The data in front of the headers is sent once; the block only grows when it must. -/
theorem wp_sendNonhdr {Q : Unit → Obex → Prop}
    (hq : ∀ m', m'.contents = o.nonhdr → m'.data = 0 →
      m'.buffer.length = max s.txMsg.buffer.length m'.dataSize →
      Q () (filling s p { o with txNonhdrData := none } m' queue suspend))
    (hr : (¬ ∀ n, C.malloc n = true) →
      R (.fault .assertion) (filling s p o (bufReuse s.txMsg) queue suspend)) :
    wp (sendNonhdr C p) Q R (filling s p o (bufReuse s.txMsg) queue suspend) := by
  rw [sendNonhdr, wp_bind, wp_deref, filling_objects]
  refine ⟨?_, by simp⟩
  rintro _ ⟨⟩
  dsimp only [sending]
  cases hd : o.txNonhdrData with
  | none =>
    have hsame : ({ o with txNonhdrData := none } : ObexObject) = o := by rw [← hd]
    have hpost := hq (bufReuse s.txMsg) (by rw [ObexObject.nonhdr, hd, contents_bufReuse]; rfl) rfl
      (by rw [bufReuse_dataSize, Nat.max_zero]; rfl)
    rwa [hsame] at hpost
  | some d =>
    rw [wp_bind, txInsertEnd, wp_bind, wp_get, wp_bind, wp_require, filling_txMsg]
    refine ⟨fun m' hm => ?_, fun hnone => hr fun hmalloc => ?_⟩
    · obtain ⟨hcont, hsize⟩ := bufInsertEnd_some hm
      obtain ⟨hdata, hlen⟩ := bufInsertEnd_length hm
      rw [wp_set, filling_setTxMsg, wp_update, filling_objects]
      refine ⟨?_, by simp⟩
      rintro _ ⟨⟩
      have hpost := hq m' (by rw [hcont, contents_bufReuse, ObexObject.nonhdr, hd]; rfl) hdata ?_
      · rwa [filling, ← setObject_setObject] at hpost
      · rw [hlen, hsize]
        show max s.txMsg.buffer.length (0 + 0 + d.contents.length) = _
        rw [bufReuse_dataSize]
    · obtain ⟨m', hm⟩ := bufInsertEnd_total hmalloc (bufReuse s.txMsg) d.contents
      rw [hm] at hnone
      cases hnone

/-- The packet is filled, then sent with the opcode chosen by what is left in the queue. -/
theorem wp_send_fill {allowfinalcmd forcefinalbit : Bool} {Q : Int → Obex → Prop}
    (ho : s.objects p = some o) (hplain : ∀ e ∈ o.txHeaderq, e.stream = false)
    (hsuspend : o.suspend = false)
    (hok : ∀ x m, fill s.mtuTx C.fuel o.txHeaderq (initialTxLeft s) = some x →
      m.contents = o.nonhdr ++ x.bytes →
      wp (obexDataRequest C (some p)
          (chooseOpcode (sending o x.rest x.suspend) allowfinalcmd forcefinalbit).1
          (chooseOpcode (sending o x.rest x.suspend) allowfinalcmd forcefinalbit).2)
        (fun r s' => Q (if r < 0 then r else if (chooseOpcode (sending o x.rest x.suspend)
          allowfinalcmd forcefinalbit).1 = .last then 1 else 0) s') R
        (filling s p { o with txNonhdrData := none } m x.rest x.suspend))
    (hnone : ∀ m q, Overruns s.mtuTx C.fuel o.txHeaderq (initialTxLeft s) →
      Dropped (initialTxLeft s) o.txHeaderq q →
      Q (-1) (filling s p { o with txNonhdrData := none } m q false))
    (hstop : ∀ e m d q b, (fill s.mtuTx C.fuel o.txHeaderq (initialTxLeft s) ≠ none ∨
      Overruns s.mtuTx C.fuel o.txHeaderq (initialTxLeft s) →
      ¬ ∀ n, C.malloc n = true) → e ≠ .fault .nullObject →
      R e (filling s p { o with txNonhdrData := d } m q b)) :
    wp (obexObjectSend C p allowfinalcmd forcefinalbit) Q R s := by
  have hself (m : Buf) : filling s p o m o.txHeaderq false = s.setTxMsg m := by
    have hs : sending o o.txHeaderq false = o := by
      unfold sending
      rw [← hsuspend]
    have ho' : (s.setTxMsg m).objects p = some o := ho
    rw [filling, hs, setObject_self ho']
  rw [obexObjectSend, wp_bind, wp_deref]
  refine ⟨fun o' ho' => ?_, fun hno => by rw [ho] at hno; cases hno⟩
  rw [ho] at ho'
  cases ho'
  rw [hsuspend, if_neg (by simp), wp_bind, wp_get, wp_bind, wp_set, wp_bind, ← hself]
  refine wp_sendNonhdr (fun m hm _ _ => ?_) fun hmalloc => ?_
  swap
  · have hfail := hstop (.fault .assertion) (bufReuse s.txMsg) o.txNonhdrData o.txHeaderq false
      (fun _ => hmalloc) (by simp)
    exact hfail
  rw [wp_bind]
  refine wp_fill hplain (fun x m' hx hm' => ?_) (fun m' q hno hsub => hnone m' q hno hsub) ?_
  · rw [if_pos rfl, wp_bind, wp_deref, filling_objects]
    refine ⟨?_, by simp⟩
    rintro _ ⟨⟩
    rw [wp_bind]
    refine wp_conseq (hok x m' hx (by rw [hm', hm])) fun r s' hr => ?_
    split at hr
    · rwa [if_pos ‹_›]
    · rwa [if_neg ‹_›]
  · exact fun e m' q b he => hstop e m' none q b he

end

end OpenObex
