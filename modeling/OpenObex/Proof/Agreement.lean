import OpenObex.Proof.Leftovers
import OpenObex.Proof.Reception

/-!
# Streamed and buffered reception

The same packets come in twice: once the bodies are gathered in a buffer and queued (`Intake`), once
their fragments go to the application as they come (`Outflow`). The two receivers are compared as
two descriptions of one list of headers (`Mates`).
-/

namespace OpenObex

open Mem Prog

/-! ## What is handed to the application -/

/-- What a stream fragment brings; an empty one is the end of a stream. -/
def fragmentBytes (f : Option Bytes × Nat) : Bytes := (f.1.getD []).take f.2

/-- The streams that have ended, and the one that goes on. -/
structure Pieces where
  done : List Bytes
  current : Bytes

def Pieces.add (x : Pieces) (f : Option Bytes × Nat) : Pieces :=
  if f.2 = 0 then { done := x.done ++ [x.current], current := [] }
  else { x with current := x.current ++ fragmentBytes f }

def pieces (fs : List (Option Bytes × Nat)) : Pieces :=
  fs.foldl Pieces.add { done := [], current := [] }

/-- What has been queued and streamed when bodies are streamed. -/
structure Outflow where
  intake : Intake
  pieces : Pieces

/-- The end of a stream is told once, the bytes in front of it if there are any. -/
def Outflow.take (x : Outflow) (h : Head) : Outflow :=
  if h.isBody then
    if h.hi = obexHdrBodyEnd then { x with
      pieces := { done := x.pieces.done ++ [x.pieces.current ++ h.value], current := [] } }
    else { x with pieces := { x.pieces with current := x.pieces.current ++ h.value } }
  else { x with intake := x.intake.put h }

/-! ## The streaming receiver -/

/-- What the application leaves alone when it takes a fragment. -/
structure RxKept (o o' : ObexObject) : Prop where
  srv : o'.sSrv = o.sSrv
  abort : o'.abort = o.abort
  offset : o'.headeroffset = o.headeroffset
  hint : o'.hintedBodyLen = o.hintedBodyLen
  body : o'.rxBody = o.rxBody
  queue : o'.rxHeaderq = o.rxHeaderq

/-- The application takes fragments and returns: the object stays the current one with what it has
received, and nothing more is streamed in between. -/
def Listens (C : Ctx) (p : Ptr) : Prop :=
  ∀ notice s o, s.object = some p → s.objects p = some o →
    wp (C.eventcb notice) (fun _ s' => s'.object = some p ∧ s'.rxMsg = s.rxMsg ∧ s.fresh ≤ s'.fresh ∧
      fragments s'.log = fragments s.log ∧ ∃ o', s'.objects p = some o' ∧ RxKept o o')
        (fun _ _ => False) s

variable {C : Ctx} {p : Ptr} {i : Intake} {m : Buf} {s : Obex} {o : ObexObject} {fresh : Ptr} {h : Head}
  {w : Bytes}

theorem Took.kept {srv : Bool} (ht : Took srv i o fresh) {o' : ObexObject} {fresh' : Ptr}
    (hk : RxKept o o') (hf : fresh ≤ fresh') : Took srv i o' fresh' := by
  obtain ⟨h1, h2, h3, h4, h5, h6, h7, h8, h9⟩ := ht
  refine ⟨?_, ?_, ?_, ?_, h5, ?_, ?_, ?_, ?_⟩
  · rw [hk.srv, h1]
  · rw [hk.abort, h2]
  · rw [hk.offset, h3]
  · rw [hk.hint, h4]
  · rw [hk.body]
    exact h6
  · rw [hk.queue]
    exact h7
  · rw [hk.queue]
    exact h8
  · rw [hk.queue]
    exact fun e he => Nat.lt_of_lt_of_le (h9 e he) hf

/-- The object has taken `x`, with `fs` streamed before. -/
structure Flowing (p : Ptr) (fs : List (Option Bytes × Nat)) (x : Outflow) (m : Buf) (s : Obex) :
    Prop where
  taking : Taking true p x.intake m s
  streamed : ∃ gs, fragments s.log = fs ++ gs ∧ pieces gs = x.pieces

variable {fs gs : List (Option Bytes × Nat)} {x : Outflow}

theorem Taking.streamavail {srv : Bool} (hC : Listens C p) (ht : Taking srv p i m s)
    {f : Option Bytes × Nat} (hs : ∃ o, s.objects p = some o ∧ (o.sBuf, o.sLen) = f) :
    wp (obexDeliverEvent C .streamavail 0 0 false)
      (fun _ s' => Taking srv p i m s' ∧ fragments s'.log = fragments s.log ++ [f])
      (fun _ _ => False) s := by
  obtain ⟨hp, o, ho, htook⟩ := ht
  obtain ⟨o', ho', hf⟩ := hs
  cases ho.symm.trans ho'
  refine wp_deliverEvent (wp_conseq (hC _ _ o hp.object ho) ?_)
  rintro - s' ⟨hobj, hrx, hfresh, hlog, o', ho', hk⟩
  have hdata : (noticeOf s .streamavail 0 0).data = some f := by
    simp only [noticeOf, if_pos, streamFragment, hp.object, Option.bind_some, ho, Option.map_some, hf]
  refine ⟨⟨⟨hobj, ⟨o', ho'⟩, hrx.trans hp.rxMsg⟩, o', ho', htook.kept hk hfresh⟩, ?_⟩
  rw [hlog, Obex.emit]
  simp only [fragments, List.filterMap_append, List.filterMap_cons, List.filterMap_nil, hdata]
  rfl

theorem Taking.note {srv : Bool} (ht : Taking srv p i m s) (source : Option Bytes) (k : Nat)
    {R : Stop → Obex → Prop} :
    wp (update p fun o => { o with sBuf := source, sLen := k }) (fun _ s' => Taking srv p i m s' ∧
      s'.log = s.log ∧ ∃ o, s'.objects p = some o ∧ (o.sBuf, o.sLen) = (source, k)) R s := by
  obtain ⟨hp, o, ho, htook⟩ := ht
  rw [wp_update, ho]
  refine ⟨?_, by simp⟩
  rintro _ ⟨⟩
  refine ⟨⟨hp.setObject _, _, objects_setObject _ _ _, ?_⟩, rfl, _, objects_setObject _ _ _, rfl⟩
  exact htook.kept ⟨rfl, rfl, rfl, rfl, rfl, rfl⟩ (Nat.le_refl _)

/-- A body header is streamed: a part of the body that is not empty, and the end if it is the last. -/
theorem Taking.stream (hC : Listens C p) (ht : Taking true p i m s) (hb : h.isBody = true)
    (hpeek : bufPeek m 3 h.value.length = some h.value) :
    wp (obexObjectReceiveStream C h.hi h.value.length) (fun _ s' => Taking true p i m s' ∧
      ∃ gs, fragments s'.log = fragments s.log ++ gs ∧
        ∀ x : Pieces, gs.foldl Pieces.add x = ({ intake := i, pieces := x : Outflow }.take h).pieces)
      (fun _ _ => False) s := by
  have hkind : h.hi = obexHdrBody ∨ h.hi = obexHdrBodyEnd := of_decide_eq_true hb
  have hdistinct : obexHdrBody ≠ obexHdrBodyEnd := by decide
  rw [obexObjectReceiveStream]
  refine ht.parsing.selfObject ?_
  by_cases hspared : h.hi = obexHdrBody ∧ h.value.length = 0
  · rw [if_pos hspared]
    refine ⟨ht, [], by simp, fun x => ?_⟩
    have hnil : h.value = [] := List.eq_nil_of_length_eq_zero hspared.2
    simp [Outflow.take, hb, hspared.1, hdistinct, hnil]
  rw [if_neg hspared, wp_bind, wp_get]
  obtain ⟨hle, hvalue⟩ := bufPeek_some hpeek
  have hsource : slice s.rxMsg.buffer (s.rxMsg.data + 3) h.value.length = h.value := by
    rw [ht.parsing.rxMsg]
    exact hvalue.symm
  dsimp only
  rw [hsource]
  refine wp_seq (ht.note _ _) ?_
  rintro - s₁ ⟨ht₁, hl₁, o₁, ho₁, hf₁⟩
  obtain ⟨o₂, ho₂, htook⟩ := ht₁.took
  rw [wp_bind, wp_deref, ho₂]
  refine ⟨?_, by simp⟩
  rintro _ ⟨⟩
  rw [if_neg (by rw [htook.going]; simp)]
  refine wp_seq (ht₁.streamavail hC ⟨o₁, ho₁, hf₁⟩) ?_
  rintro - s₂ ⟨ht₂, hl₂⟩
  rw [hl₁] at hl₂
  rw [wp_when]
  refine ⟨fun hlast => ?_, fun hnot => ?_⟩
  · -- the last fragment, and then the end
    refine wp_seq (ht₂.note _ _) ?_
    rintro - s₃ ⟨ht₃, hl₃, hs₃⟩
    refine wp_conseq (ht₃.streamavail hC hs₃) ?_
    rintro - s₄ ⟨ht₄, hl₄⟩
    refine ⟨ht₄, [(some h.value, h.value.length), (some h.value, 0)], ?_, fun x => ?_⟩
    · rw [hl₄, hl₃, hl₂, List.append_assoc]
      rfl
    · simp [Outflow.take, hb, hlast.1, Pieces.add, fragmentBytes, hlast.2]
  · refine ⟨ht₂, [(some h.value, h.value.length)], hl₂, fun x => ?_⟩
    rcases hkind with hhi | hhi
    · have hpos : h.value.length ≠ 0 := fun h0 => hspared ⟨hhi, h0⟩
      simp [Outflow.take, hb, hhi, hdistinct, Pieces.add, fragmentBytes, hpos]
    · -- an empty last fragment is itself the end
      have h0 : h.value.length = 0 := by
        by_contra hne
        exact hnot ⟨hhi, hne⟩
      have hnil : h.value = [] := List.eq_nil_of_length_eq_zero h0
      simp [Outflow.take, hb, hhi, Pieces.add, hnil]

theorem streamingReceiver (hm : Grants C.malloc) (hC : Listens C p) (fs : List (Option Bytes × Nat)) :
    Receiver C p (fun _ => True) (Flowing p fs) fun x h => some (x.take h) := by
  refine ⟨fun ht => ht.taking.parsing, fun ht ho => ?_, fun b ht => ?_,
    fun {x m s h w} ht hv _ hc => ?_⟩
  · obtain ⟨o', ho', htook⟩ := ht.taking.took
    cases ho.symm.trans ho'
    exact htook.offset
  · exact ⟨⟨⟨ht.taking.parsing.object, ht.taking.parsing.alive, rfl⟩, ht.taking.took⟩, ht.streamed⟩
  · obtain ⟨ht, gs, hgs, hx⟩ := ht
    cases hb : h.isBody with
    | false =>
      refine wp_conseq (ht.put hm hv hb hc) ?_
      rintro err s' ⟨he, hlog, m', hm', ht'⟩
      refine ⟨he, m', hm', ?_, gs, by rw [hlog, hgs], ?_⟩
      · simpa [Outflow.take, hb] using ht'
      · simpa [Outflow.take, hb] using hx
    | true =>
      refine ht.body hv hb hc fun hpeek _ => ?_
      have hintake : (x.take h).intake = x.intake := by
        unfold Outflow.take
        rw [if_pos hb]
        split <;> rfl
      have hpieces : (x.take h).pieces =
        ({ intake := x.intake, pieces := pieces gs : Outflow }.take h).pieces := by
        rw [hx]
      obtain ⟨hp, o, ho, htook⟩ := id ht
      rw [receiveBodyHeader, wp_bind, wp_deref, ho]
      refine ⟨?_, by simp⟩
      rintro _ ⟨⟩
      rw [if_pos htook.srv]
      refine wp_seq (ht.stream hC hb hpeek) ?_
      rintro - s₁ ⟨ht₁, gs₁, hl₁, hstep⟩
      refine ⟨by simp, fun _ => ⟨x.intake, ht₁, fun m' s'' hm' hlog ht' => ⟨rfl, m', hm', ?_, ?_⟩⟩⟩
      · rw [hintake]
        exact ht'
      · refine ⟨gs ++ gs₁, ?_, ?_⟩
        · rw [hlog, hl₁, hgs, List.append_assoc]
        · rw [hpieces, ← hstep]
          exact List.foldl_append

/-! ## All packets -/

/-- The packets are received one after the other, up to the first that is refused. -/
def receiveAll (C : Ctx) : List Buf → M (List Int)
  | [] => pure []
  | m :: ms => do
    modify fun s => s.setRxMsg m
    let ret ← obexObjectReceive C
    if ret < 0 then pure [ret]
    else do
      let rets ← receiveAll C ms
      pure (ret :: rets)

/-- The message is a packet with these headers behind the common header. -/
def Bears (m : Buf) (hs : List Head) : Prop :=
  (∀ h ∈ hs, h.Valid) ∧ ∃ x : Bytes, x.length = 3 ∧ m.contents = x ++ hs.flatMap Head.encode

/-- What follows from `n` packets: one is refused, or the receiver has come to `x`. -/
def Ran {σ : Type} (T : σ → Buf → Obex → Prop) (n : Nat) (x : Option σ) (rets : List Int)
    (s : Obex) : Prop :=
  match x with
  | none => -1 ∈ rets
  | some a => rets = List.replicate n 1 ∧ ∃ m, T a m s

theorem Receiver.receiveAll {σ : Type} {T : σ → Buf → Obex → Prop} {step : σ → Head → Option σ} {a : σ}
    (hr : Receiver C p (fun _ => True) T step) {ms : List Buf} {pkts : List (List Head)}
    (hms : List.Forall₂ Bears ms pkts) (ht : ∃ m, T a m s) :
    wp (receiveAll C ms) (Ran T pkts.length (pkts.flatten.foldlM step a)) (fun _ _ => False) s := by
  induction hms generalizing a s with
  | nil => exact ⟨rfl, ht⟩
  | @cons m hs ms pkts hm hms ih =>
    obtain ⟨hv, x, hx, hc⟩ := hm
    obtain ⟨m₀, ht⟩ := ht
    rw [OpenObex.receiveAll, wp_bind, wp_modify]
    refine wp_seq (hr.receive hx (hr.rxMsg m ht) (fun h hh => ⟨hv h hh, trivial⟩) hc)
      fun ret s' hret => ?_
    rw [List.flatten_cons, List.foldlM_append]
    cases hfold : hs.foldlM step a with
    | none =>
      rw [hfold] at hret
      have hret : ret = -1 := hret
      subst hret
      rw [if_pos (by decide)]
      exact List.mem_singleton_self _
    | some a' =>
      rw [hfold] at hret
      obtain ⟨rfl, ht'⟩ := hret
      rw [if_neg (by decide)]
      refine wp_seq (ih ht') fun rets s'' h => ?_
      change Ran T _ (pkts.flatten.foldlM step a') (1 :: rets) s''
      cases hrest : pkts.flatten.foldlM step a' with
      | none =>
        rw [hrest] at h
        exact List.mem_cons_of_mem _ h
      | some b =>
        rw [hrest] at h
        obtain ⟨rfl, h⟩ := h
        exact ⟨rfl, h⟩

/-! ## When the buffer is enough -/

/-- No body begins when the length announced last is 2^31 or more, and the buffer of a body that ends
has a size of 32 bits. -/
def Ample : Intake → List Head → Prop
  | _, [] => True
  | i, h :: hs => ¬ i.Refuses h ∧
    (h.hi = obexHdrBodyEnd → ((i.current h.value.length).add h.value).whole = true) ∧
    Ample (i.take h) hs

instance decidableAmple : (i : Intake) → (hs : List Head) → Decidable (Ample i hs)
  | _, [] => .isTrue trivial
  | i, h :: hs =>
    have : Decidable (Ample (i.take h) hs) := decidableAmple (i.take h) hs
    inferInstanceAs (Decidable (¬ i.Refuses h ∧
      (h.hi = obexHdrBodyEnd → ((i.current h.value.length).add h.value).whole = true) ∧
        Ample (i.take h) hs))

/-- The bodies that are queued are whole. -/
def Intake.Whole (i : Intake) : Prop := ∀ x ∈ i.queue, x.whole = true

theorem Intake.whole_put (i : Intake) (h : Head) : (i.put h).Whole ↔ i.Whole := by
  simp [Intake.Whole, Intake.put, or_imp, forall_and]

theorem Intake.whole_gather (i : Intake) (h : Head) : (i.gather h).Whole ↔
    i.Whole ∧ (h.hi = obexHdrBodyEnd → ((i.current h.value.length).add h.value).whole = true) := by
  unfold Intake.gather
  by_cases hend : h.hi = obexHdrBodyEnd
  · simp [Intake.Whole, hend, or_imp, forall_and]
  · simp [Intake.Whole, hend]

theorem Intake.whole_take (i : Intake) (h : Head) : (i.take h).Whole ↔
    i.Whole ∧ (h.hi = obexHdrBodyEnd → ((i.current h.value.length).add h.value).whole = true) := by
  unfold Intake.take
  cases hb : h.isBody with
  | true => exact i.whole_gather h
  | false =>
    have hno : h.hi ≠ obexHdrBodyEnd := fun he => by simp [Head.isBody, he] at hb
    simp [Intake.whole_put, hno]

/-- A body that is not whole stays in the queue. -/
theorem Intake.whole_of_foldlM {i i' : Intake} {hs : List Head} (h : hs.foldlM Intake.step i = some i')
    (hw : i'.Whole) : i.Whole := by
  induction hs generalizing i with
  | nil =>
    cases h
    exact hw
  | cons x hs ih =>
    rw [List.foldlM_cons] at h
    unfold Intake.step at h
    by_cases hr : i.Refuses x
    · rw [if_pos hr] at h
      cases h
    · rw [if_neg hr] at h
      exact ((i.whole_take x).1 (ih h)).1

theorem ample_iff {i : Intake} {hs : List Head} (hi : i.Whole) :
    Ample i hs ↔ ∃ i', hs.foldlM Intake.step i = some i' ∧ i'.Whole := by
  induction hs generalizing i with
  | nil => exact ⟨fun _ => ⟨i, rfl, hi⟩, fun _ => trivial⟩
  | cons x hs ih =>
    rw [List.foldlM_cons]
    unfold Intake.step
    by_cases hr : i.Refuses x
    · rw [if_pos hr]
      constructor
      · exact fun h => absurd hr h.1
      · rintro ⟨i', h, -⟩
        cases h
    · rw [if_neg hr]
      change _ ↔ ∃ i', hs.foldlM Intake.step (i.take x) = some i' ∧ i'.Whole
      constructor
      · rintro ⟨-, hw, hrest⟩
        exact (ih ((i.whole_take x).2 ⟨hi, hw⟩)).1 hrest
      · rintro ⟨i', h, hw⟩
        have hx := Intake.whole_of_foldlM h hw
        exact ⟨hr, ((i.whole_take x).1 hx).2, (ih hx).2 ⟨i', h, hw⟩⟩

/-! ## Two descriptions of one list of headers -/

def Item.ofBody (x : Item) : Bool := decide (x.head.hi = obexHdrBody)

/-- What the buffered receiver has taken and what the streaming receiver has. -/
structure Mates (i : Intake) (x : Outflow) : Prop where
  others : (i.queue.filter fun y => !y.ofBody).map Item.head = x.intake.queue.map Item.head
  bodies : (i.queue.filter Item.ofBody).map (fun y => y.head.value) = x.pieces.done
  current : ((i.body.map Gathered.value).getD []) = x.pieces.current
  whole : ∀ y ∈ i.queue, y.ofBody = false → y.whole = true
  streamed : ∀ y ∈ x.intake.queue, y.whole = true

theorem current_value (i : Intake) (n : Nat) : (i.current n).value =
    (i.body.map Gathered.value).getD [] := by
  unfold Intake.current
  cases i.body <;> rfl

theorem Mates.take {i : Intake} {x : Outflow} (hx : Mates i x) (h : Head) :
    Mates (i.take h) (x.take h) := by
  obtain ⟨h1, h2, h3, h4, h5⟩ := hx
  have hdistinct : obexHdrBody ≠ obexHdrBodyEnd := by decide
  unfold Intake.take Outflow.take
  cases hb : h.isBody with
  | false =>
    have hno : h.hi ≠ obexHdrBody := fun he => by simp [Head.isBody, he] at hb
    refine ⟨?_, ?_, h3, ?_, ?_⟩
    · simp [Intake.put, List.filter_append, Item.ofBody, hno] at h1 ⊢
      exact h1
    · simp [Intake.put, List.filter_append, Item.ofBody, hno] at h2 ⊢
      exact h2
    · intro y hy hof
      have hy : y ∈ i.queue ++ [{ head := h, whole := true }] := hy
      rcases List.mem_append.1 hy with hy | hy
      · exact h4 y hy hof
      · rw [List.mem_singleton.1 hy]
    · intro y hy
      have hy : y ∈ x.intake.queue ++ [{ head := h, whole := true }] := hy
      rcases List.mem_append.1 hy with hy | hy
      · exact h5 y hy
      · rw [List.mem_singleton.1 hy]
  | true =>
    have hvalue : ((i.current h.value.length).add h.value).value = x.pieces.current ++ h.value := by
      rw [← h3, ← current_value i h.value.length]
      rfl
    unfold Intake.gather
    by_cases hend : h.hi = obexHdrBodyEnd
    · simp only [if_pos hend, if_pos]
      refine ⟨?_, ?_, rfl, ?_, h5⟩
      · simpa [List.filter_append, Item.ofBody] using h1
      · simp only [List.filter_append, List.map_append, h2]
        simp [Item.ofBody, hvalue]
      · simp only [List.mem_append, List.mem_singleton]
        rintro y (hy | rfl) hof
        · exact h4 y hy hof
        · exact absurd hof (by simp [Item.ofBody])
    · simp only [if_neg hend, if_pos]
      exact ⟨h1, h2, hvalue, h4, h5⟩

theorem Mates.foldl {i i' : Intake} {x : Outflow} {hs : List Head} (hx : Mates i x)
    (h : hs.foldlM Intake.step i = some i') : Mates i' (hs.foldl Outflow.take x) := by
  induction hs generalizing i x with
  | nil =>
    cases h
    exact hx
  | cons y hs ih =>
    rw [List.foldlM_cons] at h
    unfold Intake.step at h
    by_cases hr : i.Refuses y
    · rw [if_pos hr] at h
      cases h
    · rw [if_neg hr] at h
      exact ih (hx.take y) h

theorem foldlM_some {α β : Type} (f : β → α → β) (b : β) (l : List α) :
    l.foldlM (fun b a => some (f b a)) b = some (l.foldl f b) := by
  induction l generalizing b with
  | nil => rfl
  | cons a l ih => exact ih (f b a)

theorem length_done (x : Outflow) (hs : List Head) : (hs.foldl Outflow.take x).pieces.done.length =
    x.pieces.done.length + hs.countP fun h => decide (h.hi = obexHdrBodyEnd) := by
  induction hs generalizing x with
  | nil => rfl
  | cons h hs ih =>
    rw [List.foldl_cons, ih, List.countP_cons]
    unfold Outflow.take
    by_cases hend : h.hi = obexHdrBodyEnd
    · have hb : h.isBody = true := decide_eq_true (.inr hend)
      simp only [hb, hend, if_pos, List.length_append, List.length_singleton, decide_true]
      omega
    · cases hb : h.isBody <;> simp [hend]

/-! ## What is found in the queue -/

/-- The bytes `OBEX_ObjectGetNextHeader` hands out. -/
def queuedValue (e : HeaderElement) : Option Bytes := e.buf.bind fun b => bufPeek b 0 e.length

def HeaderElement.ofBody (e : HeaderElement) : Bool := decide (e.hi = obexHdrBody)

theorem Element.value {y : Item} {e : HeaderElement} (h : Element y e) :
    queuedValue e = some y.head.value ↔ y.whole = true := by
  obtain ⟨hhi, b, hb, hlen, hwhole, hlost⟩ := h
  have hpeek : queuedValue e = some b.contents := by
    unfold queuedValue
    rw [hb, Option.bind_some, hlen, bufPeek_of_le (by omega)]
    exact congrArg some (List.take_of_length_le (Nat.le_of_eq (length_contents b)))
  rw [hpeek]
  constructor
  · intro h
    cases hw : y.whole with
    | true => rfl
    | false =>
      have hlt := hlost hw
      rw [← length_contents, Option.some.inj h] at hlt
      exact absurd hlt (Nat.lt_irrefl _)
  · intro hw
    rw [hwhole hw]

/-- The queue has the bytes that came exactly when it is whole. -/
theorem values_iff {q : List Item} {es : List HeaderElement} (h : List.Forall₂ Element q es) :
    es.map queuedValue = (q.map fun y => y.head.value).map some ↔ ∀ y ∈ q, y.whole = true := by
  induction h with
  | nil => simp
  | @cons y e q es hye h ih =>
    rw [List.forall_mem_cons, ← ih, ← hye.value]
    simp only [List.map_cons, List.cons.injEq]

theorem headers_of {q : List Item} {es : List HeaderElement} (h : List.Forall₂ Element q es)
    (hq : ∀ y ∈ q, y.whole = true) :
    es.map (fun e => (e.hi, queuedValue e)) = (q.map Item.head).map fun h => (h.hi, some h.value) := by
  induction h with
  | nil => rfl
  | @cons y e q es hye h ih =>
    obtain ⟨hy, hq⟩ := List.forall_mem_cons.1 hq
    simp only [List.map_cons, ih hq, hye.hi, hye.value.2 hy]

theorem Element.ofBody {y : Item} {e : HeaderElement} (h : Element y e) : e.ofBody = y.ofBody := by
  simp [HeaderElement.ofBody, Item.ofBody, h.hi]

theorem filter_bodies {q : List Item} {es : List HeaderElement} (h : List.Forall₂ Element q es) :
    List.Forall₂ Element (q.filter Item.ofBody) (es.filter HeaderElement.ofBody) := by
  refine List.rel_filter (fun y e hye => ?_) h
  simp [Element.ofBody hye]

theorem filter_others {q : List Item} {es : List HeaderElement} (h : List.Forall₂ Element q es) :
    List.Forall₂ Element (q.filter fun y => !y.ofBody) (es.filter fun e => !e.ofBody) := by
  refine List.rel_filter (fun y e hye => ?_) h
  simp [Element.ofBody hye]

/-- A queue whose other headers are whole is whole if its bodies are. -/
theorem whole_iff {q : List Item} (hq : ∀ y ∈ q, y.ofBody = false → y.whole = true) :
    (∀ y ∈ q.filter Item.ofBody, y.whole = true) ↔ ∀ y ∈ q, y.whole = true := by
  constructor
  · intro h y hy
    cases hof : y.ofBody with
    | false => exact hq y hy hof
    | true => exact h y (List.mem_filter.2 ⟨hy, hof⟩)
  · exact fun h y hy => h y (List.mem_filter.1 hy).1

/-! ## Agreement -/

/-- The object is new, and bodies are streamed or not. -/
def Blank (srv : Bool) (p : Ptr) (s : Obex) : Prop :=
  s.object = some p ∧ ∃ o, s.objects p = some o ∧ o.sSrv = srv ∧ o.rxHeaderq = [] ∧ o.rxBody = none ∧
    o.headeroffset = 0 ∧ o.hintedBodyLen = 0 ∧ o.abort = false

theorem Blank.took {srv : Bool} (h : Blank srv p s) :
    Taking srv p { queue := [], body := none, hint := 0 } s.rxMsg s := by
  obtain ⟨hobj, o, ho, hsrv, hq, hb, hoff, hhint, habort⟩ := h
  refine ⟨⟨hobj, ⟨o, ho⟩, rfl⟩, o, ho, hsrv, habort, hoff, hhint, Nat.zero_lt_succ _, ?_, ?_, ?_, ?_⟩
  · rw [hb]
    exact .none
  · rw [hq]
    exact .nil
  · simp [hq]
  · simp [hq]

/-- The streams that ended after the first `k` fragments of the log. -/
def streams (k : Nat) (t : Obex) : List Bytes := (pieces ((fragments t.log).drop k)).done

/-- The two runs for packets with `n` last fragments: the buffered one ends in `s` with the object `p`,
the streaming one, with `k` fragments before, in `t` with `q`. -/
structure Agree (p q : Ptr) (n k : Nat) (rets rets' : List Int) (s t : Obex) : Prop where
  accepted : rets = rets'
  bodies : ∃ o, s.objects p = some o ∧
    (o.rxHeaderq.filter HeaderElement.ofBody).map queuedValue = (streams k t).map some
  ends : (streams k t).length = n
  others : ∃ o o', s.objects p = some o ∧ t.objects q = some o' ∧
    (o.rxHeaderq.filter fun e => !e.ofBody).map (fun e => (e.hi, queuedValue e)) =
      o'.rxHeaderq.map fun e => (e.hi, queuedValue e)

variable {C' : Ctx} {q : Ptr} {t : Obex} {ms ms' : List Buf} {pkts : List (List Head)}

/-- The receiver before the first packet. -/
def noIntake : Intake := { queue := [], body := none, hint := 0 }

theorem buffered_run (hm : Plenty C.malloc) (hs : Blank false p s) (hms : List.Forall₂ Bears ms pkts) :
    wp (receiveAll C ms) (Ran (Taking false p) pkts.length (pkts.flatten.foldlM Intake.step noIntake))
      (fun _ _ => False) s :=
  (bufferedReceiver hm p).receiveAll hms ⟨_, hs.took⟩

/-- What the streaming receiver has made of the headers. -/
def outflow (hs : List Head) : Outflow :=
  hs.foldl Outflow.take { intake := noIntake, pieces := { done := [], current := [] } }

theorem streaming_run (hm : Plenty C'.malloc) (hC : Listens C' q) (ht : Blank true q t)
    (hms : List.Forall₂ Bears ms' pkts) :
    wp (receiveAll C' ms') (fun rets t' => rets = List.replicate pkts.length 1 ∧
      streams (fragments t.log).length t' = (outflow pkts.flatten).pieces.done ∧
      ∃ m, Taking true q (outflow pkts.flatten).intake m t') (fun _ _ => False) t := by
  have hflow : Flowing q (fragments t.log) { intake := noIntake, pieces := pieces [] } t.rxMsg t :=
    ⟨ht.took, [], (List.append_nil _).symm, rfl⟩
  have hrun := (streamingReceiver hm.grants hC (fragments t.log)).receiveAll hms ⟨_, hflow⟩
  rw [foldlM_some] at hrun
  refine wp_conseq hrun ?_
  rintro rets t' ⟨hrets, m, ht', gs, hgs, hpieces⟩
  refine ⟨hrets, ?_, m, ht'⟩
  rw [streams, hgs, List.drop_left, hpieces]
  rfl

theorem mates_of {hs : List Head} {i : Intake} (h : hs.foldlM Intake.step noIntake = some i) :
    Mates i (outflow hs) := by
  refine Mates.foldl ⟨rfl, rfl, rfl, ?_, ?_⟩ h <;> simp [noIntake]

/-- The two receivers agree on packets of complete headers exactly when the buffered one has the
space. -/
theorem reception_agrees (hm : Plenty C.malloc) (hm' : Plenty C'.malloc) (hC : Listens C' q)
    (hs : Blank false p s) (ht : Blank true q t) (hms : List.Forall₂ Bears ms pkts)
    (hms' : List.Forall₂ Bears ms' pkts) :
    Twin (Agree p q (pkts.flatten.countP fun h => decide (h.hi = obexHdrBodyEnd))
      (fragments t.log).length)
        (fun _ _ => False) (receiveAll C ms) (receiveAll C' ms') s t ↔
      Ample noIntake pkts.flatten := by
  have hbuf := buffered_run hm hs hms
  have hstr := streaming_run hm' hC ht hms'
  rw [ample_iff (by simp [Intake.Whole, noIntake])]
  constructor
  · intro htwin
    obtain ⟨rets, rets', s', t', hagree, hbuf, hret, hstreams, -⟩ := htwin.both hbuf hstr
    cases hfold : pkts.flatten.foldlM Intake.step noIntake with
    | none =>
      rw [hfold] at hbuf
      have hbuf : -1 ∈ rets := hbuf
      rw [hagree.accepted, hret] at hbuf
      simp at hbuf
    | some i =>
      rw [hfold] at hbuf
      obtain ⟨-, m, -, o, ho, htook⟩ := hbuf
      have hx := mates_of hfold
      obtain ⟨o', ho', hbodies⟩ := hagree.bodies
      cases ho.symm.trans ho'
      rw [hstreams, ← hx.bodies, values_iff (filter_bodies htook.queue), whole_iff hx.whole] at hbodies
      exact ⟨i, rfl, hbodies⟩
  · rintro ⟨i, hfold, hw⟩
    have hx := mates_of hfold
    rw [hfold] at hbuf
    refine Twin.of_wp hbuf hstr ?_
    rintro rets rets' s' t' ⟨hrets, m, -, o, ho, htook⟩ ⟨hrets', hstreams, m', -, o', ho', htook'⟩
    refine ⟨hrets.trans hrets'.symm, ⟨o, ho, ?_⟩, ?_, o, o', ho, ho', ?_⟩
    · rw [hstreams, ← hx.bodies, values_iff (filter_bodies htook.queue)]
      exact fun y hy => hw y (List.mem_filter.1 hy).1
    · rw [hstreams]
      exact (length_done _ _).trans (Nat.zero_add _)
    · rw [headers_of (filter_others htook.queue) fun y hy => hw y (List.mem_filter.1 hy).1, hx.others]
      exact (headers_of htook'.queue hx.streamed).symm

/-! ## A length of 2^31 -/

/-- A peer that says nothing, with as much memory as the C library grants. -/
def plentyPeer : Env := { quietPeer with malloc := fun n => decide (n ≤ ptrdiffMax) }

theorem plentyPeer_plenty : Plenty (plentyPeer.ctx .all 1).malloc := fun _ => rfl

theorem plentyPeer_listens (p : Ptr) : Listens (plentyPeer.ctx .all 1) p := by
  intro notice s o hs ho
  rw [Env.ctx, wp_bind, wp_get, wp_bind]
  exact ⟨hs, rfl, Nat.le_refl _, rfl, o, ho, rfl, rfl, rfl, rfl, rfl, rfl⟩

theorem exists_blank (srv : Bool) : ∃ s, Blank srv 0 s := by
  refine ⟨{ obexInit .custom with
    object := some 0, objects := fun _ => some { zeroObject with sSrv := srv } }, rfl, _, rfl, ?_⟩
  exact ⟨rfl, rfl, rfl, rfl, rfl, rfl⟩

theorem exists_contents (d : Bytes) : ∃ m : Buf, m.contents = d := by
  obtain ⟨m, hm, -⟩ : ∃ m, bufInsertEnd (fun _ => true) (freshBuf d.length) d = some m ∧ _ :=
    bufInsertEnd_avail (Nat.le_add_left _ _)
  refine ⟨m, ?_⟩
  rw [(bufInsertEnd_some hm).1, contents_freshBuf, List.nil_append]

theorem exists_bears (hs : List Head) (hv : ∀ h ∈ hs, h.Valid) : ∃ m, Bears m hs := by
  obtain ⟨m, hm⟩ := exists_contents ([0x82, 0, 0] ++ hs.flatMap Head.encode)
  exact ⟨m, hv, [0x82, 0, 0], rfl, hm⟩

/-- A length of 2^31 is announced in front of a body of one byte. -/
def longBody : List Head :=
  [{ hi := obexHdrLength, value := [0x80, 0, 0, 0] }, { hi := obexHdrBodyEnd, value := [1] }]

/-- The buffered receiver refuses what the streaming one takes. -/
theorem long_body_refused : ¬ ∀ (C C' : Ctx) (p q : Ptr) (s t : Obex) (ms ms' : List Buf)
    (pkts : List (List Head)), Plenty C.malloc → Plenty C'.malloc → Listens C' q → Blank false p s →
      Blank true q t → List.Forall₂ Bears ms pkts → List.Forall₂ Bears ms' pkts →
      Twin (Agree p q (pkts.flatten.countP fun h => decide (h.hi = obexHdrBodyEnd))
        (fragments t.log).length)
        (fun _ _ => False) (receiveAll C ms) (receiveAll C' ms') s t := by
  intro h
  obtain ⟨s, hs⟩ := exists_blank false
  obtain ⟨t, ht⟩ := exists_blank true
  obtain ⟨m, hm⟩ := exists_bears longBody (by decide)
  have hms : List.Forall₂ Bears [m] [longBody] := .cons hm .nil
  have htwin := h (plentyPeer.ctx .all 1) (plentyPeer.ctx .all 1) 0 0 s t [m] [m]
    [longBody] plentyPeer_plenty
    plentyPeer_plenty (plentyPeer_listens 0) hs ht hms hms
  obtain ⟨rets, rets', s', t', hagree, hbuf, hret, -⟩ := htwin.both
    (buffered_run plentyPeer_plenty hs hms)
    (streaming_run plentyPeer_plenty (plentyPeer_listens 0) ht hms)
  have hfold : [longBody].flatten.foldlM Intake.step noIntake = none := by rfl
  rw [hfold] at hbuf
  have hbuf : -1 ∈ rets := hbuf
  rw [hagree.accepted, hret] at hbuf
  simp at hbuf

/-- A body of two fragments with its length in front. -/
def shortBody : List (List Head) :=
  [[{ hi := obexHdrLength, value := [0, 0, 0, 3] }, { hi := obexHdrBody, value := [1, 2] }],
    [{ hi := obexHdrBodyEnd, value := [3] }]]

theorem reception_agrees_short : ∃ (s t : Obex) (ms : List Buf), Blank false 0 s ∧ Blank true 0 t ∧
    List.Forall₂ Bears ms shortBody ∧ Twin (Agree 0 0 1 (fragments t.log).length) (fun _ _ => False)
      (receiveAll (plentyPeer.ctx .all 1) ms) (receiveAll (plentyPeer.ctx .all 1) ms) s t := by
  obtain ⟨s, hs⟩ := exists_blank false
  obtain ⟨t, ht⟩ := exists_blank true
  obtain ⟨m, hm⟩ := exists_bears (shortBody.headD []) (by decide)
  obtain ⟨m', hm'⟩ := exists_bears (shortBody.tail.headD []) (by decide)
  have hms : List.Forall₂ Bears [m, m'] shortBody := .cons hm (.cons hm' .nil)
  exact ⟨s, t, [m, m'], hs, ht, hms, (reception_agrees plentyPeer_plenty plentyPeer_plenty
    (plentyPeer_listens 0) hs ht hms hms).2 (by decide)⟩

end OpenObex
