import OpenObex.Proof.ServerRole
import OpenObex.Proof.Service

/-!
# One response for each packet

Each function of the server ends a packet with one response: a bare one from `obex_response_request`, or
one packet of its object from `obex_object_send`. The exceptions are an object that the application has
suspended before the response is due, which `answerGuard` bars, and an `obex_object_send` that fails
before its packet is built, which is followed by `OBEX_EV_LINKERR` and happens only where a stream runs
dry or a header is too long for the peer (`one_response`).
-/

namespace OpenObex

open Mem Prog

/-! ## Responses and link errors -/

/-- The packets handed to the transport. -/
def responses (log : List Obs) : List Bytes := log.filterMap fun
  | .write _ _ d => some d
  | _ => none

/-- An `OBEX_EV_LINKERR`. -/
def Obs.isLinkerr : Obs → Bool
  | .event n => decide (n.event = .linkerr)
  | _ => false

def linkErrors (log : List Obs) : Nat := log.countP Obs.isLinkerr

/-- What a packet has been answered with so far. -/
def tally (log : List Obs) : List Bytes × Nat := (responses log, linkErrors log)

theorem tally_write (log : List Obs) (p : Option Ptr) (k : PacketKind) (d : Bytes) :
    tally (log ++ [.write p k d]) = (responses log ++ [d], linkErrors log) := by
  simp [tally, responses, linkErrors, Obs.isLinkerr]

theorem tally_linkerr (log : List Obs) {n : Notice} (h : n.event = .linkerr) :
    tally (log ++ [.event n]) = (responses log, linkErrors log + 1) := by
  simp [tally, responses, linkErrors, Obs.isLinkerr, h]

/-- What is no answer. -/
def Obs.aside : Obs → Bool
  | .write _ _ _ => false
  | x => !x.isLinkerr

theorem tally_aside (log : List Obs) {x : Obs} (h : x.aside = true) :
    tally (log ++ [x]) = tally log := by
  cases x <;> simp_all [Obs.aside, tally, responses, linkErrors, Obs.isLinkerr]

/-- The events that come before the response to a packet. -/
def Event.early : Event → Bool
  | .reqhint | .reqcheck | .req | .streamavail | .unexpected => true
  | _ => false

/-- With `calm`, the current object is not suspended, with `strict` its headers fit. -/
def responseReady (strict calm : Bool) (s : Obex) : Bool :=
  s.current.all fun o => (!calm || !o.suspend) && (!strict || decide (FitsMtu s.mtuTx o))

/-- No library call comes after an `OBEX_EV_LINKERR`. With `calm`, no packet comes for a suspended
object, and none is suspended before its response is due. With `strict`, every `OBEX_EV_STREAMEMPTY` is
answered and the headers fit. -/
def answerGuard (strict calm : Bool) : Guard where
  op op s := decide (linkErrors s.log = 0) && match op with
    | .customDataFeed _ | .handleInput => responseReady strict calm s
    | _ => true
  after n s := s.current.all fun o =>
    (!calm || !n.event.early || !o.suspend) &&
      (!strict || decide (n.event = .streamempty → Answered o) && decide (FitsMtu (nextMtu n s) o))

/-- A request is in progress; `w` and `k` are the responses and link errors so far. -/
structure InService (strict : Bool) (w : List Bytes) (k : Nat) (p : Ptr) (st : State) (s : Obex) :
    Prop where
  object : s.object = some p
  mode : s.mode = .srv
  state : s.state = st
  mtuRx : obexMinimumMtu ≤ s.mtuRx
  fits : strict = true → ∀ o, s.objects p = some o → FitsMtu s.mtuTx o
  tally : tally s.log = (w, k)

/-- Its response is due. -/
structure Replying (strict calm : Bool) (w : List Bytes) (k : Nat) (p : Ptr) (st : State) (s : Obex) :
    Prop extends InService strict w k p st s where
  awake : calm = true → ∀ o, s.objects p = some o → o.suspend = false

/-- A packet has been answered. -/
structure Replied (strict calm : Bool) (w : List Bytes) (k : Nat) (s : Obex) : Prop where
  mode : s.mode = .srv
  mtuRx : obexMinimumMtu ≤ s.mtuRx
  inv : linkErrors s.log = k → ServerInv s
  reply : (∃ d, hasFinal d = true ∧ responses s.log = w ++ [d] ∧ linkErrors s.log ≤ k + 1) ∨
    (strict = false ∧ tally s.log = (w, k + 1)) ∨ (calm = false ∧ tally s.log = (w, k))

/-- What `obex_object_send` has returned: a packet is written, or it failed before, or it had to
wait. -/
def Attempt (strict calm : Bool) (w : List Bytes) (k : Nat) (p : Ptr) (st : State) (r : Int)
    (s : Obex) :
    Prop :=
  (∃ d, hasFinal d = true ∧ InService strict (w ++ [d]) k p st s) ∨
    (r < 0 ∧ strict = false ∧ InService strict w k p st s) ∨
    (r = 0 ∧ calm = false ∧ InService strict w k p st s)

section
variable {strict calm : Bool} {w : List Bytes} {k : Nat} {p q : Ptr} {st st' : State} {s : Obex}

namespace InService

theorem inv (h : InService strict w k p st s) (hi : st ≠ .idle) (hs : st ≠ .start) : ServerInv s :=
  ⟨h.mode, h.mtuRx, by simp [h.object, h.state, hi], by rw [h.state]; exact hs⟩

theorem replied {d : Bytes} (h : InService strict (w ++ [d]) k p st s) (hd : hasFinal d = true)
    (hi : st ≠ .idle) (hs : st ≠ .start) : Replied strict calm w k s := by
  have ht := h.tally
  simp only [OpenObex.tally, Prod.mk.injEq] at ht
  exact ⟨h.mode, h.mtuRx, fun _ => h.inv hi hs, .inl ⟨d, hd, ht.1, by simp [ht.2]⟩⟩

theorem setTxMsg (h : InService strict w k p st s) (b : Buf) :
    InService strict w k p st (s.setTxMsg b) :=
  ⟨h.object, h.mode, h.state, h.mtuRx, h.fits, h.tally⟩

theorem setRxMsg (h : InService strict w k p st s) (b : Buf) :
    InService strict w k p st (s.setRxMsg b) :=
  ⟨h.object, h.mode, h.state, h.mtuRx, h.fits, h.tally⟩

theorem setState (h : InService strict w k p st s) : InService strict w k p st' (s.setState .srv st') :=
  ⟨h.object, rfl, rfl, h.mtuRx, h.fits, h.tally⟩

theorem emit (h : InService strict w k p st s) {x : Obs} (hx : x.aside = true) :
    InService strict w k p st (s.emit x) :=
  ⟨h.object, h.mode, h.state, h.mtuRx, h.fits, (tally_aside s.log hx).trans h.tally⟩

theorem write (h : InService strict w k p st s) (x : Option Ptr) (kind : PacketKind) (d : Bytes) :
    InService strict (w ++ [d]) k p st (s.emit (.write x kind d)) := by
  have ht := h.tally
  simp only [OpenObex.tally, Prod.mk.injEq] at ht
  refine ⟨h.object, h.mode, h.state, h.mtuRx, h.fits, ?_⟩
  rw [Obex.emit, tally_write, ht.1, ht.2]

theorem setObject (h : InService strict w k p st s) {o' : ObexObject}
    (hf : q = p → strict = true → FitsMtu s.mtuTx o') :
    InService strict w k p st (s.setObject q (some o')) := by
  refine ⟨h.object, h.mode, h.state, h.mtuRx, fun hstrict o ho => ?_, h.tally⟩
  rcases objects_setObject_some ho with ⟨hq, ho⟩ | ⟨-, ho⟩
  · cases ho
    exact hf hq.symm hstrict
  · exact h.fits hstrict o ho

end InService

namespace Replying

theorem setRxMsg (h : Replying strict calm w k p st s) (b : Buf) :
    Replying strict calm w k p st (s.setRxMsg b) :=
  ⟨h.toInService.setRxMsg b, h.awake⟩

theorem setState (h : Replying strict calm w k p st s) :
    Replying strict calm w k p st' (s.setState .srv st') :=
  ⟨h.toInService.setState, h.awake⟩

theorem emit (h : Replying strict calm w k p st s) {x : Obs} (hx : x.aside = true) :
    Replying strict calm w k p st (s.emit x) := ⟨h.toInService.emit hx, h.awake⟩

/-- A field of an object changes that has nothing to do with its response. -/
theorem setObject (h : Replying strict calm w k p st s) {o o' : ObexObject} (ho : s.objects q = some o)
    (hq : o'.txHeaderq = o.txHeaderq) (hs : o'.suspend = o.suspend) :
    Replying strict calm w k p st (s.setObject q (some o')) := by
  refine ⟨h.toInService.setObject fun he hstrict => ?_, fun hcalm x hx => ?_⟩
  · subst he
    have hfits := h.fits hstrict o ho
    unfold FitsMtu at *
    rwa [hq]
  · rcases objects_setObject_some hx with ⟨he, hx⟩ | ⟨-, hx⟩
    · cases hx
      subst he
      rw [hs]
      exact h.awake hcalm o ho
    · exact h.awake hcalm x hx

theorem asleep (h : Replying strict calm w k p st s) {o : ObexObject} (ho : s.objects p = some o)
    (hs : o.suspend = true) (hi : st ≠ .idle) (hst : st ≠ .start) : Replied strict calm w k s := by
  refine ⟨h.mode, h.mtuRx, fun _ => h.inv hi hst, .inr (.inr ⟨?_, h.tally⟩)⟩
  cases hcalm : calm with
  | false => rfl
  | true => cases hs.symm.trans (h.awake hcalm o ho)

end Replying

namespace Attempt

variable {r : Int}

theorem failed (h : Attempt strict calm w k p st r s) (hr : r < 0) :
    (∃ d, hasFinal d = true ∧ InService strict (w ++ [d]) k p st s) ∨
      strict = false ∧ InService strict w k p st s := by
  rcases h with h | ⟨-, h⟩ | ⟨h, -⟩
  · exact .inl h
  · exact .inr h
  · omega

theorem passed (h : Attempt strict calm w k p st r s) (hr : 0 ≤ r) :
    (∃ d, hasFinal d = true ∧ InService strict (w ++ [d]) k p st s) ∨
      calm = false ∧ InService strict w k p st s := by
  rcases h with h | ⟨h, -⟩ | ⟨-, h⟩
  · exact .inl h
  · omega
  · exact .inr h

theorem done (h : Attempt strict calm w k p st r s) (hr : 0 < r) :
    ∃ d, hasFinal d = true ∧ InService strict (w ++ [d]) k p st s := by
  rcases h with h | ⟨h, -⟩ | ⟨h, -⟩
  · exact h
  · omega
  · omega

end Attempt

theorem Replied.setObject (h : Replied strict calm w k s) (q : Ptr) (o : Option ObexObject) :
    Replied strict calm w k (s.setObject q o) :=
  ⟨h.mode, h.mtuRx, fun hk => ⟨h.mode, h.mtuRx, (h.inv hk).object, (h.inv hk).state⟩, h.reply⟩

end

theorem RxStep.suspend {o o' : ObexObject} (h : RxStep o o') : o'.suspend = o.suspend := by
  have herase : o'.eraseRx = o.eraseRx := h
  have hs := congrArg ObexObject.suspend herase
  exact hs

/-! ## Writing a packet -/

/-- What counts the responses and is not touched by their writing. -/
structure Counts (P : List Bytes → Obex → Prop) : Prop where
  txMsg : ∀ w s b, P w s → P w (s.setTxMsg b)
  io : ∀ w s chunk r, P w s → P w (s.emit (.io chunk r))
  write : ∀ w s x k d, P w s → P (w ++ [d]) (s.emit (.write x k d))

namespace Counts

variable {E : Env} {G : Guard} {n : Nat} {P : List Bytes → Obex → Prop} (F : Counts P)
include F

theorem writeFrame (w : List Bytes) : WriteFrame (E.ctx G n) (P w) NoNullObject False := by
  refine ⟨stops_noNullObject _, F.txMsg w, fun chunk s hs => ?_, by simp⟩
  rw [ctx_write]
  exact wp_transportWrite (fun _ => ⟨F.io w s _ _ hs, by simp⟩) (by simp [NoNullObject])

/-- A packet is handed to the transport, whether it can be written or not. -/
theorem packet {w : List Bytes} {s : Obex} (hs : P w s) (object : Option Ptr) (kind : PacketKind)
    (op : UInt8) :
    wp (obexDataRequest (E.ctx G n) object kind (op ||| obexFinal))
      (fun _ s' => ∃ d, hasFinal d = true ∧ P (w ++ [d]) s') NoNullObject s := by
  let d := OpenObex.packet (op ||| obexFinal) s.txMsg.contents
  have hhead : d.head? = some (op ||| obexFinal) := rfl
  have hd : hasFinal d = true := hasFinal_of_head hhead
  refine wp_conseq (wp_dataRequest (F.writeFrame (w ++ [d])) (fun e he => he) fun b hb => ?_)
    fun _ s' hs' => ⟨d, hd, hs'.1⟩
  rw [hb]
  exact F.write w _ object kind d (F.txMsg w s b hs)

theorem response {w : List Bytes} {s : Obex} (hs : P w s) (opcode : UInt8) :
    wp (obexResponseRequest (E.ctx G n) opcode)
      (fun _ s' => ∃ d, hasFinal d = true ∧ P (w ++ [d]) s') NoNullObject s := by
  rw [obexResponseRequest, wp_bind, wp_modify]
  exact wp_seq (F.packet (F.txMsg w s _ hs) none .response opcode) fun _ _ hs => hs

end Counts

theorem counts_inService (strict : Bool) (k : Nat) (p : Ptr) (st : State) :
    Counts fun w => InService strict w k p st where
  txMsg _ _ b hs := hs.setTxMsg b
  io _ _ _ _ hs := hs.emit rfl
  write _ _ x kind d hs := hs.write x kind d

section
variable {E : Env} {G : Guard} {n : Nat} (happ : ∀ log, ∀ c ∈ E.app log, c.passive = true)
include happ

/-! ## Events -/

/-- Calls that neither send nor deliver leave the handle alone. -/
theorem passive_eventcb {R : Stop → Obex → Prop} (hR : ∀ P, Stops P R) (notice : Notice) {s : Obex}
    (hs : obexMinimumMtu ≤ s.mtuRx) :
    wp ((E.ctx G n).eventcb notice)
      (fun _ s' => (s'.handle = s.handle ∧ obexMinimumMtu ≤ s'.mtuRx) ∧ G.after notice s' = true) R
      s := by
  refine wp_eventcb (P := fun s' => s'.handle = s.handle ∧ obexMinimumMtu ≤ s'.mtuRx) (hR _) ⟨rfl, hs⟩
    fun m _ c hc s' hs' _ => ?_
  exact AppFrame.passive (P := fun s' => s'.handle = s.handle ∧ obexMinimumMtu ≤ s'.mtuRx)
    ⟨hR _, fun _ h => h, fun _ _ _ _ h _ _ => h, fun _ _ h => h, fun _ _ h => h,
      fun _ _ _ _ _ hr _ h => ⟨h.1, hr⟩⟩ (happ _ c hc) s' hs'

/-- The last event of an object only takes the object away. -/
theorem passive_last {R : Stop → Obex → Prop} (hR : ∀ P, Stops P R) {s : Obex}
    (hs : obexMinimumMtu ≤ s.mtuRx) (event : Event) (cmd rsp : UInt8) :
    wp (obexDeliverEvent (E.ctx G n) event cmd rsp true)
      (fun _ s' => s'.handle = (({ s with object := none } : Obex).emit
        (.event (noticeOf s event cmd rsp))).handle ∧ obexMinimumMtu ≤ s'.mtuRx) R s := by
  refine wp_deliverLast (wp_conseq (passive_eventcb happ hR _ ?_) fun _ s' hs' => ?_)
  · exact hs
  · exact ⟨fun p _ => ⟨hs'.1, hR (fun _ => True) _ s' (by simp) trivial⟩, fun _ => hs'.1⟩

end

section
variable {E : Env} {strict calm : Bool} {n : Nat}
  (happ : ∀ log, ∀ c ∈ E.app log, c.passive = true) {w : List Bytes} {k : Nat} {p q : Ptr} {st : State}
include happ

/-- An event of a request in progress. -/
theorem answer_event {b : Bool} {s : Obex} (hs : InService b w k p st s) {event : Event}
    (he : event ≠ .linkerr) (cmd rsp : UInt8) :
    wp (obexDeliverEvent (E.ctx (answerGuard strict calm) n) event cmd rsp false)
      (fun _ s' => (s'.handle = (s.emit (.event (noticeOf s event cmd rsp))).handle ∧
          obexMinimumMtu ≤ s'.mtuRx ∧ tally s'.log = (w, k)) ∧
        ∀ o, s'.objects p = some o → (calm = true → event.early = true → o.suspend = false) ∧
          (strict = true → (event = .streamempty → Answered o) ∧
            FitsMtu (nextMtu (noticeOf s event cmd rsp) s') o)) NoNullObject s := by
  refine wp_deliverEvent (wp_conseq (passive_eventcb happ stops_noNullObject _ hs.mtuRx)
    fun _ s' hs' => ?_)
  obtain ⟨⟨hh, hr⟩, ha⟩ := hs'
  have hlog : s'.log = s.log ++ [.event (noticeOf s event cmd rsp)] := congrArg Handle.log hh
  refine ⟨⟨hh, hr, ?_⟩, fun o ho => ?_⟩
  · rw [hlog, tally_aside _ (by simp [Obs.aside, Obs.isLinkerr, noticeOf, he])]
    exact hs.tally
  · have hobj : s'.object = some p := (congrArg Handle.object hh).trans hs.object
    simp only [answerGuard, Obex.current, hobj, Option.bind_some, ho, Option.all_some, Bool.and_eq_true,
      Bool.or_eq_true, Bool.not_eq_true', decide_eq_true_eq] at ha
    obtain ⟨h1, h2⟩ := ha
    refine ⟨fun hcalm hearly => ?_, fun hstrict => ?_⟩
    · rcases h1 with (h1 | h1) | h1
      · cases hcalm.symm.trans h1
      · cases hearly.symm.trans h1
      · exact h1
    · rcases h2 with h2 | h2
      · cases hstrict.symm.trans h2
      · exact h2

theorem inService_event {b : Bool} (hb : b = true → strict = true) {s : Obex}
    (hs : InService b w k p st s) {event : Event} (he : event ≠ .linkerr) (hhint : event ≠ .reqhint)
    (cmd rsp : UInt8) :
    wp (obexDeliverEvent (E.ctx (answerGuard strict calm) n) event cmd rsp false)
      (fun _ s' => InService b w k p st s' ∧ ∀ o, s'.objects p = some o →
        (calm = true → event.early = true → o.suspend = false) ∧
          (strict = true → event = .streamempty → Answered o)) NoNullObject s := by
  refine wp_conseq (answer_event happ hs he cmd rsp) fun _ s' hs' => ?_
  obtain ⟨⟨hh, hr, ht⟩, ha⟩ := hs'
  refine ⟨⟨(congrArg Handle.object hh).trans hs.object, (congrArg Handle.mode hh).trans hs.mode,
    (congrArg Handle.state hh).trans hs.state, hr, fun h o ho => ?_, ht⟩, fun o ho => ?_⟩
  · have hfits := ((ha o ho).2 (hb h)).2
    rw [nextMtu, if_neg fun h => hhint h.1] at hfits
    rwa [show s'.mtuTx = s.mtuTx from congrArg Handle.mtuTx hh] at hfits ⊢
  · exact ⟨(ha o ho).1, fun hstrict => ((ha o ho).2 hstrict).1⟩

theorem replying_event {s : Obex} (hs : Replying strict calm w k p st s) {event : Event}
    (he : event.early = true) (hhint : event ≠ .reqhint) (cmd rsp : UInt8) :
    wp (obexDeliverEvent (E.ctx (answerGuard strict calm) n) event cmd rsp false)
      (fun _ => Replying strict calm w k p st) NoNullObject s := by
  have hlink : event ≠ .linkerr := by
    intro h
    simp [h, Event.early] at he
  refine wp_conseq (inService_event happ id hs.toInService hlink hhint cmd rsp) fun _ s' hs' => ?_
  exact ⟨hs'.1, fun hcalm o ho => (hs'.2 o ho).1 hcalm he⟩

/-- The last event of a request that has been answered: the state has been reset before. -/
theorem answered_last {s : Obex} {d : Bytes} (hd : hasFinal d = true) (hm : s.mode = .srv)
    (hst : s.state = .idle) (hr : obexMinimumMtu ≤ s.mtuRx) (ht : tally s.log = (w ++ [d], k))
    {event : Event} (he : event ≠ .linkerr) (cmd rsp : UInt8) :
    wp (obexDeliverEvent (E.ctx (answerGuard strict calm) n) event cmd rsp true)
      (fun _ => Replied strict calm w k) NoNullObject s := by
  refine wp_conseq (passive_last happ stops_noNullObject hr event cmd rsp) fun _ s' hs' => ?_
  obtain ⟨hh, hr'⟩ := hs'
  have hmode : s'.mode = .srv := (congrArg Handle.mode hh).trans hm
  have hlog : s'.log = s.log ++ [.event (noticeOf s event cmd rsp)] := congrArg Handle.log hh
  rw [← tally_aside (x := .event (noticeOf s event cmd rsp)) s.log
    (by simp [Obs.aside, Obs.isLinkerr, noticeOf, he]), ← hlog] at ht
  simp only [tally, Prod.mk.injEq] at ht
  refine ⟨hmode, hr', fun _ => Idle.inv ⟨congrArg Handle.object hh, hmode, ?_, hr'⟩,
    .inl ⟨d, hd, ht.1, by simp [ht.2]⟩⟩
  exact (congrArg Handle.state hh).trans hst

theorem answered_linkerr {b : Bool} {s : Obex} (hs : InService b w k p st s) (cmd rsp : UInt8) :
    wp (obexDeliverEvent (E.ctx (answerGuard strict calm) n) .linkerr cmd rsp true)
      (fun _ s' => s'.mode = .srv ∧ obexMinimumMtu ≤ s'.mtuRx ∧ tally s'.log = (w, k + 1))
      NoNullObject s := by
  refine wp_conseq (passive_last happ stops_noNullObject hs.mtuRx .linkerr cmd rsp) fun _ s' hs' => ?_
  have hlog : s'.log = s.log ++ [.event (noticeOf s .linkerr cmd rsp)] := congrArg Handle.log hs'.1
  have ht := hs.tally
  simp only [tally, Prod.mk.injEq] at ht
  refine ⟨(congrArg Handle.mode hs'.1).trans hs.mode, hs'.2, ?_⟩
  rw [hlog, tally_linkerr _ rfl, ht.1, ht.2]

/-! ## Receiving and sending -/

theorem replying_receive :
    Keeps (Replying strict calm w k p st) NoNullObject
      (obexObjectReceive (E.ctx (answerGuard strict calm) n)) := by
  refine RxFrame.receive ⟨stops_noNullObject _, keeps_selfObject fun s hs => by simp [hs.object],
    fun s b hs => hs.setRxMsg b, fun s hs =>
      ⟨⟨hs.object, hs.mode, hs.state, hs.mtuRx, hs.fits, hs.tally⟩, hs.awake⟩, fun s q o o' hs ho hr =>
        hs.setObject ho hr.txHeaderq hr.suspend, fun s hs => ?_⟩
  exact replying_event happ hs rfl (by simp) 0 0

/-- The packet of a request in progress, the failure to build it, or nothing for a suspended object. -/
theorem replying_send {s : Obex} (hs : Replying strict calm w k p st s) (allowfinalcmd : Bool) :
    wp (obexObjectSend (E.ctx (answerGuard strict calm) n) p allowfinalcmd true)
      (fun r s' => Attempt strict calm w k p st r s') NoNullObject s := by
  have hF : SendFrame (E.ctx (answerGuard strict calm) n) p (InService strict w k p st) NoNullObject
      (strict = true) := by
    refine ⟨stops_noNullObject _, fun s hs => hs.object, fun s b hs => hs.setTxMsg b,
      fun s o o' hs ho ht => hs.setObject fun _ h => (hs.fits h o ho).of_txStep ht, fun s hs => ?_,
      fun h s o hs ho => hs.fits h o ho⟩
    refine wp_conseq (inService_event happ id hs (by simp) (by simp) 0 0) fun _ s' hs' =>
      .inl ⟨hs'.1, ?_⟩
    exact fun h o ho => (hs'.2 o ho).2 h rfl
  refine hF.send hs.toInService (fun o ho hsus => ?_)
    (fun h s hs => .inr (.inl ⟨by simp, by simpa using h, hs⟩)) fun s o hs ho => ?_
  · refine .inr (.inr ⟨rfl, ?_, hs.toInService⟩)
    cases hcalm : calm with
    | false => rfl
    | true => cases hsus.symm.trans (hs.awake hcalm o ho)
  · obtain ⟨op, hop⟩ := chooseOpcode_forced o allowfinalcmd
    rw [hop]
    exact wp_conseq ((counts_inService strict k p st).packet hs (some p) _ op) fun r s' hs' => .inl hs'


/-! ## The functions of the server -/

omit happ in
theorem inService_updateCurrent {P : Obex → Prop} {s : Obex} (hs : InService strict w k p st s)
    (hP : P s) (hobject : ∀ {s}, P s → ∀ q o, P (s.setObject q o)) {f : ObexObject → ObexObject}
    (hf : ∀ o, (f o).txHeaderq = o.txHeaderq) :
    wp (updateCurrent f) (fun _ s' => InService strict w k p st s' ∧ P s') NoNullObject s := by
  refine keeps_updateCurrent (P := fun s => InService strict w k p st s ∧ P s) (stops_noNullObject _)
    (fun s hs => by simp [hs.1.object])
    (fun s q o hs ho => ⟨hs.1.setObject fun he h => ?_, hobject hs.2 q _⟩) s ⟨hs, hP⟩
  subst he
  have hfits := hs.1.fits h o ho
  unfold FitsMtu at *
  rwa [hf]

omit happ in
theorem replying_updateCurrent {s : Obex} (hs : Replying strict calm w k p st s)
    {f : ObexObject → ObexObject} (hf : ∀ o, (f o).txHeaderq = o.txHeaderq)
    (hsus : ∀ o, (f o).suspend = o.suspend) :
    wp (updateCurrent f) (fun _ => Replying strict calm w k p st) NoNullObject s :=
  keeps_updateCurrent (P := Replying strict calm w k p st) (stops_noNullObject _)
    (fun s hs => by simp [hs.object]) (fun _ _ o hs ho => hs.setObject ho (hf o) (hsus o)) s hs

omit happ in
theorem replying_currentOpcode {s : Obex} (hs : Replying strict calm w k p st s) :
    wp currentOpcode (fun _ => Replying strict calm w k p st) NoNullObject s :=
  keeps_currentOpcode (stops_noNullObject _) (fun s hs => by simp [hs.object]) s hs

omit happ in
theorem replying_selfObject {s : Obex} (hs : Replying strict calm w k p st s) :
    wp selfObject (fun q s' => q = p ∧ Replying strict calm w k p st s') NoNullObject s := by
  rw [wp_selfObject, hs.object]
  exact ⟨fun q hq => ⟨by simpa using hq.symm, hs⟩, by simp⟩

/-- The state is reset, then the last event is delivered. -/
theorem answered_finish {s : Obex} {d : Bytes} (hs : InService strict (w ++ [d]) k p st s)
    (hd : hasFinal d = true) {event : Event} (he : event ≠ .linkerr) (rsp : UInt8) (ret : Int) :
    wp (do
      setState .srv .idle
      obexDeliverEvent (E.ctx (answerGuard strict calm) n) event (← currentOpcode) rsp true
      pure ret) (fun _ => Replied strict calm w k) NoNullObject s := by
  rw [wp_bind, OpenObex.setState, wp_modify]
  refine wp_seq (keeps_currentOpcode (P := InService strict (w ++ [d]) k p .idle) (stops_noNullObject _)
    (fun s hs => by simp [hs.object]) _ hs.setState) fun op s hs => ?_
  exact wp_seq (answered_last happ hd hs.mode hs.state hs.mtuRx hs.tally he _ _) fun _ _ h => h

theorem answer_abort {s : Obex} (hs : Replying strict calm w k p st s) (cmd : UInt8) :
    wp (serverAbort (E.ctx (answerGuard strict calm) n) cmd) (fun _ => Replied strict calm w k)
      NoNullObject s := by
  refine wp_seq ((counts_inService strict k p st).response hs.toInService _) fun _ s hs => ?_
  obtain ⟨d, hd, hs⟩ := hs
  exact answered_finish happ hs hd (by simp) _ _

theorem answer_parseerr {s : Obex} (hs : Replying strict calm w k p st s) (cmd : UInt8) :
    wp (serverParseerr (E.ctx (answerGuard strict calm) n) cmd) (fun _ => Replied strict calm w k)
      NoNullObject
      s := by
  refine wp_seq ((counts_inService strict k p st).response hs.toInService _) fun _ s hs => ?_
  obtain ⟨d, hd, hs⟩ := hs
  exact answered_finish happ hs hd (by simp) _ _

/-- The packet could not be written, or not even built. -/
theorem answer_failed {s : Obex} (hs : (∃ d, hasFinal d = true ∧ InService strict (w ++ [d]) k p st s) ∨
      strict = false ∧ InService strict w k p st s) (cmd : UInt8) :
    wp (do
      obexDeliverEvent (E.ctx (answerGuard strict calm) n) .linkerr cmd 0 true
      pure (-1 : Int)) (fun _ => Replied strict calm w k) NoNullObject s := by
  have hinv {s : Obex} {w : List Bytes} (ht : tally s.log = (w, k + 1)) (h : linkErrors s.log = k) :
      ServerInv s := by
    have hk : linkErrors s.log = k + 1 := congrArg Prod.snd ht
    omega
  rcases hs with ⟨d, hd, hs⟩ | ⟨hstrict, hs⟩
  · refine wp_seq (answered_linkerr happ hs cmd 0) fun _ s' hs' => ?_
    obtain ⟨hm, hr, ht⟩ := hs'
    have hw : responses s'.log = w ++ [d] := congrArg Prod.fst ht
    have hk : linkErrors s'.log = k + 1 := congrArg Prod.snd ht
    exact ⟨hm, hr, hinv ht, .inl ⟨d, hd, hw, by omega⟩⟩
  · refine wp_seq (answered_linkerr happ hs cmd 0) fun _ s' hs' => ?_
    obtain ⟨hm, hr, ht⟩ := hs'
    exact ⟨hm, hr, hinv ht, .inr (.inl ⟨hstrict, ht⟩)⟩

theorem answer_progress {s : Obex}
    (hs : (∃ d, hasFinal d = true ∧ InService strict (w ++ [d]) k p st s) ∨
      calm = false ∧ InService strict w k p st s) (hi : st ≠ .idle) (hst : st ≠ .start) (cmd : UInt8) :
    wp (obexDeliverEvent (E.ctx (answerGuard strict calm) n) .progress cmd 0 false)
      (fun _ s' => ∃ w', InService strict w' k p st s' ∧ Replied strict calm w k s')
      NoNullObject s := by
  rcases hs with ⟨d, hd, hs⟩ | ⟨hcalm, hs⟩
  · refine wp_conseq (inService_event happ id hs (by simp) (by simp) cmd 0) fun _ s' hs' => ?_
    exact ⟨_, hs'.1, hs'.1.replied hd hi hst⟩
  · refine wp_conseq (inService_event happ id hs (by simp) (by simp) cmd 0) fun _ s' hs' => ?_
    exact ⟨_, hs'.1, hs'.1.mode, hs'.1.mtuRx, fun _ => hs'.1.inv hi hst,
      .inr (.inr ⟨hcalm, hs'.1.tally⟩)⟩

/-- The response of the state `STATE_SEND`. -/
theorem answer_respond {s : Obex} (hs : Replying strict calm w k p st s) (hi : st ≠ .idle)
    (hst : st ≠ .start) (cmd : UInt8) :
    wp (serverRespond (E.ctx (answerGuard strict calm) n) cmd) (fun _ => Replied strict calm w k)
      NoNullObject s := by
  refine wp_seq (replying_updateCurrent hs (fun _ => rfl) fun _ => rfl) fun _ s hs => ?_
  refine wp_seq (replying_selfObject hs) fun q s hs => ?_
  obtain ⟨rfl, hs⟩ := hs
  rw [wp_bind, wp_deref]
  refine ⟨fun o ho => ?_, fun _ => by simp [NoNullObject]⟩
  split
  · exact hs.asleep ho ‹_› hi hst
  refine wp_seq (replying_send happ hs true) fun ret s hs => ?_
  split
  · have hkeep {f : ObexObject → ObexObject} {s : Obex}
        (hs : ∃ w', InService strict w' k q st s ∧ Replied strict calm w k s)
        (hf : ∀ o, (f o).txHeaderq = o.txHeaderq) :
        wp (updateCurrent f) (fun _ s => ∃ w', InService strict w' k q st s ∧ Replied strict calm w k s)
          NoNullObject s := by
      obtain ⟨w', hl, hr⟩ := hs
      refine wp_conseq (inService_updateCurrent hl hr (fun h q o => h.setObject q o) hf)
        fun _ s' h => ?_
      exact ⟨w', h⟩
    refine wp_seq (answer_progress happ (hs.passed (by omega)) hi hst cmd) fun _ s hs => ?_
    refine wp_seq (hkeep hs fun _ => rfl) fun _ s hs => ?_
    refine wp_seq (hkeep hs fun _ => rfl) fun _ s hs => ?_
    obtain ⟨_, -, hr⟩ := hs
    exact hr
  split
  · exact answer_failed happ (hs.failed ‹_›) cmd
  · obtain ⟨d, hd, hs⟩ := hs.done (by omega)
    have finish {s : Obex} (hr : obexMinimumMtu ≤ s.mtuRx) (ht : tally s.log = (w ++ [d], k)) :
        wp (do
          setState .srv .idle
          obexDeliverEvent (E.ctx (answerGuard strict calm) n) .reqdone cmd 0 true
          pure (0 : Int)) (fun _ => Replied strict calm w k) NoNullObject s := by
      rw [wp_bind, OpenObex.setState, wp_modify]
      exact wp_seq (answered_last (s := s.setState .srv .idle) happ hd rfl rfl hr ht (by simp) _ _)
        fun _ _ h => h
    rw [wp_bind, wp_when]
    exact ⟨fun _ => finish hs.mtuRx hs.tally, fun _ => finish hs.mtuRx hs.tally⟩

theorem answer_unexpected {s : Obex} (hs : Replying strict calm w k p st s) (connect : Bool) :
    wp (receiveUnexpected (E.ctx (answerGuard strict calm) n) connect)
      (fun _ => Replying strict calm w k p st) NoNullObject s := by
  unfold receiveUnexpected
  split
  · exact hs
  · exact wp_seq (replying_receive happ s hs) fun _ _ hs => hs

theorem answer_send {s : Obex} (hs : Replying strict calm w k p st s) (hi : st ≠ .idle)
    (hst : st ≠ .start) (cmd : UInt8) (len : Nat) :
    wp (serverSend (E.ctx (answerGuard strict calm) n) cmd len) (fun _ => Replied strict calm w k)
      NoNullObject
      s := by
  unfold serverSend
  split
  · exact answer_abort happ hs cmd
  split
  · refine wp_seq (answer_unexpected happ hs _) fun bad s hs => ?_
    split
    · exact answer_parseerr happ hs 0
    refine wp_seq (replying_currentOpcode hs) fun op s hs => ?_
    refine wp_seq (replying_event happ hs rfl (by simp) _ _) fun _ s hs => ?_
    exact answer_respond happ hs hi hst cmd
  · exact answer_respond happ hs hi hst cmd

theorem answer_check {s : Obex} (hs : Replying strict calm w k p st s) (cmd : UInt8) (final : Bool) :
    wp (serverCheck (E.ctx (answerGuard strict calm) n) cmd final)
      (fun _ => Replying strict calm w k p st)
      NoNullObject s := by
  unfold serverCheck
  split
  · exact hs
  refine wp_seq (replying_selfObject hs) fun q s hs => ?_
  refine wp_seq (keeps_deref (stops_noNullObject _) q s hs.2) fun o s hs => ?_
  have hcheck : wp (when (¬ o.checked) do
      obexDeliverEvent (E.ctx (answerGuard strict calm) n) .reqcheck cmd 0 false
      updateCurrent fun o => { o with checked := true }) (fun _ => Replying strict calm w k p st)
      NoNullObject s := by
    rw [wp_when]
    refine ⟨fun _ => ?_, fun _ => hs⟩
    refine wp_seq (replying_event happ hs rfl (by simp) _ _) fun _ s hs => ?_
    exact replying_updateCurrent hs (fun _ => rfl) fun _ => rfl
  refine wp_seq hcheck fun _ s hs => ?_
  refine wp_seq (replying_currentOpcode hs) fun op s hs => ?_
  split
  · exact hs
  · exact hs.emit rfl

omit happ in
theorem replying_connectframe {s : Obex} (hs : Replying strict calm w k p st s) :
    wp (obexInsertConnectframe (E.ctx (answerGuard strict calm) n) q)
      (fun _ => Replying strict calm w k p st)
      NoNullObject s :=
  keeps_connectframe (P := Replying strict calm w k p st) (stops_noNullObject _)
    (fun _ _ _ hs ho => hs.setObject ho rfl rfl) s hs

/-- A request that is being received. -/
theorem answer_rec {s : Obex} (hs : Replying strict calm w k p .recv s) (cmd : UInt8) (len : Nat)
    (final : Bool) :
    wp (serverRec (E.ctx (answerGuard strict calm) n) cmd len final) (fun _ => Replied strict calm w k)
      NoNullObject s := by
  unfold serverRec
  split
  · exact answer_abort happ hs cmd
  refine wp_seq (replying_selfObject hs) fun q s hs => ?_
  refine wp_seq (keeps_deref (stops_noNullObject _) q s hs.2) fun o s hs => ?_
  split
  · exact answer_parseerr happ hs cmd
  refine wp_seq (replying_receive happ s hs) fun ret s hs => ?_
  split
  · exact answer_parseerr happ hs 0
  refine wp_seq (answer_check happ hs cmd final) fun r s hs => ?_
  obtain ⟨final, deny⟩ := r
  refine wp_seq (replying_selfObject hs) fun q s hs => ?_
  obtain ⟨rfl, hs⟩ := hs
  split
  · refine wp_seq (replying_send happ hs false) fun ret s hs => ?_
    split
    · exact answer_failed happ (hs.failed ‹_›) cmd
    · refine wp_seq (answer_progress happ (hs.passed (by omega)) (by simp) (by simp) cmd)
        fun _ s hs => ?_
      obtain ⟨_, -, hr⟩ := hs
      exact hr
  refine wp_seq (keeps_deref (stops_noNullObject _) q s hs) fun o s hs => ?_
  split
  · have hframe : wp (when (cmd = obexCmdConnect) do
        let _ ← obexInsertConnectframe (E.ctx (answerGuard strict calm) n) q)
        (fun _ => Replying strict calm w k q .recv) NoNullObject s := by
      rw [wp_when]
      exact ⟨fun _ => wp_seq (replying_connectframe hs) fun _ _ hs => hs, fun _ => hs⟩
    refine wp_seq hframe fun _ s hs => ?_
    have hreq : wp
      (when (¬ deny) (obexDeliverEvent (E.ctx (answerGuard strict calm) n) .req cmd 0 false))
        (fun _ => Replying strict calm w k q .recv) NoNullObject s := by
      rw [wp_when]
      exact ⟨fun _ => replying_event happ hs rfl (by simp) cmd 0, fun _ => hs⟩
    refine wp_seq hreq fun _ s hs => ?_
    rw [wp_bind, OpenObex.setState, wp_modify]
    exact answer_send happ hs.setState (by simp) (by simp) cmd 3
  · exact answer_send happ hs (by simp) (by simp) cmd len

/-- A CONNECT: the headers are to fit in the packets it announces. -/
theorem answer_connect {s : Obex}
    (hs : Replying strict calm w k p .idle { s with mtuTx := announcedMtu s }) (cmd : UInt8) (len : Nat)
    (final : Bool) :
    wp (serverConnect (E.ctx (answerGuard strict calm) n) cmd len final)
      (fun _ => Replied strict calm w k)
      NoNullObject s := by
  rw [serverConnect, wp_bind]
  refine wp_parseConnectHeader (by simp [NoNullObject]) ?_ ?_
  · rw [if_neg (by decide)]
    refine wp_seq (replying_updateCurrent hs (fun _ => rfl) fun _ => rfl) fun _ s hs => ?_
    rw [wp_bind, OpenObex.setState, wp_modify]
    exact answer_rec happ hs.setState cmd len final
  · -- the object is there, but its headers are of no account any more
    have hs : InService false w k p .idle s :=
      ⟨hs.object, hs.mode, hs.state, hs.mtuRx, by simp, hs.tally⟩
    rw [if_pos (by decide)]
    refine wp_seq ((counts_inService false k p .idle).response hs _) fun _ s hs => ?_
    obtain ⟨d, hd, hs⟩ := hs
    refine wp_seq (keeps_currentOpcode (P := InService false (w ++ [d]) k p .idle)
      (stops_noNullObject _)
      (fun s hs => by simp [hs.object]) s hs) fun op s hs => ?_
    exact wp_seq (answered_last happ hd hs.mode hs.state hs.mtuRx hs.tally (by simp) _ _) fun _ _ h => h

/-- A new request. -/
theorem answer_hint {s : Obex} (hs : InService strict w k p .idle s) (cmd : UInt8) (len : Nat)
    (final : Bool) :
    wp (serverHint (E.ctx (answerGuard strict calm) n) cmd len final) (fun _ => Replied strict calm w k)
      NoNullObject s := by
  refine wp_seq (answer_event happ hs (by simp) _ _) fun _ s' hs' => ?_
  obtain ⟨⟨hh, hr, ht⟩, ha⟩ := hs'
  have ho : s'.object = some p := (congrArg Handle.object hh).trans hs.object
  have hmode : s'.mode = .srv := (congrArg Handle.mode hh).trans hs.mode
  have hst : s'.state = .idle := (congrArg Handle.state hh).trans hs.state
  have hawake (h : calm = true) (o : ObexObject) (ho : s'.objects p = some o) : o.suspend = false :=
    (ha o ho).1 h rfl
  split
  · rename_i hcmd
    refine answer_connect happ ⟨⟨ho, hmode, hst, hr, fun hstrict o ho => ?_, ht⟩, hawake⟩ _ len final
    have hfits := ((ha o ho).2 hstrict).2
    rwa [nextMtu, if_pos ⟨rfl, hcmd⟩] at hfits
  · rename_i hcmd
    have hs : Replying strict calm w k p .idle s' := by
      refine ⟨⟨ho, hmode, hst, hr, fun hstrict o ho => ?_, ht⟩, hawake⟩
      have hfits := ((ha o ho).2 hstrict).2
      rwa [nextMtu, if_neg fun h => hcmd h.2] at hfits
    have hpath : wp (when (cmd = obexCmdSetpath) (updateCurrent fun o => { o with headeroffset := 2 }))
        (fun _ => Replying strict calm w k p .idle) NoNullObject s' := by
      rw [wp_when]
      exact ⟨fun _ => replying_updateCurrent hs (fun _ => rfl) fun _ => rfl, fun _ => hs⟩
    refine wp_seq hpath fun _ s hs => ?_
    rw [wp_bind, OpenObex.setState, wp_modify]
    exact answer_rec happ hs.setState cmd len final

omit happ in
theorem answer_refused {s : Obex} (hs : Idle s) (ht : tally s.log = (w, k)) :
    wp (do
      obexResponseRequest (E.ctx (answerGuard strict calm) n) obexRspInternalServerError
      pure (-1 : Int)) (fun _ => Replied strict calm w k) NoNullObject s := by
  have hcounts : Counts fun w s => Idle s ∧ tally s.log = (w, k) := by
    refine ⟨fun w s b h => ⟨⟨h.1.object, h.1.mode, h.1.state, h.1.mtuRx⟩, h.2⟩,
      fun w s chunk r h => ⟨⟨h.1.object, h.1.mode, h.1.state, h.1.mtuRx⟩, ?_⟩,
      fun w s x k d h => ⟨⟨h.1.object, h.1.mode, h.1.state, h.1.mtuRx⟩, ?_⟩⟩
    · exact (tally_aside s.log rfl).trans h.2
    · have ht := h.2
      simp only [tally, Prod.mk.injEq] at ht
      rw [Obex.emit, tally_write, ht.1, ht.2]
  refine wp_seq (hcounts.response ⟨hs, ht⟩ _) fun _ s hs => ?_
  obtain ⟨d, hd, hi, ht⟩ := hs
  simp only [tally, Prod.mk.injEq] at ht
  exact ⟨hi.mode, hi.mtuRx, fun _ => hi.inv, .inl ⟨d, hd, ht.1, by simp [ht.2]⟩⟩

theorem answer_idle {s : Obex} (hs : Idle s) (ht : tally s.log = (w, k)) (cmd : UInt8) (len : Nat)
    (final : Bool) :
    wp (serverIdle (E.ctx (answerGuard strict calm) n) cmd len final) (fun _ => Replied strict calm w k)
      NoNullObject s := by
  have hnew : InService strict w k s.fresh .idle (s.incoming cmd) := by
    refine ⟨rfl, hs.mode, hs.state, hs.mtuRx, fun _ o ho => ?_, ht⟩
    cases (objects_setObject _ _ _).symm.trans ho
    simp [FitsMtu, obexObjectSetrsp, zeroObject]
  exact wp_serverIdle (answer_refused hs ht) fun _ => answer_hint happ hnew cmd len final

end

theorem putServer_passive (log : List Obs) : ∀ c ∈ putServer.app log, c.passive = true := by
  intro c hc
  simp only [putServer] at hc
  split at hc
  · split at hc
    · simp only [List.mem_singleton] at hc
      subst hc
      rfl
    · cases hc
  · cases hc

end OpenObex
