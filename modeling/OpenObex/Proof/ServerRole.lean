import OpenObex.Proof.Runs

/-!
# The server: an object exactly while a request is in progress

`obex_server` resets the state before it delivers the last event of a request, except where a packet
of the request cannot be sent, the link fails or the request is cancelled. `serverGuard` bars these
steps, and in every run without them the handle has a current object exactly while it is not idle
(`server_object_iff_busy`).
-/

namespace OpenObex

open Mem Prog

/-! ## The steps that leave the state behind -/

/-- The object of the last packet handed to the transport; none for a bare response. -/
def lastWrite (log : List Obs) : Option Ptr :=
  log.foldl (fun w x => match x with
    | .write object _ _ => object
    | _ => w) none

@[simp] theorem lastWrite_io (log : List Obs) (chunk : Bytes) (r : Int) :
    lastWrite (log ++ [.io chunk r]) = lastWrite log := by simp [lastWrite]

@[simp] theorem lastWrite_write (log : List Obs) (p : Option Ptr) (k : PacketKind) (d : Bytes) :
    lastWrite (log ++ [.write p k d]) = p := by simp [lastWrite]

/-- The `mtu_tx` of the next packet when the callback returns: a CONNECT is parsed after its
`OBEX_EV_REQHINT`. -/
def nextMtu (n : Notice) (s : Obex) : Nat :=
  if n.event = .reqhint ∧ n.cmd = obexCmdConnect then announcedMtu s else s.mtuTx

/-- A request can be served: USB is connected, and the headers fit. -/
def readyFor (s : Obex) : Bool :=
  decide (s.trans.type = .usb → s.trans.connected = true ∨ (s.object = none ∧ s.rxMsg.dataSize < 3)) &&
    s.current.all fun o => decide (FitsMtu s.mtuTx o)

/-- No step of the run fails a request half-way: while there is an object, reads and the writes of its
packets succeed, it is not cancelled, its headers fit in `mtu_tx`, and every `OBEX_EV_STREAMEMPTY` is
answered. -/
def serverGuard : Guard where
  op op s := match op with
    | .call (.cancelRequest _) => s.object.isNone
    | .customDataFeed _ => readyFor s
    | .handleInput => readyFor s
    | _ => true
  nested c s := match c with
    | .cancelRequest _ => s.object.isNone
    | _ => true
  after n s := s.current.all fun o =>
    decide (n.event = .streamempty → Answered o) && decide (FitsMtu (nextMtu n s) o)
  write s r := decide (0 ≤ r ∨ lastWrite s.log = none)
  read s r := s.object.isNone || (match r with
    | some (_ :: _) => true
    | _ => false)

/-- The calls of an application that only serves. -/
def ServerCall (c : Call) : Prop := c.passive = true ∨ c = .cancelRequest false

def ServerOp : Op → Prop
  | .call c => ServerCall c
  | _ => True

/-! ## The states of a server -/

/-- No request is in progress. -/
structure Idle (s : Obex) : Prop where
  object : s.object = none
  mode : s.mode = .srv
  state : s.state = .idle
  mtuRx : obexMinimumMtu ≤ s.mtuRx

/-- A request is in progress and can be answered. -/
structure Serving (p : Ptr) (st : State) (s : Obex) : Prop where
  object : s.object = some p
  mode : s.mode = .srv
  state : s.state = st
  mtuRx : obexMinimumMtu ≤ s.mtuRx
  fits : ∀ o, s.objects p = some o → FitsMtu s.mtuTx o
  ready : s.trans.type = .usb → s.trans.connected = true

/-- The invariant between two library calls. -/
structure ServerInv (s : Obex) : Prop where
  mode : s.mode = .srv
  mtuRx : obexMinimumMtu ≤ s.mtuRx
  object : s.object = none ↔ s.state = .idle
  state : s.state ≠ .start

theorem Idle.inv {s : Obex} (h : Idle s) : ServerInv s :=
  ⟨h.mode, h.mtuRx, by simp [h.object, h.state], by simp [h.state]⟩

theorem Serving.inv {p : Ptr} {st : State} {s : Obex} (h : Serving p st s) (hi : st ≠ .idle)
    (hs : st ≠ .start) : ServerInv s :=
  ⟨h.mode, h.mtuRx, by simp [h.object, h.state, hi], by rw [h.state]; exact hs⟩

/-- Every error but the use of a null `self->object`. -/
def NoNullObject (e : Stop) (_ : Obex) : Prop := e ≠ .fault .nullObject

theorem stops_noNullObject (P : Obex → Prop) : Stops P NoNullObject := fun _ _ he _ => he

theorem FitsMtu.of_rxStep {n : Nat} {o o' : ObexObject} (h : FitsMtu n o) (hr : RxStep o o') :
    FitsMtu n o' := by
  unfold FitsMtu
  rwa [hr.txHeaderq]

theorem FitsMtu.of_txStep {n : Nat} {o o' : ObexObject} (h : FitsMtu n o) (ht : TxStep o o') :
    FitsMtu n o' := fun e he hp => h e (ht.queue e he hp) hp

theorem Serving.setTxMsg {p : Ptr} {st : State} {s : Obex} (h : Serving p st s) (b : Buf) :
    Serving p st (s.setTxMsg b) := ⟨h.object, h.mode, h.state, h.mtuRx, h.fits, h.ready⟩

theorem Serving.setRxMsg {p : Ptr} {st : State} {s : Obex} (h : Serving p st s) (b : Buf) :
    Serving p st (s.setRxMsg b) := ⟨h.object, h.mode, h.state, h.mtuRx, h.fits, h.ready⟩

theorem Serving.emit {p : Ptr} {st : State} {s : Obex} (h : Serving p st s) (x : Obs) :
    Serving p st (s.emit x) := ⟨h.object, h.mode, h.state, h.mtuRx, h.fits, h.ready⟩

theorem Serving.setState {p : Ptr} {st st' : State} {s : Obex} (h : Serving p st s) :
    Serving p st' (s.setState .srv st') := ⟨h.object, rfl, rfl, h.mtuRx, h.fits, h.ready⟩

theorem Serving.setObject {p q : Ptr} {st : State} {s : Obex} {o' : ObexObject} (h : Serving p st s)
    (ho : q = p → FitsMtu s.mtuTx o') : Serving p st (s.setObject q (some o')) := by
  refine ⟨h.object, h.mode, h.state, h.mtuRx, fun o hq => ?_, h.ready⟩
  simp only [Obex.setObject] at hq
  split at hq
  · cases hq
    exact ho (by symm; assumption)
  · exact h.fits o hq

section
variable {E : Env} {n : Nat} (happ : ∀ log, ∀ c ∈ E.app log, ServerCall c)
include happ

/-! ## Events -/

/-- The calls of a server in its callback leave the handle alone. -/
theorem server_eventcb {notice : Notice} {s : Obex} (hs : obexMinimumMtu ≤ s.mtuRx) :
    wp ((E.ctx serverGuard n).eventcb notice)
      (fun _ s' => (s'.handle = s.handle ∧ obexMinimumMtu ≤ s'.mtuRx) ∧
        serverGuard.after notice s' = true) NoNullObject s := by
  refine wp_eventcb (P := fun s' => s'.handle = s.handle ∧ obexMinimumMtu ≤ s'.mtuRx)
    (stops_noNullObject _) ⟨rfl, hs⟩ fun m _ c hc s' hs' hg => ?_
  rcases happ _ c hc with hp | rfl
  · refine AppFrame.passive (P := fun s' => s'.handle = s.handle ∧ obexMinimumMtu ≤ s'.mtuRx)
      ⟨stops_noNullObject _, fun _ h => h, fun _ _ _ _ h _ _ => h, fun _ _ h => h, fun _ _ h => h,
        fun _ _ _ _ _ hr _ h => ⟨h.1, hr⟩⟩ hp s' hs'
  · have hn : s'.object.isNone = true := hg
    rw [api, obexCancelrequest, wp_bind, wp_get, if_pos hn]
    exact hs'

/-- After an event of a request in progress the headers fit in the `mtu_tx` to come. -/
theorem server_event {p : Ptr} {st : State} {s : Obex} (hs : Serving p st s) (event : Event)
    (cmd rsp : UInt8) :
    wp (obexDeliverEvent (E.ctx serverGuard n) event cmd rsp false)
      (fun _ s' => (s'.handle = (s.emit (.event (noticeOf s event cmd rsp))).handle ∧
          obexMinimumMtu ≤ s'.mtuRx) ∧
        ∀ o, s'.objects p = some o → (event = .streamempty → Answered o) ∧
          FitsMtu (nextMtu (noticeOf s event cmd rsp) s') o) NoNullObject s := by
  refine wp_deliverEvent (wp_mono (server_eventcb happ hs.mtuRx) (fun _ s' hs' => ?_)
    fun _ _ he => he)
  refine ⟨hs'.1, fun o ho => ?_⟩
  have hobj : s'.object = some p := (congrArg Handle.object hs'.1.1).trans hs.object
  have ha := hs'.2
  simp only [serverGuard, Obex.current, hobj, Option.bind_some, ho, Option.all_some,
    Bool.and_eq_true, decide_eq_true_eq] at ha
  exact ha

theorem serving_event {p : Ptr} {st : State} {s : Obex} (hs : Serving p st s) {event : Event}
    (hev : event ≠ .reqhint) (cmd rsp : UInt8) :
    wp (obexDeliverEvent (E.ctx serverGuard n) event cmd rsp false)
      (fun _ s' => Serving p st s' ∧
        (event = .streamempty → ∀ o, s'.objects p = some o → Answered o)) NoNullObject s := by
  refine wp_mono (server_event happ hs event cmd rsp) ?_ fun _ _ he => he
  rintro - s' ⟨⟨hh, hr⟩, ha⟩
  have hmtu : s'.mtuTx = s.mtuTx := congrArg Handle.mtuTx hh
  refine ⟨⟨(congrArg Handle.object hh).trans hs.object, (congrArg Handle.mode hh).trans hs.mode,
    (congrArg Handle.state hh).trans hs.state, hr, fun o ho => ?_, ?_⟩, fun he o ho => (ha o ho).1 he⟩
  · have := (ha o ho).2
    rwa [nextMtu, if_neg fun h => hev h.1] at this
  · rw [show s'.trans = s.trans from congrArg Handle.trans hh]
    exact hs.ready

/-- The last event of a request: the state has been reset before. -/
theorem idle_event {s : Obex} (hm : s.mode = .srv) (hst : s.state = .idle)
    (hr : obexMinimumMtu ≤ s.mtuRx) (event : Event) (cmd rsp : UInt8) :
    wp (obexDeliverEvent (E.ctx serverGuard n) event cmd rsp true) (fun _ => Idle) NoNullObject s := by
  refine wp_deliverLast (wp_mono (server_eventcb happ ?_) ?_ fun _ _ he => he)
  · exact hr
  rintro - s' ⟨⟨hh, hr'⟩, -⟩
  have h : Idle s' := ⟨congrArg Handle.object hh, (congrArg Handle.mode hh).trans hm,
    (congrArg Handle.state hh).trans hst, hr'⟩
  exact ⟨fun p _ => ⟨⟨h.object, h.mode, h.state, h.mtuRx⟩, by simp [NoNullObject]⟩, fun _ => h⟩

/-! ## Receiving and sending -/

theorem serving_receive (p : Ptr) (st : State) :
    Keeps (Serving p st) NoNullObject (obexObjectReceive (E.ctx serverGuard n)) := by
  refine RxFrame.receive ⟨stops_noNullObject _, keeps_selfObject fun s hs => by simp [hs.object],
    fun s b hs => hs.setRxMsg b,
    fun s hs => ⟨hs.object, hs.mode, hs.state, hs.mtuRx, hs.fits, hs.ready⟩,
    fun s q o o' hs ho hr => hs.setObject fun hq => ?_, fun s hs => ?_⟩
  · rw [hq] at ho
    exact (hs.fits o ho).of_rxStep hr
  · exact wp_mono (serving_event happ hs (by simp) 0 0) (fun _ _ h => h.1) fun _ _ he => he

omit happ in
/-- The writes of a packet of the current object succeed. -/
theorem serving_writeFrame (p : Ptr) (st : State) :
    WriteFrame (E.ctx serverGuard n) (fun s => Serving p st s ∧ lastWrite s.log = some p)
      NoNullObject True := by
  refine ⟨stops_noNullObject _, fun s b hs => ⟨hs.1.setTxMsg b, hs.2⟩, fun chunk s hs => ?_,
    fun _ s hs => hs.1.ready⟩
  rw [ctx_write]
  refine wp_transportWrite (fun hg => ?_) (by simp [NoNullObject])
  have h : 0 ≤ E.write s.log chunk := by simpa [serverGuard, hs.2] using hg
  refine ⟨⟨hs.1.emit _, ?_⟩, fun _ => h⟩
  simpa [Obex.emit] using hs.2

theorem serving_send (p : Ptr) (st : State) (allowfinalcmd forcefinalbit : Bool) :
    Yields (Serving p st) NoNullObject (fun r => 0 ≤ r)
      (obexObjectSend (E.ctx serverGuard n) p allowfinalcmd forcefinalbit) := by
  intro s hs
  have hF : SendFrame (E.ctx serverGuard n) p (Serving p st) NoNullObject True := by
    refine ⟨stops_noNullObject _, fun s hs => hs.object,
      fun s b hs => hs.setTxMsg b,
      fun s o o' hs ho ht => hs.setObject fun _ => (hs.fits o ho).of_txStep ht, fun s hs => ?_,
      fun _ s o hs ho => hs.fits o ho⟩
    exact wp_mono (serving_event happ hs (by simp) 0 0) (fun _ _ h => .inl ⟨h.1, fun _ => h.2 rfl⟩)
      fun _ _ he => he
  refine hF.send hs (fun o _ _ => ⟨hs, by simp⟩) (fun h => absurd trivial h) fun s o hs ho => ?_
  refine wp_mono (wp_dataRequest (serving_writeFrame p st) (fun e he => he) fun b _ => ?_) ?_
    fun _ _ he => he
  · exact ⟨(hs.setTxMsg b).emit _, by simp [Obex.emit]⟩
  · rintro r s' ⟨⟨hs', -⟩, hr⟩
    have hr := hr trivial
    refine ⟨hs', ?_⟩
    split
    · omega
    · split <;> simp

omit happ in
theorem serving_response (p : Ptr) (st : State) (opcode : UInt8) :
    Keeps (Serving p st) NoNullObject (obexResponseRequest (E.ctx serverGuard n) opcode) :=
  keeps_ctx_response (stops_noNullObject _) (fun _ b hs => hs.setTxMsg b) (fun _ x hs => hs.emit x) _

/-! ## The functions of the server -/

omit happ in
theorem serving_selfObject {p : Ptr} {st : State} {s : Obex} (hs : Serving p st s) :
    wp selfObject (fun q s' => q = p ∧ Serving p st s') NoNullObject s := by
  rw [wp_selfObject, hs.object]
  exact ⟨fun q hq => ⟨by simpa using hq.symm, hs⟩, by simp⟩

omit happ in
theorem serving_update_at {p q : Ptr} {st : State} {s : Obex} (hs : Serving p st s)
    {f : ObexObject → ObexObject} (hf : ∀ o, (f o).txHeaderq = o.txHeaderq) :
    wp (update q f) (fun _ => Serving p st) NoNullObject s := by
  rw [wp_update]
  refine ⟨fun o ho => hs.setObject fun hq => ?_, fun _ => by simp [NoNullObject]⟩
  rw [hq] at ho
  have := hs.fits o ho
  unfold FitsMtu
  rwa [hf]

omit happ in
theorem serving_update {p : Ptr} {st : State} {s : Obex} (hs : Serving p st s)
    {f : ObexObject → ObexObject} (hf : ∀ o, (f o).txHeaderq = o.txHeaderq) :
    wp (updateCurrent f) (fun _ => Serving p st) NoNullObject s :=
  wp_seq (serving_selfObject hs) fun _ _ hs => serving_update_at hs.2 hf

omit happ in
theorem serving_currentOpcode {p : Ptr} {st : State} {s : Obex} (hs : Serving p st s) :
    wp currentOpcode (fun _ => Serving p st) NoNullObject s :=
  keeps_currentOpcode (stops_noNullObject _) (fun s hs => by simp [hs.object]) s hs

omit happ in
theorem serving_deref {p q : Ptr} {st : State} {s : Obex} (hs : Serving p st s) :
    wp (deref q) (fun _ => Serving p st) NoNullObject s :=
  keeps_deref (stops_noNullObject _) q s hs

/-- The state is reset, then the last event is delivered. -/
theorem server_finish {p : Ptr} {st : State} {s : Obex} (hs : Serving p st s) (event : Event)
    (rsp : UInt8) (ret : Int) :
    wp (do
      setState .srv .idle
      obexDeliverEvent (E.ctx serverGuard n) event (← currentOpcode) rsp true
      pure ret) (fun _ => ServerInv) NoNullObject s := by
  rw [wp_bind, OpenObex.setState, wp_modify]
  refine wp_seq (serving_currentOpcode hs.setState) fun op s hs => ?_
  exact wp_seq (idle_event happ hs.mode hs.state hs.mtuRx _ _ _) fun _ _ h => h.inv

theorem server_abort {p : Ptr} {st : State} {s : Obex} (hs : Serving p st s) (cmd : UInt8) :
    wp (serverAbort (E.ctx serverGuard n) cmd) (fun _ => ServerInv) NoNullObject s :=
  wp_seq (serving_response p st _ s hs) fun _ _ hs' => server_finish happ hs' _ _ _

theorem server_parseerr {p : Ptr} {st : State} {s : Obex} (hs : Serving p st s) (cmd : UInt8) :
    wp (serverParseerr (E.ctx serverGuard n) cmd) (fun _ => ServerInv) NoNullObject s :=
  wp_seq (serving_response p st _ s hs) fun _ _ hs' => server_finish happ hs' _ _ _

/-- The response: sent, or put off while the object is suspended. -/
theorem server_respond {p : Ptr} {st : State} {s : Obex} (hs : Serving p st s) (hst : st ≠ .idle)
    (hst' : st ≠ .start) (cmd : UInt8) :
    wp (serverRespond (E.ctx serverGuard n) cmd) (fun _ => ServerInv) NoNullObject s := by
  refine wp_seq (serving_update hs fun _ => rfl) fun _ s hs => ?_
  refine wp_seq (serving_selfObject hs) ?_
  rintro _ s ⟨rfl, hs⟩
  refine wp_seq (serving_deref hs) fun o s hs => ?_
  split
  · exact hs.inv hst hst'
  refine wp_seq (serving_send happ _ st true true s hs) ?_
  rintro ret s ⟨hs, hret⟩
  split
  · refine wp_seq (serving_event happ hs (by simp) cmd 0) fun _ s hs => ?_
    refine wp_seq (serving_update hs.1 fun _ => rfl) fun _ s hs => ?_
    refine wp_seq (serving_update hs fun _ => rfl) fun _ s hs => ?_
    exact hs.inv hst hst'
  · rw [if_neg (by omega), wp_bind, wp_when]
    have finish {s : Obex} (hm : obexMinimumMtu ≤ s.mtuRx) :
        wp (do
          setState .srv .idle
          obexDeliverEvent (E.ctx serverGuard n) .reqdone cmd 0 true
          pure 0) (fun (_ : Int) => ServerInv) NoNullObject s := by
      rw [wp_bind, OpenObex.setState, wp_modify]
      exact wp_seq (idle_event (s := s.setState .srv .idle) happ rfl rfl hm _ _ _) fun _ _ h => h.inv
    exact ⟨fun _ => finish hs.mtuRx, fun _ => finish hs.mtuRx⟩

omit happ in
theorem server_receiveUnexpected {p : Ptr} {st : State} {s : Obex}
    (happ : ∀ log, ∀ c ∈ E.app log, ServerCall c) (hs : Serving p st s) (connect : Bool) :
    wp (receiveUnexpected (E.ctx serverGuard n) connect) (fun _ => Serving p st) NoNullObject s := by
  unfold receiveUnexpected
  split
  · exact hs
  · exact wp_seq (serving_receive happ p st s hs) fun _ _ hs => hs

theorem server_send {p : Ptr} {st : State} {s : Obex} (hs : Serving p st s) (hst : st ≠ .idle)
    (hst' : st ≠ .start) (cmd : UInt8) (len : Nat) :
    wp (serverSend (E.ctx serverGuard n) cmd len) (fun _ => ServerInv) NoNullObject s := by
  unfold serverSend
  split
  · exact server_abort happ hs cmd
  split
  · refine wp_seq (server_receiveUnexpected happ hs _) fun bad s hs => ?_
    split
    · exact server_parseerr happ hs 0
    refine wp_seq (serving_currentOpcode hs) fun op s hs => ?_
    refine wp_seq (serving_event happ hs (by simp) _ _) fun _ s hs => ?_
    exact server_respond happ hs.1 hst hst' cmd
  · exact server_respond happ hs hst hst' cmd

theorem server_check {p : Ptr} {st : State} {s : Obex} (hs : Serving p st s) (cmd : UInt8)
    (final : Bool) :
    wp (serverCheck (E.ctx serverGuard n) cmd final) (fun _ => Serving p st) NoNullObject s := by
  unfold serverCheck
  split
  · exact hs
  refine wp_seq (serving_selfObject hs) fun q s hs => ?_
  refine wp_seq (serving_deref hs.2) fun o s hs => ?_
  have hcheck : wp (when (¬ o.checked) do
      obexDeliverEvent (E.ctx serverGuard n) .reqcheck cmd 0 false
      updateCurrent fun o => { o with checked := true }) (fun _ => Serving p st) NoNullObject s := by
    rw [wp_when]
    refine ⟨fun _ => ?_, fun _ => hs⟩
    exact wp_seq (serving_event happ hs (by simp) _ _) fun _ s hs => serving_update hs.1 fun _ => rfl
  refine wp_seq hcheck fun _ s hs => wp_seq (serving_currentOpcode hs) fun op s hs => ?_
  split
  · exact hs
  · exact hs.emit _

omit happ in
theorem serving_connectframe {p q : Ptr} {st : State} {s : Obex} (hs : Serving p st s) :
    wp (obexInsertConnectframe (E.ctx serverGuard n) q) (fun _ => Serving p st) NoNullObject s := by
  refine keeps_connectframe (stops_noNullObject _) (fun s o d hs ho => hs.setObject fun hq => ?_) s hs
  rw [hq] at ho
  exact hs.fits o ho

theorem server_rec {p : Ptr} {s : Obex} (hs : Serving p .recv s) (cmd : UInt8) (len : Nat)
    (final : Bool) :
    wp (serverRec (E.ctx serverGuard n) cmd len final) (fun _ => ServerInv) NoNullObject s := by
  unfold serverRec
  split
  · exact server_abort happ hs cmd
  refine wp_seq (serving_selfObject hs) fun q s hs => ?_
  refine wp_seq (serving_deref hs.2) fun o s hs => ?_
  split
  · exact server_parseerr happ hs cmd
  refine wp_seq (serving_receive happ p .recv s hs) fun ret s hs => ?_
  split
  · exact server_parseerr happ hs 0
  refine wp_seq (server_check happ hs cmd final) ?_
  rintro ⟨final, deny⟩ s hs
  refine wp_seq (serving_selfObject hs) fun q s hq => ?_
  rw [hq.1]
  replace hs := hq.2
  split
  · refine wp_seq (serving_send happ p .recv false true s hs) ?_
    rintro ret s ⟨hs, hret⟩
    rw [if_neg (by omega)]
    exact wp_seq (serving_event happ hs (by simp) cmd 0) fun _ s hs => hs.1.inv (by simp) (by simp)
  refine wp_seq (serving_deref hs) fun o s hs => ?_
  split
  · have hframe : wp (when (cmd = obexCmdConnect) do
        let _ ← obexInsertConnectframe (E.ctx serverGuard n) p) (fun _ => Serving p .recv)
        NoNullObject s := by
      rw [wp_when]
      exact ⟨fun _ => wp_seq (serving_connectframe hs) fun _ _ hs => hs, fun _ => hs⟩
    refine wp_seq hframe fun _ s hs => ?_
    have hreq : wp (when (¬ deny) (obexDeliverEvent (E.ctx serverGuard n) .req cmd 0 false))
        (fun _ => Serving p .recv) NoNullObject s := by
      rw [wp_when]
      refine ⟨fun _ => ?_, fun _ => hs⟩
      exact wp_conseq (serving_event happ hs (by simp) cmd 0) fun _ _ hs => hs.1
    refine wp_seq hreq fun _ s hs => ?_
    rw [wp_bind, OpenObex.setState, wp_modify]
    exact server_send happ hs.setState (by simp) (by simp) cmd 3
  · exact server_send happ hs (by simp) (by simp) cmd len

theorem server_connect {p : Ptr} {s : Obex} (hs : Serving p .idle { s with mtuTx := announcedMtu s })
    (cmd : UInt8) (len : Nat) (final : Bool) :
    wp (serverConnect (E.ctx serverGuard n) cmd len final) (fun _ => ServerInv) NoNullObject s := by
  rw [serverConnect, wp_bind]
  refine wp_parseConnectHeader (by simp [NoNullObject]) ?_ ?_
  · rw [if_neg (by decide)]
    refine wp_seq (serving_update hs fun _ => rfl) fun _ s hs => ?_
    rw [wp_bind, OpenObex.setState, wp_modify]
    exact server_rec happ hs.setState cmd len final
  · -- the object is there, but its headers are of no account any more
    let P (s : Obex) := s.object = some p ∧ s.mode = .srv ∧ s.state = .idle ∧ obexMinimumMtu ≤ s.mtuRx
    have hP : P s := ⟨hs.object, hs.mode, hs.state, hs.mtuRx⟩
    rw [if_pos (by decide)]
    refine wp_seq (keeps_ctx_response (P := P) (stops_noNullObject _) (fun _ _ h => h)
      (fun _ _ h => h) _ s hP) fun _ s hP => ?_
    refine wp_seq (keeps_currentOpcode (P := P) (stops_noNullObject _) (fun s h => by simp [h.1]) s hP)
      fun op s hP => ?_
    exact wp_seq (idle_event happ hP.2.1 hP.2.2.1 hP.2.2.2 _ _ _) fun _ _ h => h.inv

theorem server_hint {p : Ptr} {s : Obex} (hs : Serving p .idle s) (cmd : UInt8) (len : Nat)
    (final : Bool) :
    wp (serverHint (E.ctx serverGuard n) cmd len final) (fun _ => ServerInv) NoNullObject s := by
  refine wp_seq (server_event happ hs _ _ _) ?_
  rintro - s' ⟨⟨hh, hm⟩, ha⟩
  have ho : s'.object = some p := (congrArg Handle.object hh).trans hs.object
  have hmode : s'.mode = .srv := (congrArg Handle.mode hh).trans hs.mode
  have hst : s'.state = .idle := (congrArg Handle.state hh).trans hs.state
  have hready : s'.trans.type = .usb → s'.trans.connected = true := by
    rw [show s'.trans = s.trans from congrArg Handle.trans hh]
    exact hs.ready
  split
  · subst cmd
    refine server_connect happ ⟨ho, hmode, hst, hm, fun o ho => ?_, hready⟩ _ len final
    have := (ha o ho).2
    rwa [nextMtu, if_pos ⟨rfl, rfl⟩] at this
  · rename_i hcmd
    replace hs : Serving p .idle s' := ⟨ho, hmode, hst, hm, fun o ho => by
      have := (ha o ho).2
      rwa [nextMtu, if_neg fun h => hcmd h.2] at this, hready⟩
    have hpath : wp (when (cmd = obexCmdSetpath) (updateCurrent fun o => { o with headeroffset := 2 }))
        (fun _ => Serving p .idle) NoNullObject s' := by
      rw [wp_when]
      exact ⟨fun _ => serving_update hs fun _ => rfl, fun _ => hs⟩
    refine wp_seq hpath fun _ s hs => ?_
    rw [wp_bind, OpenObex.setState, wp_modify]
    exact server_rec happ hs.setState cmd len final

theorem server_idle {s : Obex} (hs : Idle s) (hr : s.trans.type = .usb → s.trans.connected = true)
    (cmd : UInt8) (len : Nat) (final : Bool) :
    wp (serverIdle (E.ctx serverGuard n) cmd len final) (fun _ => ServerInv) NoNullObject s := by
  rw [serverIdle, wp_bind, wp_get, if_neg (by simp [hs.object]), wp_bind]
  refine wp_objectNew ?_ ?_
  · refine wp_seq (keeps_ctx_response (P := Idle) (stops_noNullObject _) ?_ ?_ _ s hs)
      fun _ s hs => hs.inv
    · exact fun _ _ h => ⟨h.object, h.mode, h.state, h.mtuRx⟩
    · exact fun _ _ h => ⟨h.object, h.mode, h.state, h.mtuRx⟩
  have hnew : Serving s.fresh .idle { (({ s with fresh := s.fresh + 1 } : Obex).setObject s.fresh
      (some (obexObjectSetrsp zeroObject obexRspNotImplemented obexRspNotImplemented))) with
      object := some s.fresh } := by
    refine ⟨rfl, hs.mode, hs.state, hs.mtuRx, fun o ho => ?_, hr⟩
    simp only [Obex.setObject, if_true, Option.some.injEq] at ho
    subst ho
    simp [FitsMtu, obexObjectSetrsp, zeroObject]
  rw [wp_bind, wp_modify]
  exact wp_seq (serving_update_at hnew fun _ => rfl) fun _ s hs => server_hint happ hs cmd len final

theorem server_packet {s : Obex} (hs : ServerInv s)
    (hr : s.trans.type = .usb → s.trans.connected = true)
    (hf : s.current.all fun o => decide (FitsMtu s.mtuTx o)) (final : Bool) :
    wp (obexServer (E.ctx serverGuard n) final) (fun _ => ServerInv) NoNullObject s := by
  have hbyte {α : Type} {off : Nat} {f : UInt8 → M α} {Q : α → Obex → Prop}
      (h : ∀ b, wp (f b) Q NoNullObject s) : wp (byteAt s.rxMsg off >>= f) Q NoNullObject s := by
    rw [wp_bind]
    exact wp_byteAt (fun b _ => h b) (by simp [NoNullObject])
  rw [obexServer, wp_bind, wp_get]
  refine hbyte fun op => hbyte fun a => hbyte fun b => ?_
  have serving {p : Ptr} (hp : s.object = some p) : Serving p s.state s := by
    refine ⟨hp, hs.mode, rfl, hs.mtuRx, fun o ho => ?_, hr⟩
    simpa [Obex.current, hp, ho] using hf
  cases hst : s.state with
  | idle => exact server_idle happ ⟨hs.object.2 hst, hs.mode, hst, hs.mtuRx⟩ hr _ _ final
  | start => exact absurd hst hs.state
  | recv =>
    cases hp : s.object with
    | none => exact absurd (hs.object.1 hp) (by simp [hst])
    | some p => exact server_rec happ (hst ▸ serving hp) _ _ final
  | send =>
    cases hp : s.object with
    | none => exact absurd (hs.object.1 hp) (by simp [hst])
    | some p => exact server_send happ (hst ▸ serving hp) (by simp) (by simp) _ _

/-! ## Incoming data -/

/-- What reading and dispatching start from: the current object and the transport are fixed, and the
next packet can be served. -/
structure Fed (x : Option Ptr) (tr : Transport) (s : Obex) : Prop where
  inv : ServerInv s
  object : s.object = x
  trans : s.trans = tr
  ready : tr.type = .usb → tr.connected = true
  fits : s.current.all fun o => decide (FitsMtu s.mtuTx o)

omit happ in
theorem Fed.setRxMsg {x : Option Ptr} {tr : Transport} {s : Obex} (h : Fed x tr s) (b : Buf) :
    Fed x tr (s.setRxMsg b) :=
  ⟨⟨h.inv.mode, h.inv.mtuRx, h.inv.object, h.inv.state⟩, h.object, h.trans, h.ready, h.fits⟩

omit happ in
theorem Fed.emit {x : Option Ptr} {tr : Transport} {s : Obex} (h : Fed x tr s) (o : Obs) :
    Fed x tr (s.emit o) :=
  ⟨⟨h.inv.mode, h.inv.mtuRx, h.inv.object, h.inv.state⟩, h.object, h.trans, h.ready, h.fits⟩

omit happ in
theorem fed_read {x : Option Ptr} {tr : Transport} {max : Nat} (hmax : 0 < max) (buf : Bytes)
    (buflen : Int) :
    Yields (Fed x tr) NoNullObject (fun r => x ≠ none ∧ tr.type ≠ .custom → 0 < r)
      (obexTransportRead (E.ctx serverGuard n) max buf buflen) := by
  refine ReadFrame.obexTransportRead ⟨stops_noNullObject _, fun s b h => h.setRxMsg b,
    fun s r h => h.emit _, fun ht s r h hg => ?_⟩ buf buflen hmax (fun ht s h => ?_) (fun ht s h => ?_)
    fun _ s h => ?_
  · have hx : s.object.isNone = false := by
      rw [h.object]
      cases x <;> simp_all
    match r with
    | none => simp [serverGuard, hx] at hg
    | some [] => simp [serverGuard, hx] at hg
    | some (b :: bs) => exact ⟨b, bs, rfl⟩
  · rw [h.trans]
    exact ht.2
  · rw [h.trans]
    exact h.ready
  · have := h.inv.mtuRx
    unfold obexMinimumMtu at this
    omega

theorem fed_dispatch {x : Option Ptr} {tr : Transport} {s : Obex} (hs : Fed x tr s) (final : Bool) :
    wp (dispatch (E.ctx serverGuard n) final) (fun _ => ServerInv) NoNullObject s := by
  rw [dispatch, ctx_recv, wp_bind]
  refine wp_packetReceived (fun _ => ?_) (by simp [NoNullObject])
  replace hs := hs.emit (.recv s.rxMsg.contents)
  generalize s.emit (.recv s.rxMsg.contents) = s at hs
  rw [wp_bind, wp_get, hs.inv.mode]
  have hr : s.trans.type = .usb → s.trans.connected = true := by
    rw [hs.trans]
    exact hs.ready
  refine wp_seq (server_packet happ hs.inv hr hs.fits final) fun ret s hs => ?_
  rw [wp_bind, wp_modify]
  exact ⟨hs.mode, hs.mtuRx, hs.object, hs.state⟩

theorem fed_linkError {tr : Transport} {s : Obex} (hs : Fed none tr s) (actual : Int) :
    wp (linkError (E.ctx serverGuard n) actual) (fun _ => ServerInv) NoNullObject s := by
  have hst : s.state = .idle := hs.inv.object.1 hs.object
  exact wp_seq (idle_event happ hs.inv.mode hst hs.inv.mtuRx _ _ _) fun _ _ h => h.inv

/-! ## Runs -/

theorem server_indication {s : Obex} (hs : ServerInv s) (hr : readyFor s = true) {buf : Option Bytes}
    (hb : buf = none → s.trans.type ≠ .custom) (buflen : Int) :
    wp (obexDataIndication (E.ctx serverGuard n) buf buflen) (fun _ => ServerInv) NoNullObject s := by
  simp only [readyFor, Bool.and_eq_true, decide_eq_true_eq] at hr
  by_cases hc : s.trans.type = .usb → s.trans.connected = true
  · refine wp_dataIndication (P := Fed s.object s.trans) (stops_noNullObject _) (fun _ h => h.inv)
      (fun max buf buflen hmax => fed_read hmax buf buflen)
      (fun s final hs _ => fed_dispatch happ hs final) ⟨hs, rfl, rfl, hc, hr.2⟩
      fun hn hx s₁ actual h => ?_
    have hx : s.object = none := by
      by_contra ho
      exact hx ⟨ho, hb hn⟩
    rw [hx] at h
    exact fed_linkError happ h actual
  · simp only [Classical.not_imp] at hc
    obtain ⟨ho, hd⟩ := (hr.1 hc.1).resolve_left hc.2
    refine wp_dataIndication_disconnected hc.1 hc.2 hd hs fun actual => ?_
    exact wp_seq (idle_event happ hs.mode (hs.object.1 ho) hs.mtuRx _ _ _) fun _ _ h => h.inv

theorem server_step {op : Op} (hop : ServerOp op) {s : Obex} (hs : ServerInv s)
    (hg : serverGuard.op op s = true) :
    wp (runOp (E.ctx serverGuard n) serverGuard op) (fun _ => ServerInv) NoNullObject s := by
  rw [runOp, wp_bind, wp_get, wp_bind, wp_allowed]
  refine ⟨fun _ => ?_, fun h => by simp [hg] at h⟩
  cases op with
  | call c =>
    rcases hop with hp | rfl
    · refine wp_seq (AppFrame.passive (P := ServerInv) ⟨stops_noNullObject _, ?_, ?_, ?_, ?_, ?_⟩ hp s
        hs) fun _ _ h => h
      · exact fun _ h => ⟨h.mode, h.mtuRx, h.object, h.state⟩
      · exact fun _ _ _ _ h _ _ => ⟨h.mode, h.mtuRx, h.object, h.state⟩
      · exact fun _ _ h => ⟨h.mode, h.mtuRx, h.object, h.state⟩
      · exact fun _ _ h => ⟨h.mode, h.mtuRx, h.object, h.state⟩
      · exact fun _ _ _ _ _ hr _ h => ⟨h.mode, hr, h.object, h.state⟩
    · have hn : s.object.isNone = true := hg
      refine wp_seq (P := fun _ => ServerInv) ?_ fun _ _ h => h
      rw [api, obexCancelrequest, wp_bind, wp_get, if_pos hn]
      exact hs
  | transportConnect mtu => exact ⟨hs.mode, hs.mtuRx, hs.object, hs.state⟩
  | customDataFeed d =>
    exact wp_seq (server_indication happ hs hg (by simp) _) fun _ _ h => h
  | handleInput =>
    dsimp only
    split
    · exact hs
    · exact wp_seq (server_indication happ hs hg (fun _ => ‹_›) _) fun _ _ h => h

end

theorem obexInit_inv (t : TransportType) : ServerInv (obexInit t) := by
  refine ⟨rfl, ?_, by simp [obexInit], by simp [obexInit]⟩
  unfold obexInit obexMinimumMtu obexMaximumMtu obexDefaultMtu
  dsimp only
  split <;> omega

/-- In every run whose steps fail no request half-way, after every call the handle has an object
exactly while it is not idle, and no null `self->object` is ever used. -/
theorem server_object_iff_busy (E : Env) (t : TransportType) (n : Nat) (ops : List Op)
    (happ : ∀ log, ∀ c ∈ E.app log, ServerCall c) (hops : ∀ op ∈ ops, ServerOp op) :
    wp (run (E.ctx serverGuard n) serverGuard ops)
      (fun _ s => s.object = none ↔ s.mode = .srv ∧ s.state = .idle)
      (fun e _ => e ≠ .fault .nullObject) (obexInit t) := by
  refine wp_mono (wp_run (stops_noNullObject _) (obexInit_inv t)
    fun op ho s hs hg => server_step happ (hops op ho) hs hg) (fun _ s hs => ?_) fun _ _ he => he
  rw [hs.object]
  simp [hs.mode]

/-! ## A request that cannot be answered -/

/-- A peer that sends a packet and is gone. -/
def deafPeer : Env where
  malloc _ := true
  app _ := []
  write _ _ := -1
  read _ _ := none

/-- The answer to a PUT cannot be written: the object is gone, the state is not reset. -/
theorem server_object_leak :
    ¬ ∀ (E : Env) (t : TransportType) (n : Nat) (ops : List Op),
      (∀ log, ∀ c ∈ E.app log, ServerCall c) → (∀ op ∈ ops, ServerOp op) →
      wp (run (E.ctx .all n) .all ops) (fun _ s => s.object = none ↔ s.mode = .srv ∧ s.state = .idle)
        (fun e _ => e ≠ .fault .nullObject) (obexInit t) := by
  intro h
  have hrun := h deafPeer .custom 1 [.customDataFeed [0x02, 0x00, 0x03]] (by simp [deafPeer])
    (by simp [ServerOp])
  have hend : endsWith (run (deafPeer.ctx .all 1) .all [.customDataFeed [0x02, 0x00, 0x03]])
      (obexInit .custom) (fun s => decide (s.object = none ∧ s.state = .send)) = true := by
    decide +kernel
  obtain ⟨-, s, hs, hiff⟩ := exists_of_endsWith hend hrun
  simp only [decide_eq_true_eq] at hs
  have := hiff.1 hs.1
  simp [hs.2] at this

/-- A server that accepts the first packet of a PUT. -/
def putServer : Env where
  malloc _ := true
  app log := match log.getLast? with
    | some (.event n) =>
      if n.event = .reqhint then [.objectSetRsp 0 obexRspContinue obexRspSuccess] else []
    | _ => []
  write _ d := d.length
  read _ _ := none

theorem putServer_calls (log : List Obs) : ∀ c ∈ putServer.app log, ServerCall c := by
  intro c hc
  simp only [putServer] at hc
  split at hc
  · split at hc
    · simp only [List.mem_singleton] at hc
      subst hc
      exact .inl rfl
    · cases hc
  · cases hc

/-- The first packet of a PUT is answered, and the request stays in progress. -/
theorem server_object_iff_busy_put :
    endsWith (run (putServer.ctx serverGuard 2) serverGuard [.customDataFeed [0x02, 0x00, 0x03]])
        (obexInit .custom) (fun s => decide (s.object = some 0 ∧ s.state = .recv)) = true ∧
      wp (run (putServer.ctx serverGuard 2) serverGuard [.customDataFeed [0x02, 0x00, 0x03]])
        (fun _ s => s.object = none ↔ s.mode = .srv ∧ s.state = .idle)
        (fun e _ => e ≠ .fault .nullObject) (obexInit .custom) :=
  ⟨by decide +kernel, server_object_iff_busy putServer .custom 2 _ putServer_calls (by simp [ServerOp])⟩

end OpenObex
