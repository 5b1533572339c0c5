import OpenObex.Proof.ServerRole

/-!
# The client: idle again however a request ended

A request ends with the state reset to idle except where one of its packets cannot be sent, the link
fails or it is cancelled without an ABORT. `clientGuard` bars these steps, and in every run without
them either a request is in progress, in the state `STATE_REC`, or the handle is idle
(`client_idle_or_receiving`).
-/

namespace OpenObex

open Mem Prog

/-! ## The steps that leave the state behind -/

/-- The packet in `rx_msg` is a CONTINUE. -/
def isContinue (d : Bytes) : Bool := d.head?.all fun op => decide (withoutFinal op = obexRspContinue)

/-- The next thing to do for the request is to send: it is new, or the last response is a CONTINUE. -/
def sendsNext (log : List Obs) : Bool :=
  log.foldl (fun b x => match x with
    | .request _ => true
    | .recv d => isContinue d
    | _ => b) false

@[simp] theorem sendsNext_append (log : List Obs) (x : Obs) :
    sendsNext (log ++ [x]) = match x with
      | .request _ => true
      | .recv d => isContinue d
      | _ => sendsNext log := by
  simp only [sendsNext, List.foldl_append, List.foldl_cons, List.foldl_nil]

/-- The `mtu_tx` of the next packet of `o`: a response to DISCONNECT resets it. -/
def continueMtu (s : Obex) (o : ObexObject) : Nat :=
  if o.opcode = obexCmdDisconnect then obexMinimumMtu else s.mtuTx

/-- USB is connected, or nothing is in progress. -/
def usbReady (s : Obex) : Bool :=
  decide (s.trans.type = .usb → s.trans.connected = true ∨ (s.object = none ∧ s.rxMsg.dataSize < 3))

/-- The packets of the request at `p` can be sent. -/
def canRequest (p : Ptr) (s : Obex) : Bool :=
  decide (s.trans.type = .usb → s.trans.connected = true) &&
    (s.objects p).all fun o => decide (FitsMtu s.mtuTx o)

/-- No step of the run fails a request half-way: while there is an object, reads and the writes of its
packets succeed, it is not cancelled without an ABORT, its headers fit in `mtu_tx` when they are sent,
and every `OBEX_EV_STREAMEMPTY` is answered. Packets arrive only while a request is in progress. -/
def clientGuard : Guard where
  op op s := match op with
    | .call (.cancelRequest false) => s.object.isNone
    | .call (.request p) => s.object.isSome || canRequest p s
    | .customDataFeed _ => usbReady s
    | .handleInput => usbReady s
    | _ => true
  nested c s := match c with
    | .cancelRequest false => s.object.isNone
    | .request p => s.object.isSome || canRequest p s
    | _ => true
  after n s := s.current.all fun o => decide (n.event = .streamempty → Answered o) &&
    (!sendsNext s.log || decide (FitsMtu s.mtuTx o))
  write s r := decide (lastWrite s.log = s.object → 0 ≤ r)
  read s r := s.object.isNone || (match r with
    | some (_ :: _) => true
    | _ => false)
  recv s := decide (s.mode = .cli) && (!isContinue s.rxMsg.contents ||
    s.current.all fun o => decide (FitsMtu s.mtuTx o) && decide (FitsMtu (continueMtu s o) o))

/-- The calls of an application that only makes requests. -/
def ClientCall (c : Call) : Prop := c ≠ .resumeRequest

def ClientOp : Op → Prop
  | .call c => ClientCall c
  | _ => True

/-! ## The states of a client -/

/-- `obex_client` has not met a state it does not know: it reports that as a parse error without
leaving the client mode. -/
def NoUnknownState (log : List Obs) : Prop :=
  ∀ n, Obs.event n ∈ log → n.event = .parseerr → n.mode = .srv

theorem NoUnknownState.append {log : List Obs} (h : NoUnknownState log) {x : Obs}
    (hx : ∀ n, x = .event n → n.event = .parseerr → n.mode = .srv) : NoUnknownState (log ++ [x]) := by
  intro n hn
  rcases List.mem_append.1 hn with hn | hn
  · exact h n hn
  · exact hx n (List.mem_singleton.1 hn).symm

/-- A request is in progress, in state `st` or, after `OBEX_CancelRequest`, waiting for a response;
`k` tells whether a packet of it is to be sent. -/
structure Held (p : Ptr) (st : State) (k : Bool) (s : Obex) : Prop where
  object : s.object = some p
  mode : s.mode = .cli
  state : s.state = st ∨ s.state = .recv
  mtuRx : obexMinimumMtu ≤ s.mtuRx
  ready : s.trans.type = .usb → s.trans.connected = true
  next : sendsNext s.log = k
  known : NoUnknownState s.log

/-- If a packet is to be sent, its headers fit. -/
structure Requesting (p : Ptr) (st : State) (k : Bool) (s : Obex) : Prop extends Held p st k s where
  fits : k = true → ∀ o, s.objects p = some o → FitsMtu s.mtuTx o

/-- The invariant between two library calls. -/
structure ClientInv (s : Obex) : Prop where
  mtuRx : obexMinimumMtu ≤ s.mtuRx
  known : NoUnknownState s.log
  ready : s.object ≠ none → s.trans.type = .usb → s.trans.connected = true
  state : (s.object ≠ none ∧ s.mode = .cli ∧ s.state = .recv) ∨
    (s.object = none ∧ s.mode = .srv ∧ s.state = .idle)

theorem Held.inv {p : Ptr} {k : Bool} {s : Obex} (h : Held p .recv k s) : ClientInv s :=
  ⟨h.mtuRx, h.known, fun _ => h.ready, .inl ⟨by simp [h.object], h.mode, h.state.elim id id⟩⟩

theorem Idle.clientInv {s : Obex} (h : Idle s) (hk : NoUnknownState s.log) : ClientInv s :=
  ⟨h.mtuRx, hk, fun hn => absurd h.object hn, .inr ⟨h.object, h.mode, h.state⟩⟩

namespace Held

variable {p : Ptr} {st : State} {k : Bool} {s : Obex} (h : Held p st k s)
include h

theorem setTxMsg (b : Buf) : Held p st k (s.setTxMsg b) :=
  ⟨h.object, h.mode, h.state, h.mtuRx, h.ready, h.next, h.known⟩

theorem setRxMsg (b : Buf) : Held p st k (s.setRxMsg b) :=
  ⟨h.object, h.mode, h.state, h.mtuRx, h.ready, h.next, h.known⟩

theorem fresh : Held p st k { s with fresh := s.fresh + 1 } :=
  ⟨h.object, h.mode, h.state, h.mtuRx, h.ready, h.next, h.known⟩

theorem emit {x : Obs} (hx : sendsNext (s.log ++ [x]) = sendsNext s.log)
    (hn : ∀ n, x = .event n → n.event ≠ .parseerr) : Held p st k (s.emit x) :=
  ⟨h.object, h.mode, h.state, h.mtuRx, h.ready, hx.trans h.next,
    h.known.append fun n hx hp => absurd hp (hn n hx)⟩

theorem setState {st' : State} : Held p st' k (s.setState .cli .recv) :=
  ⟨h.object, rfl, .inr rfl, h.mtuRx, h.ready, h.next, h.known⟩

theorem setObject (q : Ptr) (o : Option ObexObject) : Held p st k (s.setObject q o) :=
  ⟨h.object, h.mode, h.state, h.mtuRx, h.ready, h.next, h.known⟩

theorem selfObject : wp selfObject (fun q s' => q = p ∧ s' = s) NoNullObject s := by
  rw [wp_selfObject, h.object]
  exact ⟨fun q hq => ⟨by simpa using hq.symm, rfl⟩, by simp⟩

end Held

theorem Requesting.setObject {p q : Ptr} {st : State} {k : Bool} {s : Obex} {o' : ObexObject}
    (h : Requesting p st k s) (ho : q = p → k = true → FitsMtu s.mtuTx o') :
    Requesting p st k (s.setObject q (some o')) := by
  refine ⟨h.toHeld.setObject _ _, fun hn o hq => ?_⟩
  simp only [Obex.setObject] at hq
  split at hq
  · cases hq
    exact ho (by symm; assumption) hn
  · exact h.fits hn o hq

section
variable {E : Env} {n : Nat}

/-! ## The calls of the application -/

/-- `OBEX_CancelRequest` with an ABORT: the request waits for the response to it. -/
theorem held_cancel {p : Ptr} {st : State} {k : Bool} {s : Obex} (hs : Held p st k s) :
    wp (obexCancelrequest (E.ctx clientGuard n) true) (fun _ => Held p st k) NoNullObject s := by
  have hwrite : WriteFrame (E.ctx clientGuard n) (Held p st k) NoNullObject False := by
    refine ⟨stops_noNullObject _, fun s b hs => hs.setTxMsg b, fun chunk s hs => ?_, by simp⟩
    rw [ctx_write]
    exact wp_transportWrite (fun _ => ⟨hs.emit (by simp) (by simp), by simp⟩) (by simp [NoNullObject])
  exact CancelFrame.cancel ⟨hwrite, fun s hs => by simp [hs.object], fun s hs => hs.fresh,
    fun s q o hs => hs.setObject q o, fun s q hs => hs.emit (by simp) (by simp),
    fun s hs => hs.setState⟩ hs

/-- What an application may do while a request is in progress. -/
theorem held_call {p : Ptr} {st : State} {k : Bool} {c : Call} (hc : ClientCall c) {s : Obex}
    (hs : Held p st k s) (hg : clientGuard.nested c s = true) :
    wp (api (E.ctx clientGuard n) c) (fun _ s' => Held p st k s') NoNullObject s := by
  by_cases hp : c.passive = true
  · exact AppFrame.passive (P := Held p st k) ⟨stops_noNullObject _, fun _ h => h.fresh,
      fun _ _ _ _ h _ _ => h.setObject _ _, fun _ _ h => h.setObject _ _,
      fun _ _ h => h.setObject _ _,
      fun _ _ _ _ _ hr _ h => ⟨h.object, h.mode, h.state, hr, h.ready, h.next, h.known⟩⟩ hp s hs
  cases c with
  | request q =>
    rw [api, obexRequest, wp_bind, wp_get, if_pos (by simp [hs.object])]
    exact hs
  | cancelRequest nice =>
    cases nice with
    | true => exact held_cancel hs
    | false => simp [clientGuard, hs.object] at hg
  | resumeRequest => exact absurd rfl hc
  | _ => exact absurd rfl hp

variable (happ : ∀ log, ∀ c ∈ E.app log, ClientCall c)
include happ

/-- When the callback returns, the headers to be sent fit. -/
theorem held_event {p : Ptr} {st : State} {k : Bool} {s : Obex} (hs : Held p st k s) {event : Event}
    (hev : event ≠ .parseerr) (cmd rsp : UInt8) :
    wp (obexDeliverEvent (E.ctx clientGuard n) event cmd rsp false)
      (fun _ s' => Requesting p st k s' ∧
        (event = .streamempty → ∀ o, s'.objects p = some o → Answered o)) NoNullObject s := by
  refine wp_deliverEvent (wp_conseq (wp_eventcb (P := Held p st k) (stops_noNullObject _)
    (hs.emit (by simp) (by rintro _ ⟨⟩; exact hev)) fun m _ c hc s hs hg =>
    held_call (happ _ c hc) hs hg) ?_)
  rintro - s' ⟨hs', ha⟩
  simp only [clientGuard, Obex.current, hs'.object, Option.bind_some, Option.all_eq_true,
    Bool.and_eq_true, Bool.or_eq_true, Bool.not_eq_true', decide_eq_true_eq, hs'.next] at ha
  exact ⟨⟨hs', fun hk o ho => (ha o ho).2.resolve_left (by simp [hk])⟩, fun he o ho => (ha o ho).1 he⟩

theorem requesting_receive (p : Ptr) (st : State) (k : Bool) :
    Keeps (Requesting p st k) NoNullObject (obexObjectReceive (E.ctx clientGuard n)) := by
  refine RxFrame.receive ⟨stops_noNullObject _, keeps_selfObject fun s hs => by simp [hs.object],
    fun s b hs => ⟨hs.setRxMsg b, hs.fits⟩, fun s hs => ⟨hs.fresh, hs.fits⟩,
    fun s q o o' hs ho hr => hs.setObject fun hq hk => ?_, fun s hs => ?_⟩
  · rw [hq] at ho
    exact (hs.fits hk o ho).of_rxStep hr
  · exact wp_conseq (held_event happ hs.toHeld (by simp) _ _) fun _ _ h => h.1

omit happ in
theorem requesting_writeFrame (p : Ptr) (st : State) (k : Bool) :
    WriteFrame (E.ctx clientGuard n) (fun s => Requesting p st k s ∧ lastWrite s.log = some p)
      NoNullObject True := by
  refine ⟨stops_noNullObject _, fun s b hs => ⟨⟨hs.1.setTxMsg b, hs.1.fits⟩, hs.2⟩,
    fun chunk s hs => ?_, fun _ s hs => hs.1.ready⟩
  rw [ctx_write]
  refine wp_transportWrite (fun hg => ?_) (by simp [NoNullObject])
  have h : 0 ≤ E.write s.log chunk := by simpa [clientGuard, hs.2, hs.1.object] using hg
  refine ⟨⟨⟨hs.1.emit (by simp) (by simp), hs.1.fits⟩, ?_⟩, fun _ => h⟩
  simpa [Obex.emit] using hs.2

theorem requesting_send (p : Ptr) (st : State) :
    Yields (Requesting p st true) NoNullObject (fun r => 0 ≤ r)
      (obexObjectSend (E.ctx clientGuard n) p true false) := by
  intro s hs
  have hF : SendFrame (E.ctx clientGuard n) p (Requesting p st true) NoNullObject True := by
    refine ⟨stops_noNullObject _, fun s hs => hs.object,
      fun s b hs => ⟨hs.setTxMsg b, hs.fits⟩,
      fun s o o' hs ho ht => hs.setObject fun _ hk => (hs.fits hk o ho).of_txStep ht, fun s hs => ?_,
      fun _ s o hs ho => hs.fits rfl o ho⟩
    exact wp_conseq (held_event happ hs.toHeld (by simp) _ _) fun _ _ h => .inl ⟨h.1, fun _ => h.2 rfl⟩
  refine hF.send hs (fun o _ _ => ⟨hs, by simp⟩) (fun h => absurd trivial h) fun s o hs ho => ?_
  refine wp_conseq (wp_dataRequest (requesting_writeFrame p st true) (fun e he => he) fun b _ => ?_) ?_
  · exact ⟨⟨(hs.setTxMsg b).emit (by simp) (by simp), hs.fits⟩, by simp [Obex.emit]⟩
  · rintro r s' ⟨⟨hs', -⟩, hr⟩
    have hr := hr trivial
    refine ⟨hs', ?_⟩
    split
    · omega
    · split <;> simp

/-! ## The functions of the client -/

omit happ in
theorem requesting_update {p q : Ptr} {st : State} {k : Bool} {s : Obex} (hs : Requesting p st k s)
    {f : ObexObject → ObexObject} (hf : ∀ o, (f o).txHeaderq = o.txHeaderq) :
    wp (update q f) (fun _ => Requesting p st k) NoNullObject s := by
  rw [wp_update]
  refine ⟨fun o ho => hs.setObject fun hq hk => ?_, fun _ => by simp [NoNullObject]⟩
  rw [hq] at ho
  have := hs.fits hk o ho
  unfold FitsMtu
  rwa [hf]

omit happ in
theorem requesting_updateCurrent {p : Ptr} {st : State} {k : Bool} {s : Obex}
    (hs : Requesting p st k s) {f : ObexObject → ObexObject}
    (hf : ∀ o, (f o).txHeaderq = o.txHeaderq) :
    wp (updateCurrent f) (fun _ => Requesting p st k) NoNullObject s :=
  wp_seq hs.selfObject fun _ _ hq => requesting_update (hq.2 ▸ hs) hf

omit happ in
theorem requesting_currentOpcode {p : Ptr} {st : State} {k : Bool} {s : Obex}
    (hs : Requesting p st k s) :
    wp currentOpcode (fun op s' => s' = s ∧ ∃ o, s.objects p = some o ∧ o.opcode = op)
      NoNullObject s := by
  refine wp_seq hs.selfObject ?_
  rintro _ _ ⟨rfl, rfl⟩
  rw [wp_bind, wp_deref]
  exact ⟨fun o ho => ⟨rfl, o, ho, rfl⟩, fun _ => by simp [NoNullObject]⟩

theorem client_start {p : Ptr} {st : State} {s : Obex} (hs : Requesting p st true s) (rsp : UInt8) :
    wp (clientStart (E.ctx clientGuard n) rsp) (fun _ => ClientInv) NoNullObject s := by
  rw [clientStart, wp_bind, wp_get, hs.object]
  refine wp_seq (requesting_send happ p st s hs) ?_
  rintro ret s ⟨hs, hret⟩
  rw [if_neg (by omega)]
  refine wp_seq (requesting_updateCurrent hs fun _ => rfl) fun _ s hs => ?_
  refine wp_seq (requesting_currentOpcode hs) fun op s' hs' => ?_
  refine wp_seq (held_event happ (hs'.1 ▸ hs.toHeld) (by simp) _ _) fun _ s hs => ?_
  rw [wp_bind, OpenObex.setState, wp_modify]
  have hrecv : Held p .recv true _ := hs.1.toHeld.setState
  exact hrecv.inv

/-- What an application may do between two library calls and in its last callback. -/
theorem client_call {c : Call} (hc : ClientCall c) {s : Obex} (hs : ClientInv s)
    (hg : clientGuard.nested c s = true) :
    wp (api (E.ctx clientGuard n) c) (fun _ => ClientInv) NoNullObject s := by
  by_cases hp : c.passive = true
  · exact AppFrame.passive (P := ClientInv) ⟨stops_noNullObject _,
      fun _ h => ⟨h.mtuRx, h.known, h.ready, h.state⟩, fun _ _ _ _ h _ _ =>
      ⟨h.mtuRx, h.known, h.ready, h.state⟩, fun _ _ h => ⟨h.mtuRx, h.known, h.ready, h.state⟩,
      fun _ _ h => ⟨h.mtuRx, h.known, h.ready, h.state⟩, fun _ _ _ _ _ hr _ h =>
        ⟨hr, h.known, h.ready, h.state⟩⟩ hp s hs
  rcases hs.state with ⟨ho, hm, hst⟩ | ⟨ho, hm, hst⟩
  · obtain ⟨p, ho⟩ := Option.ne_none_iff_exists'.1 ho
    have held : Held p .recv (sendsNext s.log) s :=
      ⟨ho, hm, .inl hst, hs.mtuRx, hs.ready (by simp [ho]), rfl, hs.known⟩
    exact wp_conseq (held_call hc held hg) fun _ _ h => h.inv
  cases c with
  | request q =>
    rw [api, obexRequest, wp_bind, wp_get, if_neg (by simp [ho]), wp_bind, wp_set]
    simp only [clientGuard, canRequest, ho, Option.isSome_none, Bool.false_or, Bool.and_eq_true,
      decide_eq_true_eq, Option.all_eq_true] at hg
    have hreq : Requesting q .start true
        (({ s with object := some q, mode := .cli, state := .start } : Obex).emit (.request q)) :=
      ⟨⟨rfl, rfl, .inl rfl, hs.mtuRx, hg.1, by simp [Obex.emit],
        hs.known.append (by simp)⟩, fun _ o ho => hg.2 o ho⟩
    rw [obexClient, wp_bind, wp_get, wp_bind, if_neg (by simp), wp_pure]
    exact client_start happ hreq _
  | cancelRequest nice =>
    rw [api, obexCancelrequest, wp_bind, wp_get, if_pos (by simp [ho])]
    exact hs
  | resumeRequest => exact absurd rfl hc
  | _ => exact absurd rfl hp

/-- The last event of a request: the state has been reset before, and the application may make the
next request at once. -/
theorem client_last {s : Obex} (hm : s.mode = .srv) (hst : s.state = .idle)
    (hr : obexMinimumMtu ≤ s.mtuRx) (hk : NoUnknownState s.log) (event : Event) (cmd rsp : UInt8) :
    wp (obexDeliverEvent (E.ctx clientGuard n) event cmd rsp true) (fun _ => ClientInv)
      NoNullObject s := by
  refine wp_deliverLast (wp_conseq (wp_eventcb (P := ClientInv) (stops_noNullObject _) ?_
    fun m _ c hc s hs hg => client_call happ (happ _ c hc) hs hg) ?_)
  · refine Idle.clientInv ⟨rfl, hm, hst, hr⟩ (hk.append ?_)
    rintro _ ⟨⟩ -
    exact hm
  · rintro - s' ⟨h, -⟩
    exact ⟨fun p _ => ⟨⟨h.mtuRx, h.known, h.ready, h.state⟩, by simp [NoNullObject]⟩, fun _ => h⟩

/-- The state is reset, then the last event is delivered. -/
theorem client_finish {p : Ptr} {s : Obex} (ho : s.object = some p) (hr : obexMinimumMtu ≤ s.mtuRx)
    (hk : NoUnknownState s.log) (event : Event) (rsp : UInt8) (ret : Int) :
    wp (do
      setState .srv .idle
      obexDeliverEvent (E.ctx clientGuard n) event (← currentOpcode) rsp true
      pure ret) (fun _ => ClientInv) NoNullObject s := by
  let P (s : Obex) := s.object = some p ∧ s.mode = .srv ∧ s.state = .idle ∧
    obexMinimumMtu ≤ s.mtuRx ∧ NoUnknownState s.log
  rw [wp_bind, OpenObex.setState, wp_modify]
  refine wp_seq (keeps_currentOpcode (P := P) (stops_noNullObject _) (fun s h => by simp [h.1]) _
    ⟨ho, rfl, rfl, hr, hk⟩) fun op s hs => ?_
  obtain ⟨-, hm, hst, hr, hk⟩ := hs
  exact wp_seq (client_last happ hm hst hr hk _ _ _) fun _ _ h => h

/-- A CONTINUE: the next packet is sent, or put off while the request is aborted or suspended. -/
theorem client_continue {p : Ptr} {s : Obex} (hs : Requesting p .recv true s) :
    wp (clientContinue (E.ctx clientGuard n)) (fun _ => ClientInv) NoNullObject s := by
  refine wp_seq (requesting_updateCurrent hs fun _ => rfl) fun _ s hs => ?_
  refine wp_seq hs.selfObject ?_
  rintro _ s' ⟨rfl, rfl⟩
  rw [wp_bind, wp_deref]
  refine ⟨fun o _ => ?_, fun _ => by simp [NoNullObject]⟩
  split
  · exact hs.inv
  split
  · exact hs.inv
  refine wp_seq (requesting_send happ _ _ _ hs) ?_
  rintro ret s ⟨hs, hret⟩
  refine wp_seq (requesting_currentOpcode hs) fun op s' hs' => ?_
  obtain ⟨rfl, -⟩ := hs'
  rw [if_neg (by omega)]
  refine wp_seq (held_event happ hs.toHeld (by simp) _ _) fun _ s hs => ?_
  rw [wp_bind, wp_get, hs.1.object]
  exact wp_seq (requesting_update hs.1 fun _ => rfl) fun _ s hs => hs.inv

theorem client_done {p : Ptr} {k : Bool} {s : Obex} (hs : Requesting p .recv k s) (rsp : UInt8) :
    wp (clientDone (E.ctx clientGuard n) rsp) (fun _ => ClientInv) NoNullObject s := by
  rw [clientDone, wp_bind, OpenObex.setState, wp_modify, wp_bind, wp_selfObject]
  refine ⟨fun q hq => ?_, fun hn => absurd hn (by simp [Obex.setState, hs.object])⟩
  rw [wp_bind, wp_deref]
  refine ⟨fun o _ => ?_, fun _ => by simp [NoNullObject]⟩
  exact wp_seq (client_last (s := s.setState .srv .idle) happ rfl rfl hs.mtuRx hs.known _ _ _)
    fun _ _ h => h

omit happ in
/-- An answer that is a CONTINUE announces no `mtu_tx`. -/
theorem announcedMtu_of_isContinue {s : Obex} (h : isContinue s.rxMsg.contents = true) :
    announcedMtu s = s.mtuTx := by
  unfold announcedMtu
  split
  · rename_i op _ _ _ _ _ _ _ hc
    rw [hc] at h
    simp only [isContinue, List.head?_cons, Option.all_some, decide_eq_true_eq] at h
    rw [if_pos]
    constructor <;> (rintro rfl; revert h; decide)
  · rfl

/-- The request, and its headers fit once more after a response to DISCONNECT. -/
def Responding (p : Ptr) (k : Bool) (s : Obex) : Prop :=
  Requesting p .recv k s ∧
    (k = true → ∀ o, s.objects p = some o → FitsMtu (continueMtu s o) o)

omit happ in
theorem responding_updateCurrent {p : Ptr} {k : Bool} {s : Obex} (hs : Responding p k s)
    {f : ObexObject → ObexObject} (hf : ∀ o, (f o).txHeaderq = o.txHeaderq ∧ (f o).opcode = o.opcode) :
    wp (updateCurrent f) (fun _ => Responding p k) NoNullObject s := by
  refine wp_seq hs.1.selfObject ?_
  rintro _ s' ⟨rfl, rfl⟩
  rw [wp_update]
  refine ⟨fun o ho => ?_, fun _ => by simp [NoNullObject]⟩
  have hfits {m : Nat} (h : FitsMtu m o) : FitsMtu m (f o) := by
    unfold FitsMtu
    rwa [(hf o).1]
  refine ⟨hs.1.setObject fun _ hk => hfits (hs.1.fits hk o ho), fun hk o' ho' => ?_⟩
  simp only [Obex.setObject, if_true, Option.some.injEq] at ho'
  subst ho'
  have h := hfits (hs.2 hk o ho)
  unfold continueMtu at h ⊢
  rwa [(hf o).2]

omit happ in
theorem client_connect {p : Ptr} {k : Bool} {s : Obex} (hs : Responding p k s)
    (hk : isContinue s.rxMsg.contents = k) :
    wp clientConnect (fun _ => Responding p k) NoNullObject s := by
  refine wp_seq (requesting_currentOpcode hs.1) ?_
  rintro op s' ⟨rfl, -⟩
  split
  · rw [wp_bind]
    refine wp_parseConnectHeader (by simp [NoNullObject]) ?_ ?_
    · have hs' : Responding p k { s' with mtuTx := announcedMtu s' } := by
        refine ⟨⟨⟨hs.1.object, hs.1.mode, hs.1.state, hs.1.mtuRx, hs.1.ready, hs.1.next,
          hs.1.known⟩, ?_⟩, ?_⟩
        · intro h o ho
          rw [announcedMtu_of_isContinue (hk.trans h)]
          exact hs.1.fits h o ho
        · intro h o ho
          rw [announcedMtu_of_isContinue (hk.trans h)]
          exact hs.2 h o ho
      rw [if_neg (by decide)]
      exact wp_seq (responding_updateCurrent hs' fun _ => ⟨rfl, rfl⟩) fun _ _ h => h
    · rw [if_pos (by decide)]
      exact hs
  · exact hs

/-- A response; `rsp` is its opcode, and it is a CONTINUE only if the packet says so. -/
theorem client_rec {p : Ptr} {k : Bool} {s : Obex} (hs : Responding p k s)
    (hk : isContinue s.rxMsg.contents = k) {rsp : UInt8} (hrsp : rsp = obexRspContinue → k = true) :
    wp (clientRec (E.ctx clientGuard n) rsp) (fun _ => ClientInv) NoNullObject s := by
  refine wp_seq (client_connect hs hk) fun ok s hs => ?_
  split
  · refine wp_seq (requesting_currentOpcode hs.1) ?_
    rintro op s' ⟨rfl, o, ho, hop⟩
    have hwhen : wp (when (op = obexCmdDisconnect)
        (modify fun s => { s with mtuTx := obexMinimumMtu })) (fun _ => Requesting p .recv k)
        NoNullObject s' := by
      rw [wp_when]
      refine ⟨fun hd => ?_, fun _ => hs.1⟩
      refine ⟨⟨hs.1.object, hs.1.mode, hs.1.state, hs.1.mtuRx, hs.1.ready, hs.1.next,
          hs.1.known⟩, ?_⟩
      intro h o' ho'
      rw [show s'.objects p = some o from ho] at ho'
      cases ho'
      have := hs.2 h o ho
      rwa [continueMtu, if_pos (by rw [hop, hd])] at this
    refine wp_seq hwhen fun _ s hs => ?_
    refine wp_seq (requesting_receive happ p .recv k s hs) fun ret s hs => ?_
    split
    · exact client_finish happ hs.object hs.mtuRx hs.known _ _ _
    split
    · obtain rfl := hrsp ‹_›
      exact client_continue happ hs
    · exact client_done happ hs rsp
  · exact client_finish happ hs.1.object hs.1.mtuRx hs.1.known _ _ _

/-! ## Incoming data -/

/-- What reading and dispatching start from. -/
structure Awaiting (x : Option Ptr) (tr : Transport) (s : Obex) : Prop where
  inv : ClientInv s
  object : s.object = x
  trans : s.trans = tr
  ready : tr.type = .usb → tr.connected = true

omit happ in
theorem awaiting_read {x : Option Ptr} {tr : Transport} {max : Nat} (hmax : 0 < max) (buf : Bytes)
    (buflen : Int) :
    Yields (Awaiting x tr) NoNullObject (fun r => x ≠ none ∧ tr.type ≠ .custom → 0 < r)
      (obexTransportRead (E.ctx clientGuard n) max buf buflen) := by
  refine ReadFrame.obexTransportRead ⟨stops_noNullObject _,
    fun s b h => ⟨⟨h.inv.mtuRx, h.inv.known, h.inv.ready, h.inv.state⟩, h.object, h.trans, h.ready⟩,
    fun s r h => ⟨⟨h.inv.mtuRx, h.inv.known.append (by simp), h.inv.ready, h.inv.state⟩, h.object,
      h.trans, h.ready⟩,
    fun ht s r h hg => ?_⟩ buf buflen hmax (fun ht s h => ?_) (fun ht s h => ?_) fun _ s h => ?_
  · have hx : s.object.isNone = false := by
      rw [h.object]
      cases x <;> simp_all
    match r with
    | none => simp [clientGuard, hx] at hg
    | some [] => simp [clientGuard, hx] at hg
    | some (b :: bs) => exact ⟨b, bs, rfl⟩
  · rw [h.trans]
    exact ht.2
  · rw [h.trans]
    exact h.ready
  · have := h.inv.mtuRx
    unfold obexMinimumMtu at this
    omega

theorem awaiting_dispatch {x : Option Ptr} {tr : Transport} {s : Obex} (hs : Awaiting x tr s)
    (final : Bool) :
    wp (dispatch (E.ctx clientGuard n) final) (fun _ => ClientInv) NoNullObject s := by
  rw [dispatch, ctx_recv, wp_bind]
  refine wp_packetReceived (fun hg => ?_) (by simp [NoNullObject])
  simp only [clientGuard, Bool.and_eq_true, decide_eq_true_eq, Bool.or_eq_true, Bool.not_eq_true',
    Option.all_eq_true] at hg
  rcases hs.inv.state with ⟨ho, hm, hst⟩ | ⟨-, hm, -⟩
  · obtain ⟨p, ho⟩ := Option.ne_none_iff_exists'.1 ho
    have hk : sendsNext (s.log ++ [.recv s.rxMsg.contents]) = isContinue s.rxMsg.contents := by simp
    have hcur : s.current = s.objects p := by simp [Obex.current, ho]
    have hresp : Responding p (isContinue s.rxMsg.contents) (s.emit (.recv s.rxMsg.contents)) := by
      refine ⟨⟨⟨ho, hm, .inl hst, hs.inv.mtuRx, hs.inv.ready (by simp [ho]), hk,
        hs.inv.known.append (by simp)⟩, ?_⟩, ?_⟩
      · intro h o hq
        exact (hg.2.resolve_left (by simp [h]) o (hcur ▸ hq)).1
      · intro h o hq
        exact (hg.2.resolve_left (by simp [h]) o (hcur ▸ hq)).2
    have hrest {s : Obex} (hs : ClientInv s) :
        ClientInv (s.setRxMsg (bufReuse s.rxMsg)) :=
      ⟨hs.mtuRx, hs.known, hs.ready, hs.state⟩
    rw [wp_bind, wp_get, show (s.emit (.recv s.rxMsg.contents)).mode = .cli from hm]
    have hclient : wp (obexClient (E.ctx clientGuard n) true) (fun _ => ClientInv) NoNullObject
        (s.emit (.recv s.rxMsg.contents)) := by
      rw [obexClient, wp_bind, wp_get, if_pos rfl, wp_bind, wp_bind]
      refine wp_byteAt (fun op hop => ?_) (by simp [NoNullObject])
      rw [wp_pure, show (s.emit (.recv s.rxMsg.contents)).mode = .cli from hm,
        show (s.emit (.recv s.rxMsg.contents)).state = .recv from hst]
      refine client_rec happ hresp rfl fun hc => ?_
      cases hcon : s.rxMsg.contents with
      | nil => rfl
      | cons b bs =>
        have hlen := length_contents s.rxMsg
        rw [hcon] at hlen
        have := hop (by simp only [Obex.emit]; rw [← hlen]; simp)
        simp only [Obex.emit, hcon, List.getElem?_cons_zero, Option.some.injEq] at this
        subst this
        simpa [isContinue] using hc
    refine wp_seq hclient fun ret s hs => ?_
    rw [wp_bind, wp_modify]
    exact hrest hs
  · exact absurd hg.1 (by simp [hm])

/-! ## Runs -/

theorem client_indication {s : Obex} (hs : ClientInv s) (hr : usbReady s = true) {buf : Option Bytes}
    (hb : buf = none → s.trans.type ≠ .custom) (buflen : Int) :
    wp (obexDataIndication (E.ctx clientGuard n) buf buflen) (fun _ => ClientInv) NoNullObject s := by
  have hlink {s : Obex} (hs : ClientInv s) (ho : s.object = none) (actual : Int) :
      wp (linkError (E.ctx clientGuard n) actual) (fun _ => ClientInv) NoNullObject s := by
    rcases hs.state with ⟨hn, -, -⟩ | ⟨-, hm, hst⟩
    · exact absurd ho hn
    · exact wp_seq (client_last happ hm hst hs.mtuRx hs.known _ _ _) fun _ _ h => h
  simp only [usbReady, decide_eq_true_eq] at hr
  by_cases hc : s.trans.type = .usb → s.trans.connected = true
  · refine wp_dataIndication (P := Awaiting s.object s.trans) (stops_noNullObject _)
      (fun _ h => h.inv) (fun max buf buflen hmax => awaiting_read hmax buf buflen)
      (fun s final hs _ => awaiting_dispatch happ hs final) ⟨hs, rfl, rfl, hc⟩
      fun hn hx s₁ actual h => hlink h.inv ?_ actual
    rw [h.object]
    by_contra ho
    exact hx ⟨ho, hb hn⟩
  · simp only [Classical.not_imp] at hc
    obtain ⟨ho, hd⟩ := (hr hc.1).resolve_left hc.2
    exact wp_dataIndication_disconnected hc.1 hc.2 hd hs fun actual => hlink hs ho actual

theorem client_step {op : Op} (hop : ClientOp op) {s : Obex} (hs : ClientInv s)
    (hg : clientGuard.op op s = true) :
    wp (runOp (E.ctx clientGuard n) clientGuard op) (fun _ => ClientInv) NoNullObject s := by
  rw [runOp, wp_bind, wp_get, wp_bind, wp_allowed]
  refine ⟨fun _ => ?_, fun h => by simp [hg] at h⟩
  cases op with
  | call c =>
    have hg' : clientGuard.nested c s = true := by
      unfold clientGuard at hg ⊢
      cases c with
      | cancelRequest nice => cases nice <;> exact hg
      | _ => exact hg
    exact wp_seq (client_call happ hop hs hg') fun _ _ h => h
  | transportConnect mtu => exact ⟨hs.mtuRx, hs.known, fun _ _ => rfl, hs.state⟩
  | customDataFeed d =>
    exact wp_seq (client_indication happ hs hg (by simp) _) fun _ _ h => h
  | handleInput =>
    dsimp only
    split
    · exact hs
    · exact wp_seq (client_indication happ hs hg (fun _ => ‹_›) _) fun _ _ h => h

end

/-- In every run whose steps fail no request half-way, after every call either a request is in
progress, waiting for a response, or the handle is idle; `obex_client` meets no unknown state and no
null `self->object` is ever used. -/
theorem client_idle_or_receiving (E : Env) (t : TransportType) (n : Nat) (ops : List Op)
    (happ : ∀ log, ∀ c ∈ E.app log, ClientCall c) (hops : ∀ op ∈ ops, ClientOp op) :
    wp (run (E.ctx clientGuard n) clientGuard ops)
      (fun _ s => ((s.object ≠ none ∧ s.mode = .cli ∧ s.state = .recv) ∨
        (s.object = none ∧ s.mode = .srv ∧ s.state = .idle)) ∧ NoUnknownState s.log)
      (fun e _ => e ≠ .fault .nullObject) (obexInit t) := by
  have hinit : ClientInv (obexInit t) := by
    have h := obexInit_inv t
    exact ⟨h.mtuRx, by simp [obexInit, NoUnknownState], by simp [obexInit], .inr ⟨rfl, rfl, rfl⟩⟩
  exact wp_mono (wp_run (stops_noNullObject _) hinit
    fun op ho s hs hg => client_step happ (hops op ho) hs hg) (fun _ s hs => ⟨hs.state, hs.known⟩)
    fun _ _ he => he

/-! ## A request that cannot be sent -/

/-- The packet of a new request cannot be written: the object is gone, the mode is still the
client's. -/
theorem client_object_leak :
    ¬ ∀ (E : Env) (t : TransportType) (n : Nat) (ops : List Op),
      (∀ log, ∀ c ∈ E.app log, ClientCall c) → (∀ op ∈ ops, ClientOp op) →
      wp (run (E.ctx .all n) .all ops)
        (fun _ s => ((s.object ≠ none ∧ s.mode = .cli ∧ s.state = .recv) ∨
          (s.object = none ∧ s.mode = .srv ∧ s.state = .idle)) ∧ NoUnknownState s.log)
        (fun e _ => e ≠ .fault .nullObject) (obexInit t) := by
  intro h
  have hrun := h deafPeer .custom 1 [.call (.objectNew 0x02), .call (.request 0)] (by simp [deafPeer])
    (by simp [ClientOp, ClientCall])
  have hend : endsWith (run (deafPeer.ctx .all 1) .all [.call (.objectNew 0x02), .call (.request 0)])
      (obexInit .custom) (fun s => decide (s.object = none ∧ s.mode = .cli)) = true := by
    decide +kernel
  obtain ⟨-, s, hs, hst, -⟩ := exists_of_endsWith hend hrun
  simp only [decide_eq_true_eq] at hs
  rcases hst with ⟨h, -⟩ | ⟨-, h, -⟩
  · exact h hs.1
  · simp [hs.2] at h

/-- A PUT without headers and the response to it. -/
def shortPut : List Op :=
  [.call (.objectNew 0x02), .call (.request 0), .customDataFeed [0xa0, 0x00, 0x03]]

theorem client_idle_or_receiving_put :
    endsWith (run (quietPeer.ctx clientGuard 2) clientGuard shortPut) (obexInit .custom)
        (fun s => decide (s.object = none ∧ s.mode = .srv)) = true ∧
      wp (run (quietPeer.ctx clientGuard 2) clientGuard shortPut)
        (fun _ s => ((s.object ≠ none ∧ s.mode = .cli ∧ s.state = .recv) ∨
          (s.object = none ∧ s.mode = .srv ∧ s.state = .idle)) ∧ NoUnknownState s.log)
        (fun e _ => e ≠ .fault .nullObject) (obexInit .custom) :=
  ⟨by decide +kernel, client_idle_or_receiving quietPeer .custom 2 _ (by simp [quietPeer])
    (by simp [shortPut, ClientOp, ClientCall])⟩

end OpenObex
