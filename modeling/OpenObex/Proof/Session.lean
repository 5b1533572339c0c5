import OpenObex.Lib.Duplex
import OpenObex.Proof.Answer
import OpenObex.Proof.StopAndWait

/-!
# A client and a server

Two handles, one that only makes requests and one that only serves, joined by links that lose nothing.
The client has one packet outstanding at most, and while it has one it is in the state `STATE_REC` with
the object of the packet as its current one; the server answers a packet once at most. So in every
interleaving of deliveries and calls a response reaches the client while it waits for it, and goes to
`obex_client` (`session_agrees`).
-/

namespace OpenObex

open Mem Prog Trace

/-! ## Packets under way -/

/-- A packet, and the request and the packet of the client that it belongs to, both counted from 1. -/
structure Envelope where
  stamp : Nat × Nat
  packet : Bytes
  deriving DecidableEq

/-- The client's side of the link: its requests, its packets, and whether it waits for a response. -/
structure Postbox where
  requests : Nat
  sent : List Envelope
  awaiting : Bool
  deriving DecidableEq

def Postbox.step (b : Postbox) : Obs → Postbox
  | .request _ => { b with requests := b.requests + 1 }
  | .write _ _ d =>
    { b with sent := b.sent ++ [⟨(b.requests, b.sent.length + 1), d⟩], awaiting := true }
  | .recv _ => { b with awaiting := false }
  | _ => b

def postbox (log : List Obs) : Postbox := after Postbox.step ⟨0, [], false⟩ log

@[simp] theorem postbox_append (log : List Obs) (x : Obs) :
    postbox (log ++ [x]) = (postbox log).step x := after_append _ _ _ _

/-- The packet the client waits for a response to. -/
def awaited (s : Obex) : Option (Nat × Nat) :=
  if (postbox s.log).awaiting then some ((postbox s.log).requests, (postbox s.log).sent.length)
  else none

/-- The packets written in a step. -/
def posted (s s' : Obex) : List Envelope := (postbox s'.log).sent.drop (postbox s.log).sent.length

/-! ## The two sides -/

/-- The calls of an application that makes requests, which it neither cancels nor resumes. -/
def RequestCall (c : Call) : Prop := c.passive = true ∨ ∃ p, c = .request p

/-- A packet that has arrived in `rx_msg`, whatever lies behind it there. -/
def arrives (C : Ctx) (packet : Bytes) (s : Obex) (s' : Obex) : Prop :=
  ∃ b : Buf, b.contents = packet ∧ ∃ r, dispatch C (hasFinal packet) (s.setRxMsg b) = .ok r s'

def clientParty (E : Env) (n : Nat) : Duplex.Party Obex Envelope where
  act s s' out := (∃ c, RequestCall c ∧ ∃ r, api (E.ctx .all n) c s = .ok r s') ∧ out = posted s s'
  receive s m s' out := arrives (E.ctx .all n) m.packet s s' ∧ out = posted s s'

/-- Its responses carry the stamp of the packet they answer. -/
def serverParty (E : Env) (n : Nat) : Duplex.Party Obex Envelope where
  act s s' out := (∃ c : Call, c.passive = true ∧ ∃ r, api (E.ctx .all n) c s = .ok r s') ∧
    out = ((responses s'.log).drop (responses s.log).length).map (Envelope.mk (0, 0))
  receive s m s' out := arrives (E.ctx .all n) m.packet s s' ∧
    out = ((responses s'.log).drop (responses s.log).length).map (Envelope.mk m.stamp)

/-! ## The client -/

/-- The packets before a call were `w`; `a` tells whether one has been added, which is waited on. -/
structure Balance (w : List Envelope) (a : Bool) (s : Obex) : Prop where
  awaiting : (postbox s.log).awaiting = a
  same : a = false → (postbox s.log).sent = w
  one : a = true → ∃ d, (postbox s.log).sent = w ++ [⟨((postbox s.log).requests, w.length + 1), d⟩]
  link : s.trans.type = .usb → s.trans.connected = true

/-- A request is in progress. -/
structure Busy (w : List Envelope) (a : Bool) (p : Ptr) (m : Mode) (st : State) (s : Obex) : Prop
    extends Balance w a s where
  object : s.object = some p
  mode : s.mode = m
  state : s.state = st

/-- Between calls: nothing is waited on, or the response of the current request. -/
def Settled (w : List Envelope) (s : Obex) : Prop :=
  Balance w false s ∨ ∃ p, Busy w true p .cli .recv s

def Anywhere (_ : Stop) (_ : Obex) : Prop := True

theorem stops_anywhere (P : Obex → Prop) : Stops P Anywhere := fun _ _ _ _ => trivial

section
variable {w : List Envelope} {a : Bool} {p : Ptr} {m : Mode} {st : State} {s s' : Obex}

theorem Balance.of_eq (h : Balance w a s) (hl : postbox s'.log = postbox s.log)
    (ht : s'.trans = s.trans) : Balance w a s' := by
  refine ⟨by rw [hl]; exact h.awaiting, fun ha => by rw [hl]; exact h.same ha, fun ha => ?_, ?_⟩
  · rw [hl]
    exact h.one ha
  · rw [ht]
    exact h.link

theorem Balance.emit (h : Balance w a s) {x : Obs} (hx : ∀ b, Postbox.step b x = b) :
    Balance w a (s.emit x) := h.of_eq ((postbox_append _ _).trans (hx _)) rfl

namespace Busy

theorem of_eq (h : Busy w a p m st s) (hl : postbox s'.log = postbox s.log)
    (hh : s'.object = s.object ∧ s'.mode = s.mode ∧ s'.state = s.state ∧ s'.trans = s.trans) :
    Busy w a p m st s' :=
  ⟨h.toBalance.of_eq hl hh.2.2.2, hh.1.trans h.object, hh.2.1.trans h.mode, hh.2.2.1.trans h.state⟩

theorem emit (h : Busy w a p m st s) {x : Obs} (hx : ∀ b, Postbox.step b x = b) :
    Busy w a p m st (s.emit x) := ⟨h.toBalance.emit hx, h.object, h.mode, h.state⟩

theorem setObject (h : Busy w a p m st s) (q : Ptr) (o : Option ObexObject) :
    Busy w a p m st (s.setObject q o) := h.of_eq rfl ⟨rfl, rfl, rfl, rfl⟩

theorem setTxMsg (h : Busy w a p m st s) (b : Buf) : Busy w a p m st (s.setTxMsg b) :=
  h.of_eq rfl ⟨rfl, rfl, rfl, rfl⟩

theorem setRxMsg (h : Busy w a p m st s) (b : Buf) : Busy w a p m st (s.setRxMsg b) :=
  h.of_eq rfl ⟨rfl, rfl, rfl, rfl⟩

theorem setMtu (h : Busy w a p m st s) (k : Nat) : Busy w a p m st { s with mtuTx := k } :=
  h.of_eq rfl ⟨rfl, rfl, rfl, rfl⟩

theorem setState (h : Busy w a p m st s) (m' : Mode) (st' : State) :
    Busy w a p m' st' (s.setState m' st') := ⟨h.toBalance.of_eq rfl rfl, h.object, rfl, rfl⟩

theorem current_ne (h : Busy w a p m st s) : s.object ≠ none := by simp [h.object]

theorem write (h : Busy w false p m st s) (q : Option Ptr) (k : PacketKind) (d : Bytes) :
    Busy w true p m st (s.emit (.write q k d)) := by
  have hsent := h.same rfl
  refine ⟨⟨?_, by simp, fun _ => ⟨d, ?_⟩, h.link⟩, h.object, h.mode, h.state⟩
  · rw [Obex.emit, postbox_append]
    rfl
  · rw [Obex.emit, postbox_append]
    simp only [Postbox.step, hsent]

theorem settled (h : Busy w a p .cli .recv s) : Settled w s := by
  cases a with
  | false => exact .inl h.toBalance
  | true => exact .inr ⟨p, h⟩

end Busy

theorem Settled.setObject (h : Settled w s) (q : Ptr) (o : Option ObexObject) :
    Settled w (s.setObject q o) := by
  rcases h with h | ⟨p, h⟩
  · exact .inl (h.of_eq rfl rfl)
  · exact .inr ⟨p, h.setObject q o⟩

theorem Settled.setRxMsg (h : Settled w s) (b : Buf) : Settled w (s.setRxMsg b) := by
  rcases h with h | ⟨p, h⟩
  · exact .inl (h.of_eq rfl rfl)
  · exact .inr ⟨p, h.setRxMsg b⟩

end

section
variable {E : Env} {n : Nat} {w : List Envelope} {a : Bool} {p : Ptr} {m : Mode} {st : State}

/-! ## The calls of its application -/

/-- What depends on the handle alone is kept by calls that send nothing. -/
theorem settled_passive {P : Obex → Prop} {c : Call} (hc : c.passive = true)
    (hP : ∀ s s', s'.handle = s.handle → P s → P s') :
    Keeps P Anywhere (api (E.ctx .all n) c) :=
  AppFrame.passive ⟨stops_anywhere P, fun s h => hP s _ rfl h, fun s _ _ _ h _ _ => hP s _ rfl h,
    fun s _ h => hP s _ rfl h, fun s _ h => hP s _ rfl h, fun s _ _ _ _ _ _ h => hP s _ rfl h⟩ hc

theorem Busy.of_handle {s s' : Obex} (hh : s'.handle = s.handle) (h : Busy w a p m st s) :
    Busy w a p m st s' :=
  h.of_eq (congrArg (fun h => postbox h.log) hh) ⟨congrArg Handle.object hh, congrArg Handle.mode hh,
    congrArg Handle.state hh, congrArg Handle.trans hh⟩

theorem Settled.of_handle {s s' : Obex} (hh : s'.handle = s.handle) (h : Settled w s) :
    Settled w s' := by
  rcases h with h | ⟨p, h⟩
  · exact .inl (h.of_eq (congrArg (fun h => postbox h.log) hh) (congrArg Handle.trans hh))
  · exact .inr ⟨p, h.of_handle hh⟩

/-- While a request is in progress no other is started. -/
theorem busy_handle {c : Call} (hc : RequestCall c) {s : Obex} (ho : s.object ≠ none) :
    wp (api (E.ctx .all n) c) (fun _ s' => s'.handle = s.handle) Anywhere s := by
  rcases hc with hc | ⟨q, rfl⟩
  · exact settled_passive (P := fun s' => s'.handle = s.handle) hc (fun _ _ hh h => hh.trans h) s rfl
  · rw [api, obexRequest, wp_bind, wp_get, if_pos (Option.isSome_iff_ne_none.2 ho)]
    rfl

theorem busy_call {c : Call} (hc : RequestCall c) {s : Obex} (hs : Busy w a p m st s) :
    wp (api (E.ctx .all n) c) (fun _ => Busy w a p m st) Anywhere s :=
  wp_conseq (busy_handle hc hs.current_ne) fun _ _ hh => hs.of_handle hh

variable (happ : ∀ log, ∀ c ∈ E.app log, RequestCall c)
include happ

theorem busy_event {s : Obex} (hs : Busy w a p m st s) (event : Event) (cmd rsp : UInt8) :
    wp (obexDeliverEvent (E.ctx .all n) event cmd rsp false) (fun _ => Busy w a p m st) Anywhere s := by
  refine wp_deliverEvent (wp_conseq (wp_eventcb (P := Busy w a p m st) (stops_anywhere _)
    (hs.emit fun _ => rfl) fun k _ c hc s hs _ => ?_) fun _ _ h => h.1)
  exact busy_call (happ _ c hc) hs

/-! ## Receiving and sending -/

theorem busy_receive :
    Keeps (Busy w a p m st) Anywhere (obexObjectReceive (E.ctx .all n)) :=
  RxFrame.receive ⟨stops_anywhere _, keeps_selfObject fun _ h => h.current_ne, fun _ b h =>
    h.setRxMsg b, fun _ h => h.of_eq rfl ⟨rfl, rfl, rfl, rfl⟩, fun _ _ _ _ h _ _ => h.setObject _ _,
    fun _ h => busy_event happ h _ _ _⟩

/-- A packet that is written reaches the link; an error comes before that. -/
theorem busy_send (hwrite : ∀ log d, 0 ≤ E.write log d) {s : Obex} (hs : Busy w false p m st s) :
    wp (obexObjectSend (E.ctx .all n) p true false)
      (fun r s' => ∃ a, Busy w a p m st s' ∧ (r < 0 → a = false)) Anywhere s := by
  have hF : SendFrame (E.ctx .all n) p (Busy w false p m st) Anywhere False := by
    refine ⟨stops_anywhere _, fun _ h => h.object, fun _ b h => h.setTxMsg b,
      fun _ _ _ h _ _ => h.setObject _ _, fun s h => ?_, by simp⟩
    exact wp_conseq (busy_event happ h _ _ _) fun _ _ h => .inl ⟨h, by simp⟩
  have hW : WriteFrame (E.ctx .all n) (Busy w true p m st) Anywhere True := by
    refine ⟨stops_anywhere _, fun s b h => h.setTxMsg b, fun chunk s h => ?_, fun _ s h => h.link⟩
    rw [ctx_write]
    exact wp_transportWrite (fun _ => ⟨h.emit fun _ => rfl, fun _ => hwrite _ _⟩) trivial
  refine hF.send hs (fun o _ _ => ⟨false, hs, by simp⟩) (fun _ s hs => ⟨false, hs, by simp⟩)
    fun s o hs _ => ?_
  refine wp_conseq (wp_dataRequest hW (fun _ _ => trivial) fun b _ => ?_) fun r s' h => ?_
  · exact (hs.setTxMsg b).write _ _ _
  · have hr := h.2 trivial
    refine ⟨true, h.1, fun hneg => ?_⟩
    split at hneg
    · omega
    · split at hneg <;> omega

/-! ## The functions of the client -/

omit happ in
theorem busy_update {q : Ptr} {s : Obex} (hs : Busy w a p m st s) (f : ObexObject → ObexObject) :
    wp (update q f) (fun _ => Busy w a p m st) Anywhere s := by
  rw [wp_update]
  exact ⟨fun o ho => hs.setObject _ _, fun _ => trivial⟩

omit happ in
theorem busy_updateCurrent {s : Obex} (hs : Busy w a p m st s) (f : ObexObject → ObexObject) :
    wp (updateCurrent f) (fun _ => Busy w a p m st) Anywhere s :=
  wp_seq (keeps_selfObject (fun _ h => Busy.current_ne h) s hs) fun _ _ hs => busy_update hs f

omit happ in
theorem busy_currentOpcode {s : Obex} (hs : Busy w a p m st s) :
    wp currentOpcode (fun _ => Busy w a p m st) Anywhere s :=
  keeps_currentOpcode (stops_anywhere _) (fun _ h => h.current_ne) s hs

/-- What the calls of a callback keep, one level of nesting further in. -/
def CallsSettle (E : Env) (n : Nat) : Prop :=
  ∀ k, k < n → ∀ w c, RequestCall c → ∀ s, Settled w s →
    wp (api (E.ctx .all k) c) (fun _ => Settled w) Anywhere s

section
variable (hwrite : ∀ log d, 0 ≤ E.write log d)
include hwrite

section
variable (hcalls : CallsSettle E n)
include hcalls

omit hwrite in
/-- The last event of a request, in which the application may make the next one. -/
theorem settled_last {s : Obex} (hs : Balance w false s) (event : Event) (cmd rsp : UInt8) :
    wp (obexDeliverEvent (E.ctx .all n) event cmd rsp true) (fun _ => Settled w) Anywhere s := by
  have hemit : Settled w
    (({ s with object := none } : Obex).emit (.event (noticeOf s event cmd rsp))) :=
    .inl (Balance.emit (s := { s with object := none }) (hs.of_eq rfl rfl) fun _ => rfl)
  refine wp_deliverLast (wp_conseq (wp_eventcb (P := Settled w) (stops_anywhere _) hemit
    fun k hk c hc s hs _ => hcalls k hk w c (happ _ c hc) s hs) fun _ s' h => ?_)
  exact ⟨fun p _ => ⟨h.1.setObject p none, trivial⟩, fun _ => h.1⟩

theorem settled_start {s : Obex} (hs : Busy w false p m st s) (rsp : UInt8) :
    wp (clientStart (E.ctx .all n) rsp) (fun _ => Settled w) Anywhere s := by
  rw [clientStart, wp_bind, wp_get, hs.object]
  refine wp_seq (busy_send happ hwrite hs) fun ret s hs => ?_
  obtain ⟨a, hs, hneg⟩ := hs
  split
  · cases hneg ‹_›
    rw [wp_bind, OpenObex.setState, wp_modify]
    refine wp_seq (busy_currentOpcode (hs.setState .cli .idle)) fun op s hs => ?_
    exact wp_seq (settled_last happ hcalls hs.toBalance _ _ _) fun _ _ h => h
  · refine wp_seq (busy_updateCurrent hs _) fun _ s hs => ?_
    refine wp_seq (busy_currentOpcode hs) fun op s hs => ?_
    refine wp_seq (busy_event happ hs _ _ _) fun _ s hs => ?_
    rw [wp_bind, OpenObex.setState, wp_modify]
    exact (hs.setState .cli .recv).settled

/-- A call at any time: only `OBEX_Request` sends a packet. -/
theorem settled_call_step {c : Call} (hc : RequestCall c) {s : Obex} (hs : Settled w s) :
    wp (api (E.ctx .all n) c) (fun _ => Settled w) Anywhere s := by
  rcases hc with hc | ⟨q, rfl⟩
  · exact settled_passive hc (fun _ _ hh h => h.of_handle hh) s hs
  rcases hs with hs | ⟨p, hs⟩
  · rw [api, obexRequest, wp_bind, wp_get]
    split
    · exact .inl hs
    · rw [wp_bind, wp_set, obexClient, wp_bind, wp_get, wp_bind, if_neg (by simp), wp_pure]
      have hstart : Busy w false q .cli .start
          (({ s with object := some q, mode := .cli, state := .start } : Obex).emit (.request q)) := by
        refine ⟨⟨?_, fun _ => ?_, by simp, hs.link⟩, rfl, rfl, rfl⟩
        · rw [Obex.emit, postbox_append]
          exact hs.awaiting
        · rw [Obex.emit, postbox_append]
          exact hs.same rfl
      exact settled_start happ hwrite hcalls hstart _
  · refine wp_conseq (busy_call (.inr ⟨q, rfl⟩) hs) fun _ s hs => .inr ⟨p, hs⟩

end

theorem callsSettle (n : Nat) : CallsSettle E n := by
  induction n with
  | zero =>
    intro k hk
    omega
  | succ n ih =>
    intro k hk w c hc s hs
    have hcalls : CallsSettle E k := fun j hj => ih j (by omega)
    exact settled_call_step happ hwrite hcalls hc hs

/-- The last event of a request that waits for nothing. -/
theorem settled_final {s : Obex} (hs : Balance w false s) (event : Event) (cmd rsp : UInt8) :
    wp (obexDeliverEvent (E.ctx .all n) event cmd rsp true) (fun _ => Settled w) Anywhere s :=
  settled_last happ (callsSettle happ hwrite n) hs event cmd rsp

theorem settled_failed {s : Obex} (hs : Busy w false p m st s) (ret : Int) :
    wp (do
      setState .srv .idle
      obexDeliverEvent (E.ctx .all n) .parseerr (← currentOpcode) 0 true
      pure ret) (fun _ => Settled w) Anywhere s := by
  rw [wp_bind, OpenObex.setState, wp_modify]
  refine wp_seq (busy_currentOpcode (hs.setState .srv .idle)) fun op s hs => ?_
  exact wp_seq (settled_final happ hwrite hs.toBalance _ _ _) fun _ _ h => h

/-- A CONTINUE. -/
theorem settled_continue {s : Obex} (hs : Busy w false p .cli .recv s) :
    wp (clientContinue (E.ctx .all n)) (fun _ => Settled w) Anywhere s := by
  refine wp_seq (busy_updateCurrent hs _) fun _ s hs => ?_
  rw [wp_bind, wp_selfObject]
  refine ⟨fun q hq => ?_, fun _ => trivial⟩
  obtain rfl : q = p := by simpa [hs.object] using hq.symm
  rw [wp_bind, wp_deref]
  refine ⟨fun o _ => ?_, fun _ => trivial⟩
  split
  · exact hs.settled
  split
  · exact hs.settled
  refine wp_seq (busy_send happ hwrite hs) fun ret s hs => ?_
  obtain ⟨a, hs, hneg⟩ := hs
  refine wp_seq (busy_currentOpcode hs) fun op s hs => ?_
  have hevent : wp (if ret < 0 then obexDeliverEvent (E.ctx .all n) .linkerr op 0 true
      else obexDeliverEvent (E.ctx .all n) .progress op 0 false) (fun _ => Settled w) Anywhere s := by
    split
    · cases hneg ‹_›
      exact settled_final happ hwrite hs.toBalance _ _ _
    · exact wp_conseq (busy_event happ hs _ _ _) fun _ _ h => h.settled
  refine wp_seq hevent fun _ s hs => ?_
  rw [wp_bind, wp_get]
  cases s.object with
  | none => exact hs
  | some q =>
    dsimp only
    rw [wp_bind, wp_update]
    exact ⟨fun _ _ => hs.setObject q _, fun _ => trivial⟩

theorem settled_done {s : Obex} (hs : Busy w false p m st s) (rsp : UInt8) :
    wp (clientDone (E.ctx .all n) rsp) (fun _ => Settled w) Anywhere s := by
  rw [clientDone, wp_bind, OpenObex.setState, wp_modify, wp_bind, wp_selfObject]
  refine ⟨fun q _ => ?_, fun _ => trivial⟩
  rw [wp_bind, wp_deref]
  refine ⟨fun o _ => ?_, fun _ => trivial⟩
  exact wp_seq (settled_final happ hwrite (hs.setState .srv .idle).toBalance _ _ _) fun _ _ h => h

omit happ hwrite in
theorem busy_connect {s : Obex} (hs : Busy w a p m st s) :
    wp clientConnect (fun _ => Busy w a p m st) Anywhere s := by
  refine wp_seq (busy_currentOpcode hs) fun op s hs => ?_
  split
  · rw [wp_bind]
    refine wp_parseConnectHeader trivial ?_ ?_
    · rw [if_neg (by decide)]
      exact wp_seq (busy_updateCurrent (hs.setMtu _) _) fun _ _ hs => hs
    · rw [if_pos (by decide)]
      exact hs
  · exact hs

/-- A response in the state `STATE_REC`. -/
theorem settled_rec {s : Obex} (hs : Busy w false p .cli .recv s) (rsp : UInt8) :
    wp (clientRec (E.ctx .all n) rsp) (fun _ => Settled w) Anywhere s := by
  refine wp_seq (busy_connect hs) fun ok s hs => ?_
  split
  · refine wp_seq (busy_currentOpcode hs) fun op s hs => ?_
    have hwhen : wp (when (op = obexCmdDisconnect)
        (modify fun s => { s with mtuTx := obexMinimumMtu })) (fun _ => Busy w false p .cli .recv)
        Anywhere s := by
      rw [wp_when]
      exact ⟨fun _ => hs.setMtu _, fun _ => hs⟩
    refine wp_seq hwhen fun _ s hs => ?_
    refine wp_seq (busy_receive happ s hs) fun ret s hs => ?_
    split
    · exact settled_failed happ hwrite hs _
    split
    · exact settled_continue happ hwrite hs
    · exact settled_done happ hwrite hs rsp
  · exact settled_failed happ hwrite hs _

/-- A response that is waited on is handled by the client. -/
theorem settled_dispatch {s : Obex} (hs : Busy w true p .cli .recv s) (final : Bool) :
    wp (dispatch (E.ctx .all n) final) (fun _ => Settled (postbox s.log).sent) Anywhere s := by
  have hrecv : Busy (postbox s.log).sent false p .cli .recv (s.emit (.recv s.rxMsg.contents)) := by
    refine ⟨⟨?_, fun _ => ?_, by simp, hs.link⟩, hs.object, hs.mode, hs.state⟩
    · rw [Obex.emit, postbox_append]
      rfl
    · rw [Obex.emit, postbox_append]
      rfl
  rw [dispatch, ctx_recv, wp_bind]
  refine wp_packetReceived (fun _ => ?_) trivial
  rw [wp_bind, wp_get, hrecv.mode]
  have hclient : wp (obexClient (E.ctx .all n) true) (fun _ => Settled (postbox s.log).sent) Anywhere
      (s.emit (.recv s.rxMsg.contents)) := by
    rw [obexClient, wp_bind, wp_get, wp_bind, if_pos rfl, wp_bind]
    refine wp_byteAt (fun op _ => ?_) trivial
    rw [wp_pure, hrecv.mode, hrecv.state]
    exact settled_rec happ hwrite hrecv _
  refine wp_seq hclient fun ret s hs => ?_
  rw [wp_bind, wp_modify]
  exact hs.setRxMsg _

end

end

/-! ## The client keeps its side -/

theorem Balance.awaited {w : List Envelope} {s : Obex} (h : Balance w false s) : awaited s = none := by
  simp [OpenObex.awaited, h.awaiting]

theorem Busy.awaited {w : List Envelope} {p : Ptr} {m : Mode} {st : State} {s : Obex}
    (h : Busy w true p m st s) : awaited s = some ((postbox s.log).requests, w.length + 1) := by
  obtain ⟨d, hd⟩ := h.one rfl
  simp [OpenObex.awaited, h.awaiting, hd]

/-- What is written in a step that begins without a packet under way. -/
theorem Settled.sends {w : List Envelope} {s s' : Obex} (h : Settled w s')
    (hs : (postbox s.log).sent = w) :
    Duplex.Sends Envelope.stamp none (awaited s') (posted s s') := by
  rcases h with h | ⟨p, h⟩
  · have hnil : posted s s' = [] := by simp [posted, hs, h.same rfl]
    exact ⟨by simp, by simp [hnil], by simp [hnil]⟩
  · obtain ⟨d, hd⟩ := h.one rfl
    have hone : posted s s' = [⟨((postbox s'.log).requests, w.length + 1), d⟩] := by
      simp [posted, hs, hd]
    refine ⟨by simp, by simp [hone], fun m hm => ?_⟩
    rw [hone, List.mem_singleton] at hm
    rw [hm]
    exact h.awaited

theorem client_requester {E : Env} (n : Nat) (happ : ∀ log, ∀ c ∈ E.app log, RequestCall c)
    (hwrite : ∀ log d, 0 ≤ E.write log d) :
    Duplex.Requester (clientParty E n) (fun s => ∃ w, Settled w s) Envelope.stamp awaited := by
  constructor
  · intro s s' out hs hstep
    obtain ⟨w, hs⟩ := hs
    obtain ⟨⟨c, hc, r, hr⟩, rfl⟩ := hstep
    have hs' := wp_ok (settled_call_step happ hwrite (callsSettle happ hwrite n) hc hs) hr
    rcases hs with hs | ⟨p, hs⟩
    · rw [hs.awaited]
      exact ⟨⟨w, hs'⟩, hs'.sends (hs.same rfl)⟩
    · have hh := wp_ok (busy_handle hc hs.current_ne) hr
      have hlog : s'.log = s.log := congrArg Handle.log hh
      have hout : posted s s' = [] := by simp [posted, hlog]
      have hsame : awaited s' = awaited s := by rw [awaited, awaited, hlog]
      refine ⟨⟨w, hs'⟩, fun _ => ⟨hout, hsame⟩, by simp [hout], by simp [hout]⟩
  · intro s m s' out hs hw hstep
    obtain ⟨w, hs⟩ := hs
    obtain ⟨⟨b, -, r, hr⟩, rfl⟩ := hstep
    rcases hs with hs | ⟨p, hs⟩
    · cases hs.awaited.symm.trans hw
    · have hs' := wp_ok (settled_dispatch happ hwrite (hs.setRxMsg b) _) hr
      exact ⟨⟨_, hs'⟩, hs'.sends rfl⟩

/-! ## The server keeps its side -/

theorem ctx_lenient (E : Env) (n : Nat) : E.ctx (answerGuard false false) n = E.ctx .all n := by
  have hafter : (answerGuard false false).after = Guard.all.after := by
    funext k s
    simp [answerGuard, Guard.all]
  induction n with
  | zero => rfl
  | succ n ih =>
    rw [Env.ctx, Env.ctx, ih, hafter]
    rfl

/-- The handle only serves, and can read a packet. -/
structure Server (s : Obex) : Prop where
  mode : s.mode = .srv
  mtuRx : obexMinimumMtu ≤ s.mtuRx

/-- At most one response has been added to `w`. -/
structure AnsweredOnce (w : List Bytes) (s : Obex) : Prop extends Server s where
  once : ∃ xs, xs.length ≤ 1 ∧ responses s.log = w ++ xs

theorem Replied.once {w : List Bytes} {k : Nat} {s : Obex} {strict calm : Bool}
    (h : Replied strict calm w k s) : AnsweredOnce w s := by
  refine ⟨⟨h.mode, h.mtuRx⟩, ?_⟩
  rcases h.reply with ⟨d, -, hw, -⟩ | ⟨-, ht⟩ | ⟨-, ht⟩
  · exact ⟨[d], by simp, hw⟩
  · have hw : responses s.log = w := congrArg Prod.fst ht
    exact ⟨[], by simp, by simp [hw]⟩
  · have hw : responses s.log = w := congrArg Prod.fst ht
    exact ⟨[], by simp, by simp [hw]⟩

theorem counts_server : Counts fun w s => Server s ∧ responses s.log = w := by
  refine ⟨fun w s b h => ⟨⟨h.1.mode, h.1.mtuRx⟩, h.2⟩, fun w s chunk r h => ⟨⟨h.1.mode, h.1.mtuRx⟩, ?_⟩,
    fun w s x k d h => ⟨⟨h.1.mode, h.1.mtuRx⟩, ?_⟩⟩
  · exact (congrArg Prod.fst (tally_aside s.log rfl)).trans h.2
  · have hw : responses (s.log ++ [.write x k d]) = responses s.log ++ [d] :=
      congrArg Prod.fst (tally_write s.log x k d)
    exact hw.trans (by rw [h.2])

section
variable {E : Env} {n : Nat}

/-- A missing object stops the library. -/
theorem anywhere_selfObject {α : Type} {s : Obex} (ho : s.object = none) {f : Ptr → M α}
    {Q : α → Obex → Prop} : wp (selfObject >>= f) Q Anywhere s := by
  rw [wp_bind, wp_selfObject]
  exact ⟨fun p hp => by simp [ho] at hp, fun _ => trivial⟩

theorem anywhere_currentOpcode {α : Type} {s : Obex} (ho : s.object = none) {f : UInt8 → M α}
    {Q : α → Obex → Prop} : wp (currentOpcode >>= f) Q Anywhere s := by
  rw [wp_bind, currentOpcode]
  exact anywhere_selfObject ho

theorem anywhere_response {α : Type} {s : Obex} (ho : s.object = none) (opcode : UInt8) {f : M α}
    {Q : α → Obex → Prop} (hf : ∀ s, s.object = none → wp f Q Anywhere s) :
    wp (obexResponseRequest (E.ctx .all n) opcode >>= fun _ => f) Q Anywhere s :=
  wp_seq (keeps_ctx_response (P := fun s => s.object = none) (stops_anywhere _) (fun _ _ h => h)
    (fun _ _ h => h) opcode s ho) fun _ s hs => hf s hs

theorem anywhere_abort {s : Obex} (ho : s.object = none) (cmd : UInt8) {Q : Int → Obex → Prop} :
    wp (serverAbort (E.ctx .all n) cmd) Q Anywhere s := by
  refine anywhere_response ho _ fun s ho => ?_
  rw [wp_bind, OpenObex.setState, wp_modify]
  exact anywhere_currentOpcode (s := s.setState .srv .idle) ho

theorem anywhere_parseerr {s : Obex} (ho : s.object = none) (cmd : UInt8) {Q : Int → Obex → Prop} :
    wp (serverParseerr (E.ctx .all n) cmd) Q Anywhere s := by
  refine anywhere_response ho _ fun s ho => ?_
  rw [wp_bind, OpenObex.setState, wp_modify]
  exact anywhere_currentOpcode (s := s.setState .srv .idle) ho

theorem anywhere_rec {s : Obex} (ho : s.object = none) (cmd : UInt8) (len : Nat) (final : Bool)
    {Q : Int → Obex → Prop} : wp (serverRec (E.ctx .all n) cmd len final) Q Anywhere s := by
  unfold serverRec
  split
  · exact anywhere_abort ho cmd
  · exact anywhere_selfObject ho

theorem anywhere_send {s : Obex} (ho : s.object = none) (cmd : UInt8) (len : Nat)
    {Q : Int → Obex → Prop} : wp (serverSend (E.ctx .all n) cmd len) Q Anywhere s := by
  have hrespond : wp (serverRespond (E.ctx .all n) cmd) Q Anywhere s := by
    rw [serverRespond, wp_bind, updateCurrent]
    exact anywhere_selfObject ho
  unfold serverSend
  split
  · exact anywhere_abort ho cmd
  split
  · rw [receiveUnexpected]
    split
    · rw [wp_bind, wp_pure, if_pos rfl]
      exact anywhere_parseerr ho 0
    · rw [wp_bind, wp_bind, obexObjectReceive, wp_bind, wp_modify]
      exact anywhere_selfObject (s := s.setRxMsg (bufRemoveBegin s.rxMsg 3)) ho
  · exact hrespond

variable (happ : ∀ log, ∀ c ∈ E.app log, c.passive = true)
include happ

/-- A packet is answered once at most, in whatever state the server is. -/
theorem server_once {s : Obex} (hs : Server s) (final : Bool) :
    wp (obexServer (E.ctx .all n) final) (fun _ => AnsweredOnce (responses s.log)) Anywhere s := by
  have anywhere {m : M Int} {strict calm : Bool} {w : List Bytes} {k : Nat} {s : Obex}
      (h : wp m (fun _ => Replied strict calm w k) NoNullObject s) :
      wp m (fun _ => AnsweredOnce w) Anywhere s := wp_mono h (fun _ _ h => h.once) fun _ _ _ => trivial
  -- a bare response is written once, whether it arrives or not
  have response {opcode : UInt8} {f : M Int}
      (hf : ∀ s', AnsweredOnce (responses s.log) s' → wp f (fun _ => AnsweredOnce (responses s.log))
        Anywhere s') :
      wp (obexResponseRequest (E.ctx .all n) opcode >>= fun _ => f)
        (fun _ => AnsweredOnce (responses s.log)) Anywhere s := by
    refine wp_seq (wp_mono (counts_server.response ⟨hs, rfl⟩ opcode) (fun _ s' h => ?_)
      fun _ _ _ => trivial) fun _ s' h => hf s' h
    obtain ⟨d, -, hserver, hw⟩ := h
    exact ⟨hserver, [d], by simp, hw⟩
  have hbyte {α : Type} {off : Nat} {f : UInt8 → M α} {Q : α → Obex → Prop}
      (h : ∀ b, wp (f b) Q Anywhere s) : wp (byteAt s.rxMsg off >>= f) Q Anywhere s := by
    rw [wp_bind]
    exact wp_byteAt (fun b _ => h b) trivial
  rw [obexServer, wp_bind, wp_get]
  refine hbyte fun op => hbyte fun a => hbyte fun b => ?_
  have replying {p : Ptr} (hp : s.object = some p) :
      Replying false false (responses s.log) (linkErrors s.log) p s.state s :=
    ⟨⟨hp, hs.mode, rfl, hs.mtuRx, by simp, rfl⟩, by simp⟩
  cases hst : s.state with
  | idle =>
    dsimp only
    cases hp : s.object with
    | none =>
      rw [← ctx_lenient]
      exact anywhere (answer_idle happ ⟨hp, hs.mode, hst, hs.mtuRx⟩ rfl _ _ final)
    | some p =>
      rw [serverIdle, wp_bind, wp_get, if_pos (by simp [hp])]
      exact response fun s' h => h
  | start =>
    refine response fun s' h => ?_
    refine wp_seq (passive_last happ stops_anywhere h.mtuRx _ _ _) fun _ s₂ h₂ => ?_
    obtain ⟨hh, hr⟩ := h₂
    obtain ⟨xs, hle, hw⟩ := h.once
    have hlog := congrArg Handle.log hh
    simp only [Obex.handle] at hlog
    refine ⟨⟨(congrArg Handle.mode hh).trans h.mode, hr⟩, xs, hle, ?_⟩
    rw [hlog, ← hw]
    simp [Obex.emit, responses]
  | recv =>
    dsimp only
    cases hp : s.object with
    | none => exact anywhere_rec hp _ _ _
    | some p =>
      rw [← ctx_lenient]
      exact anywhere (answer_rec happ (hst ▸ replying hp) _ _ final)
  | send =>
    dsimp only
    cases hp : s.object with
    | none => exact anywhere_send hp _ _
    | some p =>
      rw [← ctx_lenient]
      exact anywhere (answer_send happ (hst ▸ replying hp) (by simp) (by simp) _ _)

theorem once_dispatch {s : Obex} (hs : Server s) (final : Bool) :
    wp (dispatch (E.ctx .all n) final) (fun _ => AnsweredOnce (responses s.log)) Anywhere s := by
  have hlog : responses (s.emit (.recv s.rxMsg.contents)).log = responses s.log := by
    simp [Obex.emit, responses]
  rw [dispatch, ctx_recv, wp_bind]
  refine wp_packetReceived (fun _ => ?_) trivial
  rw [wp_bind, wp_get, show (s.emit (.recv s.rxMsg.contents)).mode = .srv from hs.mode, ← hlog]
  refine wp_seq (server_once (s := s.emit (.recv s.rxMsg.contents)) happ ⟨hs.mode, hs.mtuRx⟩ final)
    fun ret s' h => ?_
  rw [wp_bind, wp_modify]
  exact ⟨⟨h.mode, h.mtuRx⟩, h.once⟩

theorem server_responder : Duplex.Responder (serverParty E n) Server Envelope.stamp := by
  constructor
  · intro s s' out hs hstep
    obtain ⟨⟨c, hc, r, hr⟩, rfl⟩ := hstep
    have hkeep : Keeps (fun s' => Server s' ∧ s'.log = s.log) Anywhere (api (E.ctx .all n) c) :=
      AppFrame.passive ⟨stops_anywhere _, fun _ h => ⟨⟨h.1.mode, h.1.mtuRx⟩, h.2⟩,
        fun _ _ _ _ h _ _ => ⟨⟨h.1.mode, h.1.mtuRx⟩, h.2⟩, fun _ _ h => ⟨⟨h.1.mode, h.1.mtuRx⟩, h.2⟩,
        fun _ _ h => ⟨⟨h.1.mode, h.1.mtuRx⟩, h.2⟩,
        fun _ _ _ _ _ hrx _ h => ⟨⟨h.1.mode, hrx⟩, h.2⟩⟩ hc
    obtain ⟨hserver, hlog⟩ := wp_ok (hkeep s ⟨hs, rfl⟩) hr
    exact ⟨hserver, by simp [hlog]⟩
  · intro s m s' out hs hstep
    obtain ⟨⟨b, -, r, hr⟩, rfl⟩ := hstep
    have h := wp_ok (once_dispatch (s := s.setRxMsg b) happ ⟨hs.mode, hs.mtuRx⟩ _) hr
    obtain ⟨xs, hle, hw⟩ := h.once
    have hdrop : (responses s'.log).drop (responses s.log).length = xs := by
      rw [hw]
      simp [Obex.setRxMsg]
    rw [hdrop]
    refine ⟨h.toServer, by simpa using hle, fun e he => ?_⟩
    obtain ⟨d, -, rfl⟩ := List.mem_map.1 he
    rfl

end

/-! ## The two together -/

/-- In every interleaving of a client's requests and a server's answers there is at most one packet
under way, it belongs to the latest packet of the current request, and while it is under way the client
is in the state in which it takes a response. -/
theorem session_agrees {Ec Es : Env} (tc ts : TransportType) (nc ns : Nat)
    (hc : ∀ log, ∀ c ∈ Ec.app log, RequestCall c) (hs : ∀ log, ∀ c ∈ Es.app log, c.passive = true)
    (hwrite : ∀ log d, 0 ≤ Ec.write log d) (hlink : tc ≠ .usb) {x : Duplex.Session Obex Obex Envelope}
    (hx : Relation.ReflTransGen (Duplex.Step (clientParty Ec nc) (serverParty Es ns))
      ⟨obexInit tc, obexInit ts, [], []⟩ x) :
    (x.up ++ x.down).length ≤ 1 ∧ x.responder.mode = .srv ∧
      ∀ m ∈ x.up ++ x.down, x.requester.mode = .cli ∧ x.requester.state = .recv ∧
        x.requester.object ≠ none ∧
        m.stamp = ((postbox x.requester.log).requests, (postbox x.requester.log).sent.length) := by
  have hinit : Duplex.Calm (fun s => ∃ w, Settled w s) Server Envelope.stamp awaited
      (⟨obexInit tc, obexInit ts, [], []⟩ : Duplex.Session Obex Obex Envelope) := by
    refine ⟨⟨[], .inl ⟨rfl, fun _ => rfl, by simp, fun h => absurd h hlink⟩⟩, ⟨rfl, ?_⟩,
      by simp, by simp⟩
    exact (obexInit_inv ts).mtuRx
  have h := Duplex.calm_of_reaches (client_requester nc hc hwrite) (server_responder hs) hinit hx
  refine ⟨h.one, h.responder.mode, fun m hm => ?_⟩
  have hw := h.waits m hm
  obtain ⟨w, hw' | ⟨p, hb⟩⟩ := h.requester
  · cases hw'.awaited.symm.trans hw
  · obtain ⟨d, hd⟩ := hb.one rfl
    rw [hb.awaited, Option.some.injEq] at hw
    exact ⟨hb.mode, hb.state, hb.current_ne, by rw [← hw, hd]; simp⟩

/-- A PUT without headers is on its way, and its answer on the way back. -/
theorem session_agrees_put :
    ∃ x : Duplex.Session Obex Obex Envelope,
      x.down = [⟨(1, 1), [0xa0, 0x00, 0x03]⟩] ∧
        (x.up ++ x.down).length ≤ 1 ∧ x.responder.mode = .srv ∧
        ∀ m ∈ x.up ++ x.down, x.requester.mode = .cli ∧ x.requester.state = .recv ∧
          x.requester.object ≠ none ∧
          m.stamp = ((postbox x.requester.log).requests, (postbox x.requester.log).sent.length) := by
  have hclient : endsWith (api (quietPeer.ctx .all 9) (.objectNew 0x02)) (obexInit .custom)
      (fun t => decide ((postbox t.log).sent = []) &&
        endsWith (api (quietPeer.ctx .all 9) (.request 0)) t
          fun s => decide ((postbox s.log).sent = [⟨(1, 1), [0x82, 0x00, 0x03]⟩])) = true := by
    decide +kernel
  have hserver : endsWith (dispatch (putServer.ctx .all 9) (hasFinal [0x82, 0x00, 0x03]))
      ((obexInit .custom).setRxMsg (packetBuf [0x82, 0x00, 0x03]))
      (fun s => decide (responses s.log = [[0xa0, 0x00, 0x03]])) = true := by
    decide +kernel
  obtain ⟨r, t, hnew, ht⟩ := exists_ok_of_endsWith hclient
  rw [Bool.and_eq_true, decide_eq_true_eq] at ht
  obtain ⟨r', c, hrequest, hc⟩ := exists_ok_of_endsWith ht.2
  obtain ⟨r'', v, hdispatch, hv⟩ := exists_ok_of_endsWith hserver
  rw [decide_eq_true_eq] at hc hv
  have hnone : posted (obexInit .custom) t = [] := by simp [posted, ht.1]
  have hone : posted t c = [⟨(1, 1), [0x82, 0x00, 0x03]⟩] := by simp [posted, ht.1, hc]
  have step₁ : Duplex.Step (clientParty quietPeer 9) (serverParty putServer 9)
      ⟨obexInit .custom, obexInit .custom, [], []⟩
      ⟨t, obexInit .custom, [] ++ posted (obexInit .custom) t, []⟩ :=
    .request ⟨⟨.objectNew 0x02, .inl rfl, r, hnew⟩, rfl⟩
  have step₂ : Duplex.Step (clientParty quietPeer 9) (serverParty putServer 9)
      ⟨t, obexInit .custom, [], []⟩ ⟨c, obexInit .custom, [] ++ posted t c, []⟩ :=
    .request ⟨⟨.request 0, .inr ⟨0, rfl⟩, r', hrequest⟩, rfl⟩
  have step₃ : Duplex.Step (clientParty quietPeer 9) (serverParty putServer 9)
      ⟨c, obexInit .custom, [⟨(1, 1), [0x82, 0x00, 0x03]⟩], []⟩
      ⟨c, v, [], [] ++ ((responses v.log).drop (responses (obexInit .custom).log).length).map
        (Envelope.mk (1, 1))⟩ :=
    .answer ⟨⟨packetBuf [0x82, 0x00, 0x03], rfl, r'', hdispatch⟩, rfl⟩
  have hanswer : ((responses v.log).drop (responses (obexInit .custom).log).length).map
      (Envelope.mk (1, 1)) = [⟨(1, 1), [0xa0, 0x00, 0x03]⟩] := by
    rw [hv]
    rfl
  rw [hnone] at step₁
  rw [hone] at step₂
  rw [hanswer] at step₃
  have hreach := ((Relation.ReflTransGen.single step₁).tail step₂).tail step₃
  exact ⟨_, rfl, session_agrees .custom .custom 9 9 (by simp [quietPeer]) putServer_passive
    (by simp [quietPeer]) (by simp) hreach⟩

end OpenObex
