import OpenObex.Lib.Trace
import OpenObex.Proof.ClientRole

/-!
# Stop and wait

The client sends a packet only when it has none outstanding, except through `OBEX_ResumeRequest`,
which looks at flags that are set too late: `continue_received` stays set until the send and its
`OBEX_EV_PROGRESS` have returned, and after a resume that finishes the request. `stopGuard` bars the
resumes that send at such a time (`stop_and_wait`).
-/

namespace OpenObex

open Mem Prog Trace

/-! ## Counting packets -/

/-- The packets of the current request written minus the responses received, and whether the last of
these is a packet. -/
structure Ledger where
  packets : Int
  awaiting : Bool

/-- An ABORT, which may overtake a packet. -/
def isAbort (d : Bytes) : Bool := d.head?.any fun op => decide (withoutFinal op = obexCmdAbort)

def Ledger.step (l : Ledger) : Obs → Ledger
  | .request _ => { packets := 0, awaiting := false }
  | .write (some _) _ d => if isAbort d then l else { packets := l.packets + 1, awaiting := true }
  | .recv _ => { packets := l.packets - 1, awaiting := false }
  | _ => l

def ledger (log : List Obs) : Ledger := after Ledger.step { packets := 0, awaiting := false } log

/-- The number of packets of the current request that have not been answered. -/
def outstanding (log : List Obs) : Int := (ledger log).packets

@[simp] theorem ledger_append (log : List Obs) (x : Obs) :
    ledger (log ++ [x]) = (ledger log).step x := after_append _ _ _ _

/-! ## The resumes that send too early -/

/-- `obex_object_resume` would send nothing. -/
def resumeIgnored (s : Obex) : Bool :=
  s.current.all fun o => !o.suspend || (o.firstPacketSent && !o.continueReceived)

/-- A resume from inside a callback sends nothing, and any other sends nothing or comes when no packet
has been written since the last response. Packets arrive only in client mode. -/
def stopGuard : Guard where
  op op s := match op with
    | .call .resumeRequest => resumeIgnored s || !(ledger s.log).awaiting
    | _ => true
  nested c s := match c with
    | .resumeRequest => resumeIgnored s
    | _ => true
  recv s := decide (s.mode = .cli)

/-- The calls of a client that does not cut its requests off. -/
def StopCall (c : Call) : Prop := c ≠ .cancelRequest false

def StopOp : Op → Prop
  | .call c => StopCall c
  | _ => True

/-! ## The invariant -/

/-- At most one packet is outstanding, and none after a response. -/
def Ledger.Ok (l : Ledger) : Prop := l.packets ≤ if l.awaiting then 1 else 0

/-- It was so all along. -/
def Waits (s : Obex) : Prop := Always (fun log => (ledger log).Ok) s.log

/-- The request at `p`; `a` tells whether it waits for a response. -/
structure Pending (p : Ptr) (a : Bool) (s : Obex) : Prop where
  object : s.object = some p
  waits : Waits s
  awaiting : (ledger s.log).awaiting = a

def WaitsAtStop (_ : Stop) (s : Obex) : Prop := Waits s

theorem stops_waits {P : Obex → Prop} (h : ∀ s, P s → Waits s) : Stops P WaitsAtStop :=
  fun _ s _ hs => h s hs

theorem stops_pending (p : Ptr) (a : Bool) : Stops (Pending p a) WaitsAtStop :=
  stops_waits fun _ h => h.waits

theorem Waits.emit {s : Obex} (h : Waits s) {x : Obs} (hx : ∀ l, Ledger.step l x = l) :
    Waits (s.emit x) := by
  refine Always.append h ?_
  rw [ledger_append, hx]
  exact h.last

theorem Pending.emit {p : Ptr} {a : Bool} {s : Obex} (h : Pending p a s) {x : Obs}
    (hx : ∀ l, Ledger.step l x = l) : Pending p a (s.emit x) := by
  refine ⟨h.object, h.waits.emit hx, ?_⟩
  rw [Obex.emit, ledger_append, hx]
  exact h.awaiting

theorem Pending.write {p : Ptr} {s : Obex} (h : Pending p false s) (q : Option Ptr)
    (k : PacketKind) (d : Bytes) : ∃ a, Pending p a (s.emit (.write q k d)) := by
  have hok : (ledger s.log).packets ≤ 0 := by
    have := h.waits.last
    simpa [Ledger.Ok, h.awaiting] using this
  refine ⟨_, h.object, Always.append h.waits ?_, rfl⟩
  rw [ledger_append]
  cases q with
  | none => exact h.waits.last
  | some q =>
    simp only [Ledger.step]
    split
    · exact h.waits.last
    · simp only [Ledger.Ok, if_true]
      omega

theorem Pending.setObject {p : Ptr} {a : Bool} {s : Obex} (h : Pending p a s) (q : Ptr)
    (o : Option ObexObject) : Pending p a (s.setObject q o) := ⟨h.object, h.waits, h.awaiting⟩

theorem Pending.setTxMsg {p : Ptr} {a : Bool} {s : Obex} (h : Pending p a s) (b : Buf) :
    Pending p a (s.setTxMsg b) := ⟨h.object, h.waits, h.awaiting⟩

theorem Pending.setRxMsg {p : Ptr} {a : Bool} {s : Obex} (h : Pending p a s) (b : Buf) :
    Pending p a (s.setRxMsg b) := ⟨h.object, h.waits, h.awaiting⟩

theorem Pending.setMtu {p : Ptr} {a : Bool} {s : Obex} (h : Pending p a s) (m : Nat) :
    Pending p a { s with mtuTx := m } := ⟨h.object, h.waits, h.awaiting⟩

theorem Pending.current_ne {p : Ptr} {a : Bool} {s : Obex} (h : Pending p a s) : s.object ≠ none := by
  simp [h.object]

section
variable {E : Env} {n : Nat}

/-! ## The calls of the application -/

theorem waits_write (chunk : Bytes) {P : Obex → Prop} (hP : ∀ s, P s → Waits s)
    (hemit : ∀ s r, P s → P (s.emit (.io chunk r))) :
    Yields P WaitsAtStop (fun r => False → 0 ≤ r) ((E.ctx stopGuard n).write chunk) := by
  intro s hs
  rw [ctx_write]
  exact wp_transportWrite (fun _ => ⟨hemit s _ hs, by simp⟩) (hP _ (hemit s _ hs))

theorem waits_cancel {P : Obex → Prop} (hP : ∀ s, P s → Waits s)
    (hcurrent : ∀ s, P s → s.object ≠ none) (hlog : ∀ s x, (∀ l, Ledger.step l x = l) → P s →
    P (s.emit x)) (hfresh : ∀ s, P s → P { s with fresh := s.fresh + 1 })
    (hobject : ∀ s q o, P s → P (s.setObject q o)) (htx : ∀ s b, P s → P (s.setTxMsg b))
    (hstate : ∀ s, P s → P (s.setState .cli .recv)) :
    Keeps P WaitsAtStop (obexCancelrequest (E.ctx stopGuard n) true) := by
  intro s hs
  refine CancelFrame.cancel ⟨⟨stops_waits hP, htx, fun chunk => ?_, by simp⟩, hcurrent, hfresh, hobject,
    fun s q hs => hlog s _ (fun l => ?_) hs, hstate⟩ hs
  · exact waits_write chunk hP fun s r hs => hlog s _ (fun _ => rfl) hs
  · have : isAbort abortPacket = true := by decide
    simp only [Ledger.step, this, if_true]

theorem waits_resume {P : Obex → Prop} (hP : ∀ s, P s → Waits s)
    (hobject : ∀ s q o, P s → P (s.setObject q o)) {s : Obex} (hs : P s)
    (hg : resumeIgnored s = true) :
    wp (obexResumeRequest (E.ctx stopGuard n)) (fun _ => P) WaitsAtStop s := by
  rw [obexResumeRequest, wp_bind, wp_get]
  cases hp : s.object with
  | none => exact hs
  | some p =>
    dsimp only
    rw [obexObjectResume, wp_bind, wp_deref]
    refine ⟨fun o ho => ?_, fun _ => hP s hs⟩
    have hg : o.suspend = false ∨ (o.firstPacketSent = true ∧ o.continueReceived = false) := by
      simpa [resumeIgnored, Obex.current, hp, ho] using hg
    split
    · exact hs
    rw [wp_bind, wp_update]
    refine ⟨fun o' _ => ?_, fun _ => hP s hs⟩
    rcases hg with h | ⟨h1, h2⟩
    · simp_all
    · rw [if_pos ⟨h1, by simp [h2]⟩]
      exact hobject s p _ hs

/-- While a request is in progress, calls from the callback send no packet of it. -/
theorem pending_call {p : Ptr} {a : Bool} {c : Call} (hc : StopCall c) {s : Obex}
    (hs : Pending p a s) (hg : stopGuard.nested c s = true) :
    wp (api (E.ctx stopGuard n) c) (fun _ => Pending p a) WaitsAtStop s := by
  have hwaits (s : Obex) (h : Pending p a s) : Waits s := h.waits
  by_cases hp : c.passive = true
  · exact AppFrame.passive (P := Pending p a) ⟨stops_pending p a, fun _ h => ⟨h.object, h.waits,
      h.awaiting⟩, fun _ _ _ _ h _ _ => h.setObject _ _, fun _ _ h => h.setObject _ _,
      fun _ _ h => h.setObject _ _, fun _ _ _ _ _ _ _ h => ⟨h.object, h.waits, h.awaiting⟩⟩ hp s hs
  cases c with
  | request q =>
    rw [api, obexRequest, wp_bind, wp_get, if_pos (by simp [hs.object])]
    exact hs
  | cancelRequest nice =>
    cases nice with
    | true =>
      exact waits_cancel hwaits (fun _ h => h.current_ne) (fun _ _ hx h => h.emit hx)
        (fun _ h => ⟨h.object, h.waits, h.awaiting⟩) (fun _ q o h => h.setObject q o)
        (fun _ b h => h.setTxMsg b) (fun _ h => ⟨h.object, h.waits, h.awaiting⟩) s hs
    | false => exact absurd rfl hc
  | resumeRequest => exact waits_resume hwaits (fun _ q o h => h.setObject q o) hs hg
  | _ => exact absurd rfl hp

variable (happ : ∀ log, ∀ c ∈ E.app log, StopCall c)
include happ

theorem pending_event {p : Ptr} {a : Bool} {s : Obex} (hs : Pending p a s) (event : Event)
    (cmd rsp : UInt8) :
    wp (obexDeliverEvent (E.ctx stopGuard n) event cmd rsp false) (fun _ => Pending p a)
      WaitsAtStop s := by
  refine wp_deliverEvent (wp_conseq (wp_eventcb (P := Pending p a) (stops_pending p a)
    (hs.emit fun _ => rfl) fun m _ c hc s hs hg => ?_) fun _ _ h => h.1)
  exact pending_call (happ _ c hc) hs hg

/-! ## Sending -/

theorem pending_receive (p : Ptr) (a : Bool) :
    Keeps (Pending p a) WaitsAtStop (obexObjectReceive (E.ctx stopGuard n)) :=
  RxFrame.receive ⟨stops_pending p a, keeps_selfObject fun _ h => h.current_ne, fun _ b h =>
    h.setRxMsg b, fun _ h => ⟨h.object, h.waits, h.awaiting⟩, fun _ _ _ _ h _ _ => h.setObject _ _,
    fun _ h => pending_event happ h _ _ _⟩

theorem pending_send {p : Ptr} {s : Obex} (hs : Pending p false s) :
    wp (obexObjectSend (E.ctx stopGuard n) p true false) (fun _ s' => ∃ a, Pending p a s')
      WaitsAtStop s := by
  have hF : SendFrame (E.ctx stopGuard n) p (Pending p false) WaitsAtStop False := by
    refine ⟨stops_pending p false, fun _ h => h.object, fun _ b h => h.setTxMsg b,
      fun _ _ _ h _ _ => h.setObject _ _, fun s h => ?_, by simp⟩
    exact wp_conseq (pending_event happ h _ _ _) fun _ _ h => .inl ⟨h, by simp⟩
  have hstop : Stops (fun s => ∃ a, Pending p a s) WaitsAtStop := stops_waits fun _ ⟨_, h⟩ => h.waits
  have hW : WriteFrame (E.ctx stopGuard n) (fun s => ∃ a, Pending p a s) WaitsAtStop False := by
    refine ⟨hstop, fun s b ⟨a, h⟩ => ⟨a, h.setTxMsg b⟩, fun chunk => ?_, by simp⟩
    exact waits_write chunk (fun _ ⟨_, h⟩ => h.waits) fun s r ⟨a, h⟩ => ⟨a, h.emit fun _ => rfl⟩
  refine hF.send hs (fun o _ _ => ⟨false, hs⟩) (fun _ s hs => ⟨false, hs⟩) fun s o hs _ => ?_
  refine wp_conseq (wp_dataRequest hW (fun _ _ => hs.waits) fun b _ => ?_) fun r s' h => h.1
  exact (hs.setTxMsg b).write _ _ _

/-! ## The functions of the client -/

omit happ in
theorem pending_update {p q : Ptr} {a : Bool} {s : Obex} (hs : Pending p a s)
    (f : ObexObject → ObexObject) : wp (update q f) (fun _ => Pending p a) WaitsAtStop s := by
  rw [wp_update]
  exact ⟨fun o ho => hs.setObject _ _, fun _ => hs.waits⟩

omit happ in
theorem pending_updateCurrent {p : Ptr} {a : Bool} {s : Obex} (hs : Pending p a s)
    (f : ObexObject → ObexObject) : wp (updateCurrent f) (fun _ => Pending p a) WaitsAtStop s :=
  wp_seq (keeps_selfObject (fun _ h => Pending.current_ne h) s hs) fun _ _ hs => pending_update hs f

omit happ in
theorem pending_currentOpcode {p : Ptr} {a : Bool} {s : Obex} (hs : Pending p a s) :
    wp currentOpcode (fun _ => Pending p a) WaitsAtStop s :=
  keeps_currentOpcode (stops_pending p a) (fun _ h => h.current_ne) s hs

/-- What the calls of a callback keep, one level of nesting further in. -/
def CallsWait (E : Env) (n : Nat) : Prop :=
  ∀ m, m < n → ∀ c, StopCall c → ∀ s, Waits s → stopGuard.nested c s = true →
    wp (api (E.ctx stopGuard m) c) (fun _ => Waits) WaitsAtStop s

section
variable (hcalls : CallsWait E n)
include hcalls

/-- The last event of a request, in which the application may make the next one. -/
theorem waits_last {s : Obex} (hs : Waits s) (event : Event) (cmd rsp : UInt8) :
    wp (obexDeliverEvent (E.ctx stopGuard n) event cmd rsp true) (fun _ => Waits) WaitsAtStop s := by
  have hemit : Waits (({ s with object := none } : Obex).emit (.event (noticeOf s event cmd rsp))) :=
    Waits.emit hs fun _ => rfl
  refine wp_deliverLast (wp_conseq (wp_eventcb (P := Waits) (stops_waits fun _ h => h) hemit
    fun m hm c hc s hs hg => hcalls m hm c (happ _ c hc) s hs hg) ?_)
  intro _ s' h
  exact ⟨fun p _ => ⟨h.1, h.1⟩, fun _ => h.1⟩

theorem waits_start {p : Ptr} {s : Obex} (hs : Pending p false s) (rsp : UInt8) :
    wp (clientStart (E.ctx stopGuard n) rsp) (fun _ => Waits) WaitsAtStop s := by
  rw [clientStart, wp_bind, wp_get, hs.object]
  refine wp_seq (pending_send happ hs) fun ret s hs => ?_
  obtain ⟨a, hs⟩ := hs
  split
  · rw [wp_bind, OpenObex.setState, wp_modify]
    refine wp_seq (pending_currentOpcode (a := a) (p := p) ⟨hs.object, hs.waits, hs.awaiting⟩)
      fun op s hs => ?_
    exact wp_seq (waits_last happ hcalls hs.waits _ _ _) fun _ _ h => h
  · refine wp_seq (pending_updateCurrent hs _) fun _ s hs => ?_
    refine wp_seq (pending_currentOpcode hs) fun op s hs => ?_
    refine wp_seq (pending_event happ hs _ _ _) fun _ s hs => ?_
    rw [wp_bind, OpenObex.setState, wp_modify]
    exact hs.waits

/-- A call at any time: only `OBEX_Request` sends a packet. -/
theorem waits_call_step {c : Call} (hc : StopCall c) {s : Obex} (hs : Waits s)
    (hg : stopGuard.nested c s = true) :
    wp (api (E.ctx stopGuard n) c) (fun _ => Waits) WaitsAtStop s := by
  by_cases hp : c.passive = true
  · exact AppFrame.passive (P := Waits) ⟨stops_waits fun _ h => h, fun _ h => h,
      fun _ _ _ _ h _ _ => h, fun _ _ h => h, fun _ _ h => h, fun _ _ _ _ _ _ _ h => h⟩ hp s hs
  cases ho : s.object with
  | some p => exact wp_conseq (pending_call hc ⟨ho, hs, rfl⟩ hg) fun _ _ h => h.waits
  | none =>
    cases c with
    | request q =>
      rw [api, obexRequest, wp_bind, wp_get, if_neg (by simp [ho]), wp_bind, wp_set]
      have hreq : Pending q false
          (({ s with object := some q, mode := .cli, state := .start } : Obex).emit (.request q)) := by
        refine ⟨rfl, Always.append hs ?_, ?_⟩
        · rw [ledger_append]
          exact Int.le_refl 0
        · rw [Obex.emit, ledger_append]
          rfl
      rw [obexClient, wp_bind, wp_get, wp_bind, if_neg (by simp), wp_pure]
      exact waits_start happ hcalls hreq _
    | cancelRequest nice =>
      rw [api, obexCancelrequest, wp_bind, wp_get, if_pos (by simp [ho])]
      exact hs
    | resumeRequest =>
      rw [api, obexResumeRequest, wp_bind, wp_get, ho]
      exact hs
    | _ => exact absurd rfl hp

end

theorem callsWait (n : Nat) : CallsWait E n := by
  induction n with
  | zero =>
    intro m hm
    omega
  | succ n ih =>
    intro m hm c hc s hs hg
    have hcalls : CallsWait E m := by
      intro k hk
      exact ih k (by omega)
    exact waits_call_step happ hcalls hc hs hg

theorem waits_last' {s : Obex} (hs : Waits s) (event : Event) (cmd rsp : UInt8) :
    wp (obexDeliverEvent (E.ctx stopGuard n) event cmd rsp true) (fun _ => Waits) WaitsAtStop s :=
  waits_last happ (callsWait happ n) hs event cmd rsp

/-- The state is set, then the last event is delivered. -/
theorem waits_finish {p : Ptr} {a : Bool} {s : Obex} (hs : Pending p a s) (mode : Mode)
    (state : State) (event : Event) (rsp : UInt8) (ret : Int) :
    wp (do
      setState mode state
      obexDeliverEvent (E.ctx stopGuard n) event (← currentOpcode) rsp true
      pure ret) (fun _ => Waits) WaitsAtStop s := by
  rw [wp_bind, OpenObex.setState, wp_modify]
  have hs' : Pending p a (s.setState mode state) := ⟨hs.object, hs.waits, hs.awaiting⟩
  refine wp_seq (pending_currentOpcode hs') fun op s hs => ?_
  exact wp_seq (waits_last' happ hs.waits _ _ _) fun _ _ h => h

/-- A CONTINUE: the next packet is sent, or put off while the request is aborted or suspended. -/
theorem waits_continue {p : Ptr} {s : Obex} (hs : Pending p false s) :
    wp (clientContinue (E.ctx stopGuard n)) (fun _ => Waits) WaitsAtStop s := by
  refine wp_seq (pending_updateCurrent hs _) fun _ s hs => ?_
  rw [wp_bind, wp_selfObject]
  refine ⟨fun q hq => ?_, fun _ => hs.waits⟩
  obtain rfl : q = p := by simpa [hs.object] using hq.symm
  rw [wp_bind, wp_deref]
  refine ⟨fun o _ => ?_, fun _ => hs.waits⟩
  split
  · exact hs.waits
  split
  · exact hs.waits
  refine wp_seq (pending_send happ hs) fun ret s hs => ?_
  obtain ⟨a, hs⟩ := hs
  refine wp_seq (pending_currentOpcode hs) fun op s hs => ?_
  have hevent : wp (if ret < 0 then obexDeliverEvent (E.ctx stopGuard n) .linkerr op 0 true
      else obexDeliverEvent (E.ctx stopGuard n) .progress op 0 false) (fun _ => Waits)
        WaitsAtStop s := by
    split
    · exact waits_last' happ hs.waits _ _ _
    · exact wp_conseq (pending_event happ hs _ _ _) fun _ _ h => h.waits
  refine wp_seq hevent fun _ s hs => ?_
  rw [wp_bind, wp_get]
  cases s.object with
  | none => exact hs
  | some q =>
    dsimp only
    rw [wp_bind, wp_update]
    exact ⟨fun _ _ => hs, fun _ => hs⟩

theorem waits_done {p : Ptr} {a : Bool} {s : Obex} (hs : Pending p a s) (rsp : UInt8) :
    wp (clientDone (E.ctx stopGuard n) rsp) (fun _ => Waits) WaitsAtStop s := by
  rw [clientDone, wp_bind, OpenObex.setState, wp_modify, wp_bind, wp_selfObject]
  refine ⟨fun q _ => ?_, fun _ => hs.waits⟩
  rw [wp_bind, wp_deref]
  refine ⟨fun o _ => ?_, fun _ => hs.waits⟩
  have hs' : Waits (s.setState .srv .idle) := hs.waits
  exact wp_seq (waits_last' happ hs' _ _ _) fun _ _ h => h

omit happ in
theorem pending_connect {p : Ptr} {a : Bool} {s : Obex} (hs : Pending p a s) :
    wp clientConnect (fun _ => Pending p a) WaitsAtStop s := by
  refine wp_seq (pending_currentOpcode hs) fun op s hs => ?_
  split
  · rw [wp_bind]
    refine wp_parseConnectHeader hs.waits ?_ ?_
    · rw [if_neg (by decide)]
      exact wp_seq (pending_updateCurrent (hs.setMtu _) _) fun _ _ hs => hs
    · rw [if_pos (by decide)]
      exact hs
  · exact hs

theorem waits_rec {p : Ptr} {s : Obex} (hs : Pending p false s) (rsp : UInt8) :
    wp (clientRec (E.ctx stopGuard n) rsp) (fun _ => Waits) WaitsAtStop s := by
  refine wp_seq (pending_connect hs) fun ok s hs => ?_
  split
  · refine wp_seq (pending_currentOpcode hs) fun op s hs => ?_
    have hwhen : wp (when (op = obexCmdDisconnect)
        (modify fun s => { s with mtuTx := obexMinimumMtu })) (fun _ => Pending p false)
        WaitsAtStop s := by
      rw [wp_when]
      exact ⟨fun _ => hs.setMtu _, fun _ => hs⟩
    refine wp_seq hwhen fun _ s hs => ?_
    refine wp_seq (pending_receive happ p false s hs) fun ret s hs => ?_
    split
    · exact waits_finish happ hs _ _ _ _ _
    split
    · exact waits_continue happ hs
    · exact waits_done happ hs rsp
  · exact waits_finish happ hs _ _ _ _ _

theorem waits_unexpected {p : Ptr} {s : Obex} (hs : Pending p false s) (rsp : UInt8) :
    wp (clientSend (E.ctx stopGuard n) rsp) (fun _ => Waits) WaitsAtStop s := by
  unfold clientSend
  split
  · refine wp_seq (pending_currentOpcode hs) fun op s hs => ?_
    exact wp_seq (waits_last' happ hs.waits _ _ _) fun _ _ h => h
  rw [wp_bind, wp_get, wp_bind]
  refine wp_byteAt (fun a _ => ?_) hs.waits
  rw [wp_bind]
  refine wp_byteAt (fun b _ => ?_) hs.waits
  dsimp only
  split
  · refine wp_seq (pending_currentOpcode hs) fun op s hs => ?_
    have hreceive : wp (receiveUnexpected (E.ctx stopGuard n) (decide (op = obexCmdConnect)))
        (fun _ => Pending p false) WaitsAtStop s := by
      unfold receiveUnexpected
      split
      · exact hs
      · exact wp_seq (pending_receive happ p false s hs) fun _ _ hs => hs
    refine wp_seq hreceive fun bad s hs => ?_
    split
    · exact waits_finish happ hs _ _ _ _ _
    · refine wp_seq (pending_currentOpcode hs) fun op s hs => ?_
      refine wp_seq (pending_event happ hs _ _ _) fun _ s hs => ?_
      exact waits_start happ (callsWait happ n) hs rsp
  · exact waits_start happ (callsWait happ n) hs rsp

omit happ in
/-- Without an object the first look at it stops the client. -/
theorem waits_noObject {α : Type} {s : Obex} (hs : Waits s) (ho : s.object = none)
    {f : UInt8 → M α} {Q : α → Obex → Prop} : wp (currentOpcode >>= f) Q WaitsAtStop s := by
  rw [wp_bind, currentOpcode, wp_bind, wp_selfObject]
  exact ⟨fun p hp => by simp [ho] at hp, fun _ => hs⟩

/-- A response, in whatever state the client is. -/
theorem waits_client {s : Obex} (hs : Waits s) (ha : (ledger s.log).awaiting = false) :
    wp (obexClient (E.ctx stopGuard n) true) (fun _ => Waits) WaitsAtStop s := by
  rw [obexClient, wp_bind, wp_get, wp_bind, if_pos rfl, wp_bind]
  refine wp_byteAt (fun op _ => ?_) hs
  rw [wp_pure]
  have hother {rsp : UInt8} : wp (do
      obexDeliverEvent (E.ctx stopGuard n) .parseerr rsp 0 true
      pure (-1)) (fun (_ : Int) => Waits) WaitsAtStop s :=
    wp_seq (waits_last' happ hs _ _ _) fun _ _ h => h
  cases ho : s.object with
  | none =>
    have hstart {rsp : UInt8} : wp (clientStart (E.ctx stopGuard n) rsp) (fun _ => Waits)
        WaitsAtStop s := by
      rw [clientStart, wp_bind, wp_get, ho]
      exact hother
    split
    · rw [if_pos rfl]
      unfold clientSend
      split
      · exact waits_noObject hs ho
      rw [wp_bind, wp_get, wp_bind]
      refine wp_byteAt (fun a _ => ?_) hs
      rw [wp_bind]
      refine wp_byteAt (fun b _ => ?_) hs
      dsimp only
      split
      · exact waits_noObject hs ho
      · exact hstart
    · exact hstart
    · rw [if_pos rfl, clientRec, wp_bind, clientConnect]
      exact waits_noObject hs ho
    · exact hother
  | some p =>
    have hs : Pending p false s := ⟨ho, hs, ha⟩
    split
    · exact waits_unexpected happ hs _
    · exact waits_start happ (callsWait happ n) hs _
    · exact waits_rec happ hs _
    · exact hother

/-- A resume that may send: nothing has been written since the last response. -/
theorem waits_resumeRequest {s : Obex} (hs : Waits s)
    (hg : resumeIgnored s = true ∨ (ledger s.log).awaiting = false) :
    wp (obexResumeRequest (E.ctx stopGuard n)) (fun _ => Waits) WaitsAtStop s := by
  rcases hg with hg | ha
  · exact waits_resume (fun _ h => h) (fun _ _ _ h => h) hs hg
  rw [obexResumeRequest, wp_bind, wp_get]
  cases ho : s.object with
  | none => exact hs
  | some p =>
    have hs : Pending p false s := ⟨ho, hs, ha⟩
    dsimp only
    rw [obexObjectResume, wp_bind, wp_deref]
    refine ⟨fun o _ => ?_, fun _ => hs.waits⟩
    split
    · exact hs.waits
    refine wp_seq (pending_update hs _) fun _ s hs => ?_
    split
    · exact hs.waits
    refine wp_seq (pending_send happ hs) fun ret s hs => ?_
    obtain ⟨a, hs⟩ := hs
    rw [wp_bind, wp_deref]
    refine ⟨fun o _ => ?_, fun _ => hs.waits⟩
    split
    · exact wp_seq (waits_last' happ hs.waits _ _ _) fun _ _ h => h
    split
    · refine wp_seq (pending_event happ hs _ _ _) fun _ s hs => ?_
      refine wp_seq (pending_update hs _) fun _ s hs => ?_
      rw [wp_bind, wp_modify]
      exact hs.waits
    · rw [wp_bind, wp_get]
      split
      · refine wp_seq (waits_last' happ hs.waits _ _ _) fun _ s hs => ?_
        rw [wp_bind, wp_modify]
        exact hs
      · rw [wp_bind, wp_modify]
        exact hs.waits

/-! ## Runs -/

theorem waits_dispatch {s : Obex} (hs : Waits s) (final : Bool) :
    wp (dispatch (E.ctx stopGuard n) final) (fun _ => Waits) WaitsAtStop s := by
  have hok := hs.last
  have hrecv : Waits (s.emit (.recv s.rxMsg.contents)) := by
    refine Always.append hs ?_
    rw [ledger_append]
    simp only [Ledger.Ok, Ledger.step] at hok ⊢
    split at hok <;> simp <;> omega
  rw [dispatch, ctx_recv, wp_bind]
  refine wp_packetReceived (fun hg => ?_) hrecv
  have hm : s.mode = .cli := by simpa [stopGuard] using hg
  have hm : (s.emit (.recv s.rxMsg.contents)).mode = .cli := hm
  have ha : (ledger (s.emit (.recv s.rxMsg.contents)).log).awaiting = false := by
    rw [Obex.emit, ledger_append]
    rfl
  rw [wp_bind, wp_get, hm]
  refine wp_seq (waits_client happ hrecv ha) fun ret s hs => ?_
  rw [wp_bind, wp_modify]
  exact hs

theorem waits_indication {s : Obex} (hs : Waits s) (buf : Option Bytes) (buflen : Int) :
    wp (obexDataIndication (E.ctx stopGuard n) buf buflen) (fun _ => Waits) WaitsAtStop s := by
  have hstop : Stops Waits WaitsAtStop := stops_waits fun _ h => h
  have hread : ReadFrame stopGuard Waits WaitsAtStop False :=
    ⟨hstop, fun _ _ h => h, fun _ _ h => h.emit fun _ => rfl, by simp⟩
  have hread' (max : Nat) (buf : Bytes) (buflen : Int) (hmax : 0 < max) :
      Yields Waits WaitsAtStop (fun r => False → 0 < r)
        (obexTransportRead (E.ctx stopGuard n) max buf buflen) :=
    hread.obexTransportRead buf buflen hmax (by simp) (by simp) (by simp)
  refine wp_dataIndication (P := Waits) hstop (fun _ h => h) hread'
    (fun s final hs _ => waits_dispatch happ hs final) hs fun _ _ s actual hs => ?_
  exact wp_seq (waits_last' happ hs _ _ _) fun _ _ h => h

theorem waits_op {op : Op} (hop : StopOp op) {s : Obex} (hs : Waits s)
    (hg : stopGuard.op op s = true) :
    wp (runOp (E.ctx stopGuard n) stopGuard op) (fun _ => Waits) WaitsAtStop s := by
  rw [runOp, wp_bind, wp_get, wp_bind, wp_allowed]
  refine ⟨fun _ => ?_, fun _ => hs⟩
  cases op with
  | call c =>
    by_cases hc : c = .resumeRequest
    · subst hc
      have hg : resumeIgnored s = true ∨ (ledger s.log).awaiting = false := by
        simpa [stopGuard] using hg
      exact wp_seq (waits_resumeRequest happ hs hg) fun _ _ h => h
    · have hg : stopGuard.nested c s = true := by
        unfold stopGuard
        cases c with
        | resumeRequest => exact absurd rfl hc
        | _ => rfl
      exact wp_seq (waits_call_step happ (callsWait happ n) hop hs hg) fun _ _ h => h
  | transportConnect mtu => exact hs
  | customDataFeed d => exact wp_seq (waits_indication happ hs _ _) fun _ _ h => h
  | handleInput =>
    dsimp only
    split
    · exact hs
    · exact wp_seq (waits_indication happ hs _ _) fun _ _ h => h

end

/-- In every run in which no resume sends too early, at every moment at most one packet of the current
request is outstanding. -/
theorem stop_and_wait (E : Env) (t : TransportType) (n : Nat) (ops : List Op)
    (happ : ∀ log, ∀ c ∈ E.app log, StopCall c) (hops : ∀ op ∈ ops, StopOp op) :
    wp (run (E.ctx stopGuard n) stopGuard ops)
      (fun _ s => ∀ pre, pre <+: s.log → outstanding pre ≤ 1)
      (fun _ s => ∀ pre, pre <+: s.log → outstanding pre ≤ 1) (obexInit t) := by
  have hle {s : Obex} (hs : Waits s) : ∀ pre, pre <+: s.log → outstanding pre ≤ 1 := by
    intro pre hpre
    have hok : (ledger pre).Ok := hs pre hpre
    unfold Ledger.Ok at hok
    unfold outstanding
    split at hok <;> omega
  have hinit : Waits (obexInit t) := Always.nil (by simp [ledger, after, Ledger.Ok])
  exact wp_mono (wp_run (stops_waits fun _ h => h) hinit
    fun op ho s hs hg => waits_op happ (hops op ho) hs hg) (fun _ s hs => hle hs) fun _ s hs => hle hs

/-! ## A packet sent from inside a callback -/

/-- An application that suspends and resumes when its second packet has been sent. -/
def hastyClient : Env where
  malloc _ := true
  app log := match log.getLast? with
    | some (.event n) =>
      if n.event = .progress ∧ (log.filter fun x => match x with
        | .event m => decide (m.event = .progress)
        | _ => false).length = 2 then [.suspendRequest none, .resumeRequest] else []
    | _ => []
  write _ d := d.length
  read _ _ := none

/-- A PUT whose body takes three packets. -/
def longPut : List Op :=
  [.call (.objectNew 0x02),
    .call (.objectAddHeader 0 obexHdrBody { bs := some (List.replicate 600 0x61) } 600 {}),
    .call (.request 0)]

def continuePacket : Op := .customDataFeed [0x90, 0x00, 0x03]

theorem longPut_ops : ∀ op ∈ longPut, StopOp op := by
  intro op hop
  simp only [longPut, List.mem_cons, List.not_mem_nil, or_false] at hop
  rcases hop with rfl | rfl | rfl <;>
    simp only [StopOp, StopCall, ne_eq, reduceCtorEq, not_false_eq_true]

theorem hastyClient_calls (log : List Obs) : ∀ c ∈ hastyClient.app log, StopCall c := by
  intro c hc
  simp only [hastyClient] at hc
  split at hc
  · split at hc
    · simp only [List.mem_cons, List.not_mem_nil, or_false] at hc
      rcases hc with rfl | rfl <;> simp [StopCall]
    · cases hc
  · cases hc

/-- A resume from inside `OBEX_EV_PROGRESS` sends the third packet before the second is answered. -/
theorem two_packets_outstanding :
    ¬ ∀ (E : Env) (t : TransportType) (n : Nat) (ops : List Op),
      (∀ log, ∀ c ∈ E.app log, StopCall c) → (∀ op ∈ ops, StopOp op) →
      wp (run (E.ctx .all n) .all ops) (fun _ s => ∀ pre, pre <+: s.log → outstanding pre ≤ 1)
        (fun _ s => ∀ pre, pre <+: s.log → outstanding pre ≤ 1) (obexInit t) := by
  intro h
  have hrun := h hastyClient .custom 9 (longPut ++ [continuePacket]) hastyClient_calls
    (fun op hop => by
      cases List.mem_append.mp hop with
      | inl hop => exact longPut_ops op hop
      | inr hop => simp_all [continuePacket, StopOp])
  have hend : endsWith (run (hastyClient.ctx .all 9) .all (longPut ++ [continuePacket]))
      (obexInit .custom) (fun s => decide (outstanding s.log = 2)) = true := by
    decide +kernel
  obtain ⟨-, s, hs, hle⟩ := exists_of_endsWith hend hrun
  simp only [decide_eq_true_eq] at hs
  have := hle s.log (List.prefix_refl _)
  omega

/-- A client that suspends between packets and resumes after the response. -/
theorem stop_and_wait_put :
    endsWith (run (quietPeer.ctx stopGuard 9) stopGuard (longPut ++ [.call (.suspendRequest none),
        continuePacket, .call .resumeRequest])) (obexInit .custom)
        (fun s => decide (outstanding s.log = 1)) = true ∧
      wp (run (quietPeer.ctx stopGuard 9) stopGuard (longPut ++ [.call (.suspendRequest none),
        continuePacket, .call .resumeRequest]))
        (fun _ s => ∀ pre, pre <+: s.log → outstanding pre ≤ 1)
        (fun _ s => ∀ pre, pre <+: s.log → outstanding pre ≤ 1) (obexInit .custom) :=
  ⟨by decide +kernel, stop_and_wait quietPeer .custom 9 _ (by simp [quietPeer])
    (fun op hop => by
      cases List.mem_append.mp hop with
      | inl hop => exact longPut_ops op hop
      | inr hop =>
        simp only [List.mem_cons, List.not_mem_nil, or_false] at hop
        rcases hop with rfl | rfl | rfl <;> simp [continuePacket, StopOp, StopCall])⟩

end OpenObex
