import OpenObex.Lib.Trace
import OpenObex.Proof.Stays

/-!
# After an ABORT

Once `OBEX_CancelRequest` has written the ABORT of a client's request, nothing more of the request
should be sent, no more of its body be delivered, and the request should not be done. The abort flag
says so, but not every function that goes on with the object looks at it: not `OBEX_ResumeRequest`, not
the sender after its `OBEX_EV_STREAMEMPTY`, not the receiver between the two events of a last body
header, and not the server. `abortGuard` bars these steps; in every run without them an ABORT is final
(`abort_final`).
-/

namespace OpenObex

open Mem Prog Trace

/-! ## The request aborted -/

/-- How far the ABORT of the current request has come. -/
inductive Phase
  | quiet
  /-- It is handed to the transport, which has taken nothing of it. -/
  | begun
  /-- The transport has taken the last chunk it was offered. -/
  | sent
  | aborted
  deriving DecidableEq

/-- The client's current request and its ABORT. -/
structure Watch where
  cur : Option Ptr
  phase : Phase
  deriving DecidableEq

namespace Watch

/-- The packet written last is complete. -/
def settled (w : Watch) : Watch := match w.phase with
  | .begun => { w with phase := .quiet }
  | .sent => { w with phase := .aborted }
  | _ => w

/-- The request whose ABORT has been written. -/
def aborted (w : Watch) : Option Ptr := match w.phase with
  | .sent | .aborted => w.cur
  | _ => none

@[simp] theorem settled_cur (w : Watch) : w.settled.cur = w.cur := by
  obtain ⟨cur, phase⟩ := w
  cases phase <;> rfl

@[simp] theorem settled_aborted (w : Watch) : w.settled.aborted = w.aborted := by
  obtain ⟨cur, phase⟩ := w
  cases phase <;> rfl

@[simp] theorem settled_settled (w : Watch) : w.settled.settled = w.settled := by
  obtain ⟨cur, phase⟩ := w
  cases phase <;> rfl

theorem cur_of_aborted {w : Watch} {p : Ptr} (h : w.aborted = some p) : w.cur = some p := by
  obtain ⟨cur, phase⟩ := w
  cases phase <;> simp_all [aborted]

end Watch

/-- An ABORT is written for an object of its own. -/
def watchStep (w : Watch) : Obs → Watch
  | .request p => ⟨some p, .quiet⟩
  | .write (some q) _ d =>
    if w.aborted = none ∧ w.cur ≠ none ∧ w.cur ≠ some q ∧ d = abortPacket then ⟨w.cur, .begun⟩
    else w.settled
  | .io _ r => match w.phase with
    | .begun | .sent => ⟨w.cur, if 0 ≤ r then .sent else .quiet⟩
    | _ => w
  | .event n => if n.event.final = true ∧ n.object = w.cur then ⟨none, .quiet⟩ else w.settled
  | _ => w.settled

def watch (log : List Obs) : Watch := after watchStep ⟨none, .quiet⟩ log

@[simp] theorem watch_append (log : List Obs) (x : Obs) :
    watch (log ++ [x]) = watchStep (watch log) x := after_append _ _ _ _

/-- The current request, if its ABORT has been written. -/
def abortedRequest (log : List Obs) : Option Ptr := (watch log).aborted

/-- What may happen when the request at `p` is aborted. -/
def Quietly (p : Ptr) : Obs → Prop
  | .event n => n.object = some p → n.event ≠ .streamavail ∧ n.event ≠ .reqdone
  | .write object _ _ => object ≠ some p
  | _ => True

def AbortEntry (log : List Obs) (x : Obs) : Prop := ∀ p, abortedRequest log = some p → Quietly p x

/-- An ABORT has been final, and a request is current until its last event. -/
structure AbortFinal (s : Obex) : Prop where
  entries : Steps AbortEntry s.log
  current : ∀ p, (watch s.log).cur = some p → s.object = some p

/-! ## The steps that go on with an aborted request -/

/-- `OBEX_ResumeRequest` would send a packet of an aborted object. -/
def resumesAborted (s : Obex) : Bool := s.current.any fun o =>
  o.abort && o.suspend && (!o.firstPacketSent || o.continueReceived)

/-- An aborted request is not resumed; the objects used exist. -/
def abortCall (c : Call) (s : Obex) : Bool := match c with
  | .resumeRequest => !resumesAborted s
  | .cancelRequest true => s.object.isNone || s.current.isSome
  | .request p => s.object.isSome || (s.objects p).isSome
  | _ => true

/-- The second event of a last body header is still to come. -/
def endOfBody (n : Notice) (s : Obex) : Bool :=
  n.data.any (fun d => decide (d.2 ≠ 0)) && decide (s.rxMsg.reach[0]? = some obexHdrBodyEnd)

/-- The callback leaves no aborted request to a function that would go on with it, and no client to the
server. -/
def abortAfter (n : Notice) (s : Obex) : Bool :=
  ((abortedRequest s.log).isNone ||
    !(decide (n.event = .streamempty) || decide (n.event = .streamavail) && endOfBody n s)) &&
  ((abortedRequest s.log).isNone && decide (s.mode = .srv) || !decide (n.mode = .srv) || n.event.final)

def abortGuard : Guard where
  op op s := match op with
    | .call c => abortCall c s
    | _ => true
  nested c s := abortCall c s
  after := abortAfter

/-! ## The invariant -/

/-- What the handle is like while its request is aborted. -/
structure Aborting (s : Obex) : Prop extends AbortFinal s where
  bound : ∀ p o, s.objects p = some o → p < s.fresh
  curBound : ∀ p, (watch s.log).cur = some p → p < s.fresh
  flag : ∀ p o, abortedRequest s.log = some p → s.objects p = some o → o.abort = true
  role : abortedRequest s.log ≠ none → s.mode = .cli ∧ s.state = .recv ∨ s.mode = .srv ∧ s.state = .idle
  notSending : s.mode = .cli → s.state ≠ .send

/-- The current request may be sent and be done. -/
def Going (log : List Obs) : Prop := abortedRequest log = none

/-- The last packet is complete. -/
def Calm (log : List Obs) : Prop := (watch log).settled = watch log

namespace Aborting

variable {s : Obex}

theorem handle {t : Obex} (h : Aborting s) (hl : t.log = s.log) (ho : t.objects = s.objects)
    (hf : t.fresh = s.fresh) (hobject : t.object = s.object)
    (hrole : abortedRequest s.log ≠ none → t.mode = .cli ∧ t.state = .recv ∨ t.mode = .srv ∧
    t.state = .idle) (hs : t.mode = .cli → t.state ≠ .send) : Aborting t := by
  refine ⟨⟨by rw [hl]; exact h.entries, ?_⟩, ?_, ?_, ?_, by rw [hl]; exact hrole, hs⟩
  · rw [hl, hobject]
    exact h.current
  · rw [ho, hf]
    exact h.bound
  · rw [hl, hf]
    exact h.curBound
  · rw [hl, ho]
    exact h.flag

theorem same {t : Obex} (h : Aborting s) (hl : t.log = s.log) (ho : t.objects = s.objects)
    (hf : t.fresh = s.fresh) (hobject : t.object = s.object) (hm : t.mode = s.mode)
    (hst : t.state = s.state) : Aborting t :=
  h.handle hl ho hf hobject (by rw [hm, hst]; exact h.role) (by rw [hm, hst]; exact h.notSending)

theorem setState (h : Aborting s) {m : Mode} {st : State}
    (hrole : abortedRequest s.log ≠ none → m = .cli ∧ st = .recv ∨ m = .srv ∧ st = .idle)
    (hs : m = .cli → st ≠ .send) : Aborting (s.setState m st) :=
  h.handle rfl rfl rfl rfl hrole hs

theorem setObject (h : Aborting s) {q : Ptr} {o o' : ObexObject} (ho : s.objects q = some o)
    (ha : o.abort = true → o'.abort = true) : Aborting (s.setObject q (some o')) := by
  refine ⟨⟨h.entries, h.current⟩, fun p x hx => ?_, h.curBound, fun p x hp hx => ?_, h.role,
    h.notSending⟩
  · rcases objects_setObject_some hx with ⟨rfl, -⟩ | ⟨-, hx⟩
    · exact h.bound p o ho
    · exact h.bound p x hx
  · rcases objects_setObject_some hx with ⟨rfl, he⟩ | ⟨-, hx⟩
    · cases he
      exact ha (h.flag p o hp ho)
    · exact h.flag p x hp hx

theorem delete (h : Aborting s) (q : Ptr) : Aborting (s.setObject q none) := by
  have hat {p : Ptr} {x : ObexObject} (hx : (s.setObject q none).objects p = some x) :
      s.objects p = some x := by
    rcases objects_setObject_some hx with ⟨-, he⟩ | ⟨-, hx⟩
    · cases he
    · exact hx
  exact ⟨⟨h.entries, h.current⟩, fun p x hx => h.bound p x (hat hx), h.curBound,
    fun p x hp hx => h.flag p x hp (hat hx), h.role, h.notSending⟩

theorem fresh (h : Aborting s) : Aborting { s with fresh := s.fresh + 1 } :=
  ⟨⟨h.entries, h.current⟩, fun p o ho => Nat.lt_succ_of_lt (h.bound p o ho),
    fun p hp => Nat.lt_succ_of_lt (h.curBound p hp), h.flag, h.role, h.notSending⟩

theorem new (h : Aborting s) (o : ObexObject) :
    Aborting (({ s with fresh := s.fresh + 1 } : Obex).setObject s.fresh (some o)) := by
  have h' := h.fresh
  refine ⟨⟨h.entries, h.current⟩, fun p x hx => ?_, h'.curBound, fun p x hp hx => ?_, h.role,
    h.notSending⟩
  · rcases objects_setObject_some hx with ⟨rfl, -⟩ | ⟨-, hx⟩
    · exact Nat.lt_succ_self _
    · exact h'.bound p x hx
  · rcases objects_setObject_some hx with ⟨rfl, -⟩ | ⟨-, hx⟩
    · exact absurd (h.curBound _ (Watch.cur_of_aborted hp)) (Nat.lt_irrefl _)
    · exact h.flag p x hp hx

/-- Something that neither begins nor ends a request or an ABORT. -/
theorem emit (h : Aborting s) {x : Obs} (hx : watchStep (watch s.log) x = (watch s.log).settled)
    (he : AbortEntry s.log x) : Aborting (s.emit x) ∧ Calm (s.emit x).log := by
  have hw : watch (s.emit x).log = (watch s.log).settled := by rw [Obex.emit, watch_append, hx]
  have ha : abortedRequest (s.emit x).log = abortedRequest s.log := by
    rw [abortedRequest, hw, Watch.settled_aborted, abortedRequest]
  refine ⟨⟨⟨h.entries.append he, ?_⟩, h.bound, ?_, ?_, ?_, h.notSending⟩, ?_⟩
  · rw [hw, Watch.settled_cur]
    exact h.current
  · rw [hw, Watch.settled_cur]
    exact h.curBound
  · rw [ha]
    exact h.flag
  · rw [ha]
    exact h.role
  · rw [Calm, hw, Watch.settled_settled]

theorem packet_step (h : Aborting s) {p : Ptr} (hp : s.object = some p) (kind : PacketKind)
    (d : Bytes) :
    watchStep (watch s.log) (.write (some p) kind d) = (watch s.log).settled := by
  refine if_neg ?_
  rintro ⟨-, hne, hno, -⟩
  cases hc : (watch s.log).cur with
  | none => exact hne hc
  | some q =>
    have hq := h.current q hc
    rw [hp] at hq
    cases hq
    exact hno hc

/-- An event; the object is dropped by a last event only. -/
theorem event (h : Aborting s) {e : Event} (cmd rsp : UInt8) {del : Bool}
    (he : e = .streamavail ∨ e = .reqdone → Going s.log) (hdel : del = true → e.final = true) :
    Aborting ((if del then { s with object := none } else s).emit (.event (noticeOf s e cmd rsp))) := by
  have hentry : AbortEntry s.log (.event (noticeOf s e cmd rsp)) := by
    intro p hp hn
    have hno (hev : e = .streamavail ∨ e = .reqdone) : False := by
      rw [he hev] at hp
      cases hp
    exact ⟨fun h => hno (.inl h), fun h => hno (.inr h)⟩
  by_cases hc : e.final = true ∧ s.object = (watch s.log).cur
  · -- the request ends
    have hw : watch (s.log ++ [.event (noticeOf s e cmd rsp)]) = ⟨none, .quiet⟩ := by
      rw [watch_append]
      exact if_pos hc
    cases del <;>
    exact ⟨⟨h.entries.append hentry, by simp [Obex.emit, hw]⟩, h.bound, by simp [Obex.emit, hw],
      by simp [Obex.emit, abortedRequest, hw, Watch.aborted],
      by simp [Obex.emit, abortedRequest, hw, Watch.aborted], h.notSending⟩
  · have hstep : watchStep (watch s.log) (.event (noticeOf s e cmd rsp)) = (watch s.log).settled :=
      if_neg hc
    cases del with
    | false => exact (h.emit hstep hentry).1
    | true =>
      -- no request is current
      have hnone : (watch s.log).cur = none := by
        cases hcur : (watch s.log).cur with
        | none => rfl
        | some p => exact absurd ⟨hdel rfl, by rw [hcur]; exact h.current p hcur⟩ hc
      have h' : Aborting { s with object := none } := by
        refine ⟨⟨h.entries, fun p hp => ?_⟩, h.bound, h.curBound, h.flag, h.role, h.notSending⟩
        rw [hnone] at hp
        cases hp
      exact (h'.emit hstep hentry).1

/-- `OBEX_Request` -/
theorem requested (h : Aborting s) {p : Ptr} {o : ObexObject} (ho : s.objects p = some o) :
    Aborting (({ s with object := some p, mode := .cli, state := .start } : Obex).emit
      (.request p)) := by
  have hw : watch (s.log ++ [.request p]) = ⟨some p, .quiet⟩ := watch_append _ _
  have hentry : AbortEntry s.log (.request p) := fun _ _ => trivial
  refine ⟨⟨h.entries.append hentry, ?_⟩, h.bound, ?_, ?_, ?_, by simp [Obex.emit]⟩
  · simp [Obex.emit, hw]
  · simp only [Obex.emit, hw, Option.some.injEq]
    rintro _ rfl
    exact h.bound p o ho
  · simp [Obex.emit, abortedRequest, hw, Watch.aborted]
  · simp [Obex.emit, abortedRequest, hw, Watch.aborted]

theorem incoming (h : Aborting s) (hn : s.object = none) (cmd : UInt8) : Aborting (s.incoming cmd) := by
  have hnone : (watch s.log).cur = none := by
    cases hc : (watch s.log).cur with
    | none => rfl
    | some p =>
      have hp := h.current p hc
      rw [hn] at hp
      cases hp
  have h' := h.new { obexObjectSetrsp zeroObject obexRspNotImplemented obexRspNotImplemented with cmd }
  refine ⟨⟨h.entries, fun p hp => ?_⟩, h'.bound, h'.curBound, h'.flag, h'.role, h'.notSending⟩
  have hp : (watch s.log).cur = some p := hp
  rw [hnone] at hp
  cases hp

end Aborting

/-- A chunk of a packet, where no ABORT is being written. -/
theorem io_step {log : List Obs} (hc : Calm log) (d : Bytes) (r : Int) :
    watchStep (watch log) (.io d r) = (watch log).settled := by
  unfold Calm at hc
  rw [hc]
  cases hp : (watch log).phase with
  | quiet => rw [watchStep, hp]
  | aborted => rw [watchStep, hp]
  | begun | sent =>
    have := congrArg Watch.phase hc
    rw [Watch.settled, hp] at this
    cases this

theorem going_emit {log : List Obs} {x : Obs} (hx : watchStep (watch log) x = (watch log).settled)
    (hg : Going log) : Going (log ++ [x]) := by
  rw [Going, abortedRequest, watch_append, hx, Watch.settled_aborted]
  exact hg

theorem Aborting.going {s : Obex} {p : Ptr} {o : ObexObject} (h : Aborting s) (hp : s.object = some p)
    (ho : s.objects p = some o) (ha : o.abort = false) : Going s.log := by
  rw [Going]
  cases hq : abortedRequest s.log with
  | none => rfl
  | some q =>
    have hc := h.current q (Watch.cur_of_aborted hq)
    rw [hp] at hc
    cases hc
    have hf := h.flag p o hq ho
    rw [ha] at hf
    cases hf

/-- While a packet is handled; with `srv`, by the server. -/
def Handling (srv : Bool) (s : Obex) : Prop := Aborting s ∧ (srv = true → Going s.log ∧ s.mode = .srv)

theorem handling_client : Handling false = Aborting := by
  funext s
  simp [Handling]

theorem Handling.emit {srv : Bool} {s : Obex} (h : Handling srv s) {x : Obs}
    (hx : watchStep (watch s.log) x = (watch s.log).settled) (he : AbortEntry s.log x) :
    Handling srv (s.emit x) ∧ Calm (s.emit x).log := by
  obtain ⟨ha, hc⟩ := h.1.emit hx he
  exact ⟨⟨ha, fun hk => ⟨going_emit hx (h.2 hk).1, (h.2 hk).2⟩⟩, hc⟩

theorem Handling.same {srv : Bool} {s t : Obex} (h : Handling srv s) (hl : t.log = s.log)
    (ho : t.objects = s.objects) (hf : t.fresh = s.fresh) (hobject : t.object = s.object)
    (hm : t.mode = s.mode) (hst : t.state = s.state) : Handling srv t := by
  refine ⟨h.1.same hl ho hf hobject hm hst, ?_⟩
  rw [hl, hm]
  exact h.2

/-- While the object at `p` is sent. -/
def Sending (srv : Bool) (p : Ptr) (r : Buf) (s : Obex) : Prop :=
  Handling srv s ∧ Going s.log ∧ Stays p r false s

section
variable {n : Notice} {s : Obex} (h : abortAfter n s = true)
include h

theorem abortAfter_going (hn : n.event = .streamempty ∨ n.event = .streamavail ∧ endOfBody n s = true) :
    Going s.log := by
  simp only [abortAfter, Bool.and_eq_true, Bool.or_eq_true, Option.isNone_iff_eq_none] at h
  rcases h.1 with hg | hno
  · exact hg
  · rcases hn with hn | ⟨hn, hend⟩ <;> simp_all

theorem abortAfter_srv (hm : n.mode = .srv) (hf : n.event.final = false) :
    Going s.log ∧ s.mode = .srv := by
  simp only [abortAfter, Bool.and_eq_true, Bool.or_eq_true, Option.isNone_iff_eq_none,
    decide_eq_true_eq] at h
  rcases h.2 with (h | h) | h
  · exact h
  · simp [hm] at h
  · rw [hf] at h
    cases h

end

section
variable {E : Env} {n : Nat}

theorem abort_write (srv : Bool) (chunk : Bytes) :
    Still (fun s => Handling srv s ∧ Calm s.log) ((E.ctx abortGuard n).write chunk) :=
  still_write (fun _ _ _ h => h.1.emit (io_step h.2 _ _) fun _ _ => trivial) chunk

section
variable (hcalls : CallsKeep E abortGuard Aborting n)
include hcalls

theorem abort_event {srv : Bool} {e : Event} {cmd rsp : UInt8} {s : Obex} (hs : Handling srv s)
    (hf : e.final = false) (he : e = .streamavail → Going s.log) :
    wp (obexDeliverEvent (E.ctx abortGuard n) e cmd rsp false)
      (fun _ s' => Handling srv s' ∧ abortAfter (noticeOf s e cmd rsp) s' = true) (fun _ => Aborting)
      s := by
  have hgo : e = .streamavail ∨ e = .reqdone → Going s.log := by
    rintro (h | rfl)
    · exact he h
    · cases hf
  have hno : false = true → e.final = true := by simp
  have hemit : Aborting (s.emit (.event (noticeOf s e cmd rsp))) := hs.1.event cmd rsp hgo hno
  refine wp_conseq (hcalls.deliver hemit) fun _ s' h => ?_
  exact ⟨⟨h.1, fun hk => abortAfter_srv h.2 (hs.2 hk).2 hf⟩, h.2⟩

theorem abort_last {e : Event} {cmd rsp : UInt8} {s : Obex} (hs : Aborting s) (hf : e.final = true)
    (he : e = .reqdone → Going s.log) :
    wp (obexDeliverEvent (E.ctx abortGuard n) e cmd rsp true) (fun _ => Aborting) (fun _ => Aborting)
      s := by
  have hgo : e = .streamavail ∨ e = .reqdone → Going s.log := by
    rintro (rfl | h)
    · cases hf
    · exact he h
  have hdel : true = true → e.final = true := fun _ => hf
  have hemit : Aborting (({ s with object := none } : Obex).emit (.event (noticeOf s e cmd rsp))) :=
    hs.event cmd rsp hgo hdel
  exact hcalls.deliverLast (fun _ q h => h.delete q) hemit

/-- The send of the current object. -/
theorem abort_sendLaw (srv : Bool) (p : Ptr) (r : Buf) :
    SendLaw (E.ctx abortGuard n) p (Sending srv p r)
      (fun s => Sending srv p r s ∧ Calm s.log) Aborting where
  stop _ h := h.1.1
  object s q o o' h ho hl := by
    obtain ⟨⟨h, hsrv⟩, hg, hstays⟩ := h
    exact ⟨⟨h.setObject ho fun ha => by rw [hl.abort, ha], hsrv⟩, hg,
      hstays.setObject ho fun ha => by rw [← hl.abort, ha]⟩
  txMsg s b _ h := by
    obtain ⟨h, hg, hstays⟩ := h
    exact ⟨h.same rfl rfl rfl rfl rfl rfl, hg, hstays.of_eq rfl rfl rfl rfl rfl⟩
  event s h := by
    obtain ⟨h, hg, hstays⟩ := h
    refine wp_mono (wp_and (abort_event hcalls h rfl (by simp)) (stays_deliver hstays))
      (fun _ s' h => ?_)
      fun _ _ h => h.1
    obtain ⟨⟨h, ha⟩, hstays⟩ := h
    exact ⟨h, abortAfter_going ha (.inl rfl), hstays⟩
  packet s o a f d h ho _ := by
    obtain ⟨h, hg, hstays⟩ := h
    have hstep := h.1.packet_step (hstays.object o ho) (chooseOpcode o a f).1 d
    obtain ⟨h', hc⟩ := h.emit hstep fun q hq => by simp [Going] at hg; simp [hg] at hq
    exact ⟨⟨h', going_emit hstep hg, hstays.of_eq rfl rfl rfl rfl rfl⟩, hc⟩
  writeTx s b _ h := by
    obtain ⟨⟨h, hg, hstays⟩, hc⟩ := h
    exact ⟨⟨h.same rfl rfl rfl rfl rfl rfl, hg, hstays.of_eq rfl rfl rfl rfl rfl⟩, hc⟩
  write chunk := by
    refine still_write (fun s d x h => ?_) chunk
    obtain ⟨⟨h, hg, hstays⟩, hc⟩ := h
    obtain ⟨h', hc'⟩ := h.emit (io_step hc d x) fun _ _ => trivial
    exact ⟨⟨h', going_emit (io_step hc d x) hg, hstays.of_eq rfl rfl rfl rfl rfl⟩, hc'⟩
  written _ h := h.1

/-- A stream fragment: the event of an aborted request is left out, and so is the second event of a last
body header whose first one the callback has answered with an ABORT. -/
theorem abort_stream (srv : Bool) (hi : UInt8) (len : Nat) (s : Obex) (hs : Handling srv s)
    (hhi : s.rxMsg.reach[0]? = some hi) :
    wp (obexObjectReceiveStream (E.ctx abortGuard n) hi len) (fun _ => Handling srv) (fun _ => Aborting)
      s := by
  rw [obexObjectReceiveStream, wp_bind, wp_selfObject]
  refine ⟨fun p hp => ?_, fun _ => hs.1⟩
  refine wp_ite.2 ⟨fun _ => hs, fun _ => ?_⟩
  rw [wp_bind, wp_get, wp_bind, wp_update]
  refine ⟨fun o ho => ?_, fun _ => hs.1⟩
  generalize some (slice s.rxMsg.buffer (s.rxMsg.data + 3) len) = source
  generalize ht : s.setObject p (some { o with sBuf := source, sLen := len }) = t
  have hbound : p < t.fresh := by
    rw [← ht]
    exact hs.1.bound p o ho
  have hobject : t.object = some p := by rw [← ht]; exact hp
  have hrx : t.rxMsg = s.rxMsg := by rw [← ht]; rfl
  have hto : t.objects p = some { o with sBuf := source, sLen := len } := by
    rw [← ht]
    exact objects_setObject _ _ _
  have hs' : Handling srv t := by
    rw [← ht]
    exact ⟨hs.1.setObject ho id, hs.2⟩
  rw [wp_bind, wp_deref]
  refine ⟨fun o' ho' => ?_, fun _ => hs'.1⟩
  cases hto.symm.trans ho'
  refine wp_ite.2 ⟨fun _ => hs', fun hab => ?_⟩
  have hg : Going t.log := hs'.1.going hobject hto (by simpa using hab)
  have hstays : Stays p t.rxMsg false t := Stays.init hbound hobject hto fun h => absurd h (by simp)
  refine wp_seq (wp_mono (wp_and (abort_event hcalls hs' rfl fun _ => hg) (stays_deliver hstays))
    (fun _ _ h => h) fun _ _ h => h.1) ?_
  rintro _ s₁ ⟨⟨hs₁, hafter⟩, hstays⟩
  rw [wp_when]
  refine ⟨fun hend => ?_, fun _ => hs₁⟩
  rw [wp_bind, wp_update]
  refine ⟨fun o₁ ho₁ => ?_, fun _ => hs₁.1⟩
  -- the object is still there: this is the second event
  have hdata : (noticeOf t .streamavail 0 0).data = some (source, len) := by
    simp [noticeOf, streamFragment, hobject, hto]
  have hsecond : endOfBody (noticeOf t .streamavail 0 0) s₁ = true := by
    rw [endOfBody, hdata, hstays.rxMsg o₁ ho₁, hrx, hhi, hend.1]
    simp [hend.2]
  have hg : Going s₁.log := abortAfter_going hafter (.inr ⟨rfl, hsecond⟩)
  have hs₂ : Handling srv (s₁.setObject p (some { o₁ with sBuf := source, sLen := 0 })) :=
    ⟨hs₁.1.setObject ho₁ id, hs₁.2⟩
  exact wp_conseq (abort_event hcalls hs₂ rfl fun _ => hg) fun _ _ h => h.1

theorem abort_law (srv : Bool) : Law (E.ctx abortGuard n) Going (Handling srv) Aborting where
  stop _ h := h.1
  object _ _ _ _ h ho hl := ⟨h.1.setObject ho fun ha => by rw [hl.abort, ha], h.2⟩
  delete _ q h := ⟨h.1.delete q, h.2⟩
  new _ o h _ := ⟨h.1.new o, h.2⟩
  fresh _ h := ⟨h.1.fresh, h.2⟩
  txMsg _ _ _ h := h.same rfl rfl rfl rfl rfl rfl
  rxMsg _ _ h := h.same rfl rfl rfl rfl rfl rfl
  idle s h := ⟨h.1.setState (fun _ => .inr ⟨rfl, rfl⟩) (by simp),
    fun hk => ⟨(h.2 hk).1, rfl⟩⟩
  go _ _ _ h hp ho ha := h.1.going hp ho ha
  send s p o h hg hp ho :=
    ⟨Sending srv p s.rxMsg, _, ⟨h, hg, Stays.init (h.1.bound p o ho) hp ho fun h => absurd h (by simp)⟩,
      abort_sendLaw hcalls srv p s.rxMsg, fun _ h => ⟨h.1, h.2.1⟩⟩
  stream := abort_stream hcalls srv
  event e cmd rsp s he h := by
    have hf : e.final = false := by cases e <;> first | rfl | cases he
    have hne : e ≠ .streamavail := by rintro rfl; cases he
    exact wp_conseq (abort_event hcalls h hf fun h => absurd h hne) fun _ _ h => h.1
  final e cmd rsp s he hg h := abort_last hcalls h.1 he fun h => (hg h).2

theorem abort_clientLaw : ClientLaw (E.ctx abortGuard n) (fun _ => Aborting) (fun _ => Aborting) Going
    Aborting where
  toLaw := handling_client ▸ abort_law hcalls false
  cli s st hst h := by
    rcases hst with rfl | ⟨rfl, hg⟩
    · exact h.setState (fun _ => .inl ⟨rfl, rfl⟩) (by simp)
    · exact h.setState (fun hne => absurd hg hne) (by simp)
  first s p o h hm hst hp ho := by
    by_contra hne
    rcases h.role hne with ⟨-, hr⟩ | ⟨hm', -⟩
    · simp [hst] at hr
    · simp [hm] at hm'
  start _ _ h := h
  opened _ _ _ _ h _ _ _ := h
  connect _ _ _ _ h _ _ _ _ := h.same rfl rfl rfl rfl rfl rfl
  answer _ _ h := h
  offset _ _ _ _ _ h ho := h.setObject ho id
  disconnect _ _ h := h.same rfl rfl rfl rfl rfl rfl
  receive _ := by
    have hlaw := abort_law hcalls (n := n) false
    rw [handling_client] at hlaw
    exact hlaw.rxStream.receive
  done rsp s h _ := by
    have hlaw := abort_law hcalls (n := n) false
    rw [handling_client] at hlaw
    exact hlaw.clientDone (fun cmd s h hg => abort_last hcalls h rfl fun _ => hg) s h
  unexpected _ s h hm hst := absurd hst (h.notSending hm)

theorem abort_serverLaw : ServerLaw (E.ctx abortGuard n) (Handling true) (fun _ => Handling true) Going
    (Handling true) (fun s => Handling true s ∧ Calm s.log) Aborting where
  toLaw := abort_law hcalls true
  ready _ h := (h.2 rfl).1
  writeTx _ _ _ h := ⟨h.1.same rfl rfl rfl rfl rfl rfl, h.2⟩
  write := abort_write true
  written _ h := h.1
  srv s st h :=
    ⟨h.1.setState (fun hne => absurd (h.2 rfl).1 hne) (by simp), fun _ => ⟨(h.2 rfl).1, rfl⟩⟩
  response s d h := h.emit rfl fun _ _ => by simp [Quietly]
  denied s h := (h.emit rfl (by simp [AbortEntry, Quietly])).1
  disconnect _ h := h.same rfl rfl rfl rfl rfl rfl
  start _ h := h
  hint s op h hn _ _ := by
    have hs : Handling true (s.incoming (withoutFinal op)) := ⟨h.1.incoming hn _, h.2⟩
    exact wp_conseq (abort_event hcalls hs rfl (by simp)) fun _ _ h => h.1
  hinted _ _ h := h
  connect _ h := h.same rfl rfl rfl rfl rfl rfl

omit hcalls in
/-- A packet that comes when a client's aborted request waits in server mode is refused. -/
theorem abort_busy (final : Bool) {s : Obex} (hs : Aborting s) (hm : s.mode = .srv)
    (hg : ¬ Going s.log) :
    wp (obexServer (E.ctx abortGuard n) final) (fun _ => Aborting) (fun _ => Aborting) s := by
  have hst : s.state = .idle := by
    rcases hs.role hg with ⟨h, -⟩ | ⟨-, h⟩
    · rw [hm] at h
      cases h
    · exact h
  have hobject : s.object.isSome = true := by
    cases hw : abortedRequest s.log with
    | none => exact absurd hw hg
    | some p => rw [hs.current p (Watch.cur_of_aborted hw)]; rfl
  have hresponse : Holds Aborting Aborting (obexResponseRequest (E.ctx abortGuard n)
      obexRspInternalServerError) := by
    have htx (s : Obex) (b : Buf) (_ : s.txMsg.buffer.length ≤ b.buffer.length) (h : Handling false s) :
        Handling false (s.setTxMsg b) := h.same rfl rfl rfl rfl rfl rfl
    have hall : Holds (Handling false) (Handling false) (obexResponseRequest (E.ctx abortGuard n)
        obexRspInternalServerError) :=
      holds_response (fun _ h => h) htx (fun s b hle h => ⟨htx s b hle h.1, h.2⟩) (abort_write false)
        (fun _ h => h.1) fun s d h _ => h.emit rfl (by simp [AbortEntry, Quietly])
    rw [handling_client] at hall
    exact hall
  rw [obexServer, wp_bind, wp_get, wp_bind]
  refine wp_byteAt (fun op _ => ?_) hs
  rw [wp_bind]
  refine wp_byteAt (fun a _ => ?_) hs
  rw [wp_bind]
  refine wp_byteAt (fun b _ => ?_) hs
  rw [hst]
  dsimp only
  rw [serverIdle, wp_bind, wp_get, if_pos hobject]
  exact wp_seq (hresponse s hs) fun _ _ h => h

end

end

/-! ## `OBEX_CancelRequest` -/

/-- The ABORT at `q` for the request at `p` has come so far, and the request is not marked yet. -/
structure Unmarked (p q : Ptr) (phase : Phase) (s : Obex) : Prop where
  entries : Steps AbortEntry s.log
  watch : watch s.log = ⟨some p, phase⟩
  object : s.object = some p
  alive : ∃ o, s.objects p = some o
  packet : ∃ o, s.objects q = some o
  bound : ∀ x o, s.objects x = some o → x < s.fresh
  notSending : s.mode = .cli → s.state ≠ .send

namespace Unmarked

variable {p q : Ptr} {phase : Phase} {s : Obex}

theorem current (h : Unmarked p q phase s) (x : Ptr) (hx : (OpenObex.watch s.log).cur = some x) :
    s.object = some x := by
  rw [h.watch] at hx
  exact h.object.trans hx

theorem curBound (h : Unmarked p q phase s) (x : Ptr) (hx : (OpenObex.watch s.log).cur = some x) :
    x < s.fresh := by
  rw [h.watch] at hx
  cases hx
  obtain ⟨o, ho⟩ := h.alive
  exact h.bound p o ho

theorem aborting (h : Unmarked p q phase s) (hphase : phase = .quiet ∨ phase = .begun) :
    Aborting s := by
  have hnone : abortedRequest s.log = none := by
    rw [abortedRequest, h.watch]
    rcases hphase with rfl | rfl <;> rfl
  refine ⟨⟨h.entries, h.current⟩, h.bound, h.curBound, ?_, ?_, h.notSending⟩
  · rw [hnone]
    simp
  · rw [hnone]
    simp

theorem io (h : Unmarked p q phase s) (hphase : phase = .begun ∨ phase = .sent) (d : Bytes) (r : Int) :
    Unmarked p q (if 0 ≤ r then .sent else .quiet) (s.emit (.io d r)) := by
  refine ⟨h.entries.append fun _ _ => trivial, ?_, h.object, h.alive, h.packet, h.bound, h.notSending⟩
  rw [Obex.emit, watch_append, h.watch]
  rcases hphase with rfl | rfl <;> rfl

theorem setTxMsg (h : Unmarked p q phase s) (b : Buf) : Unmarked p q phase (s.setTxMsg b) :=
  ⟨h.entries, h.watch, h.object, h.alive, h.packet, h.bound, h.notSending⟩

/-- The object of the ABORT is deleted and the request marked. -/
theorem mark (h : Unmarked p q .sent s) (hq : p ≠ q) {o : ObexObject} (ho : s.objects p = some o) :
    Aborting (((s.setObject q none).setObject p (some { o with abort := true })).setState .cli
      .recv) := by
  have hsome : abortedRequest s.log = some p := by
    rw [abortedRequest, h.watch]
    rfl
  have hat {x : Ptr} {y : ObexObject} (hx : x ≠ p) (hy : ((s.setObject q none).setObject p
      (some { o with abort := true })).objects x = some y) : s.objects x = some y := by
    rcases objects_setObject_some hy with ⟨rfl, -⟩ | ⟨-, hy⟩
    · exact absurd rfl hx
    · rcases objects_setObject_some hy with ⟨-, he⟩ | ⟨-, hy⟩
      · cases he
      · exact hy
  refine ⟨⟨h.entries, h.current⟩, fun x y hy => ?_, h.curBound, fun x y hx hy => ?_,
    fun _ => .inl ⟨rfl, rfl⟩, by simp [Obex.setState]⟩
  · by_cases hx : x = p
    · subst hx
      exact h.bound x o ho
    · exact h.bound x y (hat hx hy)
  · cases hsome.symm.trans hx
    cases (objects_setObject _ _ _).symm.trans hy
    rfl

end Unmarked

/-- How the ABORT was written. -/
def Written (p q : Ptr) (r : Int) (s : Obex) : Prop :=
  if r < 0 then Aborting s else Unmarked p q .sent s

theorem Unmarked.written {p q : Ptr} {s : Obex} (h : Unmarked p q .begun s) (d : Bytes) (r : Int) :
    Written p q r (s.emit (.io d r)) := by
  have h' := h.io (.inl rfl) d r
  rw [Written]
  split
  · rw [if_neg (by omega)] at h'
    exact h'.aborting (.inl rfl)
  · rwa [if_pos (by omega)] at h'

section
variable {E : Env} {n : Nat} {p q : Ptr}

theorem abort_io {s : Obex} {chunk : Bytes} {Q : Int → Obex → Prop} {R : Stop → Obex → Prop}
    (h : ∀ r, Q r (s.emit (.io chunk r))) : wp ((E.ctx abortGuard n).write chunk) Q R s := by
  rw [ctx_write, Env.transportWrite, wp_bind, wp_get, wp_bind, wp_emit, wp_bind, wp_allowed]
  exact ⟨fun _ => h _, fun hno => by cases hno⟩

theorem written_loop (mtu fuel : Nat) {phase : Phase} {actual : Int} {s : Obex}
    (h : Unmarked p q phase s) (hfuel : s.txMsg.dataSize < fuel)
    (hphase : phase = .begun ∧ actual < 0 ∨ phase = .sent ∧ 0 ≤ actual) :
    wp (doWriteLoop (E.ctx abortGuard n) mtu fuel actual) (Written p q) (fun _ => Aborting) s := by
  induction fuel generalizing phase actual s with
  | zero => omega
  | succ fuel ih =>
    rw [doWriteLoop, wp_bind, wp_get]
    refine wp_ite.2 ⟨fun _ => ?_, fun _ => ?_⟩
    · rw [wp_pure, Written]
      rcases hphase with ⟨rfl, ha⟩ | ⟨rfl, ha⟩
      · rw [if_pos ha]
        exact h.aborting (.inr rfl)
      · rwa [if_neg (by omega)]
    rw [wp_bind]
    generalize s.txMsg.contents.take _ = chunk
    refine abort_io fun r => ?_
    have h' := h.io (by tauto) chunk r
    refine wp_ite.2 ⟨fun hr => ?_, fun hr => ?_⟩
    · rw [wp_pure, Written]
      split
      · rw [if_neg (by omega)] at h'
        exact h'.aborting (.inl rfl)
      · rwa [if_pos (by omega)] at h'
    · rw [wp_bind, wp_modify]
      rw [if_pos (by omega)] at h'
      refine ih (h'.setTxMsg _) ?_ (.inr ⟨rfl, by omega⟩)
      change (bufRemoveBegin s.txMsg r.toNat).dataSize < fuel
      rw [bufRemoveBegin_dataSize]
      omega

theorem written_transport {s : Obex} (h : Unmarked p q .begun s) :
    wp (obexTransportWrite (E.ctx abortGuard n)) (Written p q) (fun _ => Aborting) s := by
  have hloop (mtu : Nat) : wp (doWrite (E.ctx abortGuard n) mtu) (Written p q)
    (fun _ => Aborting) s := by
    rw [doWrite, wp_bind, wp_get]
    exact written_loop mtu _ h (Nat.lt_succ_self _) (.inl ⟨rfl, by omega⟩)
  rw [obexTransportWrite, wp_bind, wp_get]
  cases s.trans.type with
  | usb =>
    refine wp_ite.2 ⟨fun _ => abort_io (h.written _), fun _ => ?_⟩
    exact h.aborting (.inr rfl)
  | custom => exact abort_io (h.written _)
  | irda => exact hloop _
  | inet => exact hloop _
  | bluetooth => exact hloop _
  | fd => exact hloop _

/-- A packet of an object that is not the current one: the ABORT, or nothing of the request. -/
theorem abort_packet {s : Obex} (hs : Aborting s) (hp : s.object = some p)
    (halive : ∃ o, s.objects p = some o) (hpacket : ∃ o, s.objects q = some o)
    (hq : ∀ x, (watch s.log).cur = some x → x < q)
    (kind : PacketKind) (d : Bytes) :
    wp (obexTransportWrite (E.ctx abortGuard n))
      (fun r s' => Aborting s' ∨ 0 ≤ r ∧ Unmarked p q .sent s')
      (fun _ => Aborting) (s.emit (.write (some q) kind d)) := by
  have hentry : AbortEntry s.log (.write (some q) kind d) := by
    intro x hx hxq
    cases hxq
    exact absurd (hq _ (Watch.cur_of_aborted hx)) (Nat.lt_irrefl _)
  by_cases hc : (watch s.log).aborted = none ∧ (watch s.log).cur ≠ none ∧ (watch s.log).cur ≠ some q ∧
      d = abortPacket
  · have hcur : (watch s.log).cur = some p := by
      cases hcur : (watch s.log).cur with
      | none => exact absurd hcur hc.2.1
      | some x => rw [← hp, hs.current x hcur]
    have hwatch : watch (s.emit (.write (some q) kind d)).log = ⟨some p, .begun⟩ := by
      rw [Obex.emit, watch_append, watchStep, if_pos hc, hcur]
    have hunmarked : Unmarked p q .begun (s.emit (.write (some q) kind d)) :=
      ⟨hs.entries.append hentry, hwatch, hp, halive, hpacket, hs.bound, hs.notSending⟩
    refine wp_conseq (written_transport hunmarked) fun r s' h => ?_
    rw [Written] at h
    split at h
    · exact .inl h
    · exact .inr ⟨by omega, h⟩
  · have hs : Handling false s := ⟨hs, by simp⟩
    have htx (s : Obex) (b : Buf) (_ : s.txMsg.buffer.length ≤ b.buffer.length)
        (h : Handling false s ∧ Calm s.log) : Handling false (s.setTxMsg b) ∧ Calm s.log :=
      ⟨h.1.same rfl rfl rfl rfl rfl rfl, h.2⟩
    have hstep : watchStep (watch s.log) (.write (some q) kind d) = (watch s.log).settled := if_neg hc
    have hstill := still_transportWrite htx (abort_write (E := E) (n := n) false) _
      (hs.emit hstep hentry)
    exact wp_mono hstill (fun _ _ h => .inl h.1.1) fun _ _ h => h.1.1

/-- `OBEX_CancelRequest` with an ABORT. -/
theorem abort_cancel {s : Obex} (hs : Aborting s) (hg : abortCall (.cancelRequest true) s = true) :
    wp (obexCancelrequest (E.ctx abortGuard n) true) (fun _ => Aborting) (fun _ => Aborting) s := by
  rw [obexCancelrequest, wp_bind, wp_get]
  refine wp_ite.2 ⟨fun _ => hs, fun hobject => ?_⟩
  obtain ⟨p, hp⟩ : ∃ p, s.object = some p := Option.ne_none_iff_exists'.1 (by simpa using hobject)
  obtain ⟨o₀, ho₀⟩ : ∃ o, s.objects p = some o := by
    rw [abortCall, hp, Obex.current, hp] at hg
    exact Option.isSome_iff_exists.1 hg
  have hne : s.fresh ≠ p := Ne.symm (Nat.ne_of_lt (hs.bound p o₀ ho₀))
  rw [if_neg (by simp), wp_bind]
  refine wp_objectNew hs ?_
  rw [wp_bind, wp_update]
  refine ⟨fun o ho => ?_, fun _ => hs.new _⟩
  rw [objects_setObject, Option.some.injEq] at ho
  subst ho
  rw [setObject_setObject]
  have hnew := hs.new (obexObjectSetcmd (obexObjectSetrsp zeroObject obexRspNotImplemented
    obexRspNotImplemented) obexCmdAbort obexCmdAbort)
  have htx {s : Obex} (h : Aborting s) (b : Buf) : Aborting (s.setTxMsg b) :=
    h.same rfl rfl rfl rfl rfl rfl
  -- the ABORT is sent for an object of its own
  have hsend : wp (obexObjectSend (E.ctx abortGuard n) s.fresh true true)
      (fun r s' => Aborting s' ∨ 0 ≤ r ∧ Unmarked p s.fresh .sent s') (fun _ => Aborting)
      (({ s with fresh := s.fresh + 1 } : Obex).setObject s.fresh
        (some (obexObjectSetcmd (obexObjectSetrsp zeroObject obexRspNotImplemented
          obexRspNotImplemented) obexCmdAbort obexCmdAbort))) := by
    refine wp_send_empty (fun _ _ => htx hnew _) (objects_setObject _ _ _) rfl rfl rfl ?_
    refine wp_packet (fun _ _ => htx hnew _) fun b _ => ?_
    refine wp_conseq (abort_packet (htx (htx hnew _) b) hp ⟨o₀, ?_⟩
      ⟨_, objects_setObject _ _ _⟩ hs.curBound _ _) fun r s' h => ?_
    · exact (objects_setObject_ne _ _ (Ne.symm hne)).trans ho₀
    · exact h.imp_right fun h => ⟨by rw [if_neg (by omega)]; decide, h.2⟩
  refine wp_seq hsend fun ret s₁ hs₁ => ?_
  rcases hs₁ with hs₁ | ⟨hr, hs₁⟩
  · have hdelete : Still Aborting (obexObjectDelete (some s.fresh)) :=
      Keeps.bind (Holds.deref (fun _ h => h) _) fun _ =>
        Keeps.bind (Keeps.modify fun s hs => hs.delete _) fun _ => Keeps.pure _
    refine wp_ite.2 ⟨fun _ => wp_seq (hdelete s₁ hs₁) fun _ _ h => h, fun _ => ?_⟩
    refine wp_seq (hdelete s₁ hs₁) fun _ s₂ hs₂ => ?_
    rw [wp_bind, updateCurrent, wp_bind, wp_selfObject]
    refine ⟨fun p _ => ?_, fun _ => hs₂⟩
    rw [wp_update]
    refine ⟨fun o ho => ?_, fun _ => hs₂⟩
    rw [wp_bind, setState, wp_modify]
    have hs₃ : Aborting (s₂.setObject p (some { o with abort := true })) :=
      hs₂.setObject ho fun _ => rfl
    exact hs₃.setState (fun _ => .inl ⟨rfl, rfl⟩) (by simp)
  · -- it has been written: its object is deleted and the request marked
    obtain ⟨o₁, ho₁⟩ := hs₁.packet
    obtain ⟨o₂, ho₂⟩ := hs₁.alive
    rw [if_neg (by omega), wp_bind, obexObjectDelete, wp_bind, wp_deref]
    refine ⟨fun _ _ => ?_, fun h => by simp [ho₁] at h⟩
    rw [wp_bind, wp_modify, wp_pure, wp_bind, updateCurrent, wp_bind, wp_selfObject]
    refine ⟨fun x hx => ?_, fun h => ?_⟩
    · cases hs₁.object.symm.trans hx
      rw [wp_update, objects_setObject_ne _ _ (Ne.symm hne)]
      refine ⟨fun o ho => ?_, fun h => by simp [ho₂] at h⟩
      rw [wp_bind, setState, wp_modify]
      exact hs₁.mark (Ne.symm hne) ho
    · have h : s₁.object = none := h
      rw [hs₁.object] at h
      cases h

end

/-! ## Runs -/

section
variable {E : Env} {n : Nat}

section
variable (hcalls : CallsKeep E abortGuard Aborting n)
include hcalls

theorem aborting_law : Law (E.ctx abortGuard n) Going Aborting Aborting :=
  handling_client ▸ abort_law hcalls false

/-- `OBEX_ResumeRequest`, where it sends nothing of an aborted object. -/
theorem abort_resume {s : Obex} (hs : Aborting s) (hg : abortCall .resumeRequest s = true) :
    wp (obexResumeRequest (E.ctx abortGuard n)) (fun _ => Aborting) (fun _ => Aborting) s := by
  have F := aborting_law hcalls
  rw [obexResumeRequest, wp_bind, wp_get]
  cases hp : s.object with
  | none => exact hs
  | some p =>
    dsimp only
    rw [obexObjectResume, wp_bind, wp_deref]
    refine ⟨fun o ho => ?_, fun _ => hs⟩
    refine wp_ite.2 ⟨fun _ => hs, fun hsus => ?_⟩
    have hs' : Aborting (s.setObject p (some { o with suspend := false })) := hs.setObject ho id
    rw [wp_bind, wp_update]
    refine ⟨fun o' ho' => ?_, fun _ => hs⟩
    cases ho.symm.trans ho'
    refine wp_ite.2 ⟨fun _ => hs', fun hc => ?_⟩
    have habort : o.abort = false := by
      cases ha : o.abort with
      | false => rfl
      | true =>
        have hcurrent : s.current = some o := by rw [Obex.current, hp]; exact ho
        have hsends : (!o.firstPacketSent || o.continueReceived) = true := by
          cases hf : o.firstPacketSent <;> cases hr : o.continueReceived <;> simp_all
        simp_all [abortCall, resumesAborted]
    have hgo : Going s.log := hs.going hp ho habort
    have hcur : Current p s.rxMsg true (s.setObject p (some { o with suspend := false })) := by
      refine ⟨Stays.init (hs'.bound p _ (objects_setObject _ _ _)) hp (objects_setObject _ _ _)
        fun _ ha => ?_, hp⟩
      rw [habort] at ha
      cases ha
    refine wp_seq (wp_mono (wp_and (F.wp_send hs' (fun _ _ => hgo) hp true false)
      (stays_send (stays_calls n) hcur true false)) (fun _ _ h => h) fun _ _ h => h.1) ?_
    rintro ret s₁ ⟨⟨hs₁, hg₁⟩, hcur₁⟩
    rw [wp_bind, wp_deref]
    refine ⟨fun o₁ _ => ?_, fun _ => hs₁⟩
    refine wp_ite.2 ⟨fun _ => ?_, fun _ => wp_ite.2 ⟨fun _ => ?_, fun _ => ?_⟩⟩
    · exact wp_seq (F.last (by simp) (by simp) _ s₁ hs₁) fun _ _ hs => hs
    · refine wp_seq (wp_mono (wp_and (F.deliver (by simp) _ s₁ hs₁) (stays_deliver hcur₁.toStays))
        (fun _ _ h => h) fun _ _ h => h.1) ?_
      rintro _ s₂ ⟨hs₂, hstays⟩
      rw [wp_bind, wp_update]
      refine ⟨fun o₂ ho₂ => ?_, fun _ => hs₂⟩
      rw [wp_bind, wp_modify]
      have hs₃ : Aborting (s₂.setObject p
          (some { o₂ with firstPacketSent := true, continueReceived := false })) := hs₂.setObject ho₂ id
      refine hs₃.setState (fun hne => .inl ⟨?_, rfl⟩) (by simp)
      -- only a client has aborted the request meanwhile
      obtain ⟨x, hx⟩ := Option.ne_none_iff_exists'.1 hne
      have hobject := hs₂.current x (Watch.cur_of_aborted hx)
      cases (hstays.object o₂ ho₂).symm.trans hobject
      exact hstays.abort rfl o₂ ho₂ (hs₂.flag p o₂ hx ho₂)
    · rw [wp_bind, wp_get]
      refine wp_ite.2 ⟨fun _ => ?_, fun hm => ?_⟩
      · refine wp_seq (F.final _ _ _ s₁ (by simp) (fun _ => ⟨by decide, hg₁⟩) hs₁) fun _ s₂ hs₂ => ?_
        rw [wp_bind, wp_modify]
        exact F.idle s₂ hs₂
      · rw [wp_bind, wp_modify]
        refine hs₁.setState (fun hne => absurd hg₁ hne) (by simp)

/-- A call that the guard lets through. -/
theorem abort_call (c : Call) {s : Obex} (hs : Aborting s) (hg : abortCall c s = true) :
    wp (api (E.ctx abortGuard n) c) (fun _ => Aborting) (fun _ => Aborting) s := by
  have F := aborting_law hcalls
  cases hc : c.passive with
  | true =>
    have hbase : AppBase c Aborting (fun _ => Aborting) := ⟨stops_still _, fun _ h => h.fresh,
      fun _ _ o o' h ho hstep => h.setObject ho fun ha => ?_, fun _ o h _ _ => h.new o,
      fun _ q h => h.delete q⟩
    · refine hbase.passive hc (fun rx tx h => ?_) s hs
      rw [h]
      refine Keeps.get_bind fun s hs => Keeps.ite (fun _ => Keeps.pure _) fun _ =>
        Keeps.ite (fun _ => Keeps.pure _) fun _ => Keeps.ite (fun _ => Keeps.pure _) fun _ => ?_
      exact Keeps.bind (Keeps.set (hs.same rfl rfl rfl rfl rfl rfl)) fun _ => Keeps.pure _
    · have habort : o'.abort = o.abort := congrArg Prod.fst hstep.flags
      rwa [habort]
  | false =>
    cases c with
    | request p =>
      refine F.requestCall (abort_clientLaw hcalls).cli hs fun hn => ?_
      have halive : (s.objects p).isSome = true := by
        rw [abortCall, hn] at hg
        exact hg
      obtain ⟨o, ho⟩ := Option.isSome_iff_exists.1 halive
      refine ⟨hs.requested ho, ?_⟩
      rw [Going, abortedRequest, watch_append]
      rfl
    | cancelRequest nice =>
      cases nice with
      | true => exact abort_cancel hs hg
      | false =>
        refine F.cancelHard (fun s hs => ?_) s hs
        have hno : false = true → Event.linkerr.final = true := by simp
        have hemit : Aborting (s.emit (.event (noticeOf s .linkerr 0 0))) :=
          hs.event 0 0 (by simp) hno
        exact wp_conseq (hcalls.deliver hemit) fun _ _ h => h.1
    | resumeRequest => exact abort_resume hcalls hs hg
    | _ => cases hc

end

theorem abort_calls (n : Nat) : CallsKeep E abortGuard Aborting n :=
  callsKeep (P := fun _ : Unit => Aborting) (fun _ h _ c _ hs hg => abort_call (h ()) c hs hg) n ()

theorem abort_dispatch (final : Bool) : Still Aborting (dispatch (E.ctx abortGuard n) final) := by
  have hrecv {s : Obex} (hs : Aborting s) : Aborting (s.emit (.recv s.rxMsg.contents)) :=
    (hs.emit rfl (by simp [AbortEntry, Quietly])).1
  refine still_dispatch (fun _ _ h => h.same rfl rfl rfl rfl rfl rfl) (fun _ => hrecv)
    (fun s final hs _ hm => ?_) (fun s hs _ _ => ?_) final
  · by_cases hg : Going (s.emit (.recv s.rxMsg.contents)).log
    · exact (abort_serverLaw (abort_calls n)).server final ⟨hrecv hs, fun _ => ⟨hg, hm⟩⟩
    · exact abort_busy final (hrecv hs) hm hg
  · exact (abort_clientLaw (abort_calls n)).client (fun _ _ => hrecv hs) (hrecv hs)

/-- In every run in which no step goes on with an aborted request, an ABORT is final. -/
theorem abort_final (E : Env) (t : TransportType) (n : Nat) (ops : List Op) :
    wp (run (E.ctx abortGuard n) abortGuard ops) (fun _ s => AbortFinal s) (fun _ s => AbortFinal s)
      (obexInit t) := by
  have hinit : Aborting (obexInit t) := by
    refine ⟨⟨Steps.nil, ?_⟩, ?_, ?_, ?_, ?_, ?_⟩
    all_goals simp [obexInit, watch, abortedRequest, after, Watch.aborted]
  have hlink : Still Aborting (obexDeliverEvent (E.ctx abortGuard n) .linkerr 0 0 true) :=
    fun s hs => abort_last (abort_calls n) hs rfl (by simp)
  have hind (buf : Option Bytes) (buflen : Int) :
      Still Aborting (obexDataIndication (E.ctx abortGuard n) buf buflen) :=
    still_indication (fun _ _ h => h.same rfl rfl rfl rfl rfl rfl)
      (fun _ _ h => (h.emit rfl (by simp [AbortEntry, Quietly])).1) hlink abort_dispatch buf buflen
  have hrun := holds_run (fun _ h => h) (fun c s hs hg => abort_call (abort_calls n) c hs hg)
    (fun _ _ h => h.same rfl rfl rfl rfl rfl rfl) hind ops _ hinit
  exact wp_mono hrun (fun _ _ h => h.toAbortFinal) fun _ _ h => h.toAbortFinal

end

/-! ## A request that is resumed -/

/-- A PUT of two headers, suspended after the first: the CONTINUE comes, the request is aborted, and
resumed. -/
def resumedPut : List Op := [.call (.objectNew 0x02),
  .call (.objectAddHeader 0 0xcb { bq4 := 1 } 4 { suspend := true }),
  .call (.objectAddHeader 0 obexHdrLength { bq4 := 0 } 4 {}),
  .call (.request 0), .customDataFeed [0x90, 0x00, 0x03], .call (.cancelRequest true),
  .call .resumeRequest]

/-- The rest of the PUT follows the ABORT. -/
theorem aborted_put_goes_on :
    ¬ ∀ (E : Env) (t : TransportType) (n : Nat) (ops : List Op),
      wp (run (E.ctx .all n) .all ops) (fun _ s => AbortFinal s) (fun _ s => AbortFinal s)
        (obexInit t) := by
  intro h
  have hrun := h quietPeer .custom 9 resumedPut
  have hend : endsWith (run (quietPeer.ctx .all 9) .all resumedPut) (obexInit .custom)
      (fun s => decide (abortedRequest (s.log.take 7) = some 0) && decide (s.log[7]? =
        some (.write (some 0) .last [0x82, 0x00, 0x08, 0xc3, 0x00, 0x00, 0x00, 0x00]))) = true := by
    decide +kernel
  obtain ⟨-, s, hs, hr⟩ := exists_of_endsWith hend hrun
  simp only [Bool.and_eq_true, decide_eq_true_eq] at hs
  obtain ⟨haborted, hwrite⟩ := hs
  exact (hr.entries.getElem? hwrite 0 haborted) rfl

end OpenObex
