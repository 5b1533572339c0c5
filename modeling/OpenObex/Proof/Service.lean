import OpenObex.Lib.Trace
import OpenObex.Proof.Fill
import OpenObex.Proof.Stays

/-!
# The service of a request

A server answers every packet of a request with a final response, and concludes the request when its
last packet has come and `OBEX_EV_REQ` has been delivered, or when the application has denied it
(`Rule.responses`); the events of a request come in order (`Rule.events`). `OBEX_ResumeRequest` knows
nothing of this: it does not look whether the request is complete, sends a response that is not the last
one without the final bit, and takes the response code for the command in the last event. `serviceGuard`
bars a resume that breaks the rule in question; every other run keeps it (`service_runs`).
-/

namespace OpenObex

open Mem Prog Trace

/-! ## The request served -/

/-- The opcode of the packet has the final bit. -/
def hasFinal (d : Bytes) : Bool := d.head?.any fun op => decide (op &&& obexFinal ≠ 0)

/-- The incoming request: its object, until the last event, its command, and what has happened. -/
structure Service where
  object : Option Ptr
  cmd : UInt8
  /-- The last packet had the final bit. -/
  last : Bool
  /-- A packet of the request had it. -/
  final : Bool
  checked : Bool
  req : Bool
  denied : Bool
  deriving DecidableEq

def serviceStep (w : Service) : Obs → Service
  | .recv d => { w with last := hasFinal d, final := w.final || hasFinal d }
  | .denied => { w with denied := true }
  | .event n =>
    if n.event = .reqhint then
      { object := n.object, cmd := n.cmd, last := w.last, final := w.last, checked := false,
        req := false, denied := false }
    else if n.object ≠ w.object then w
    else if n.event.final = true then { w with object := none }
    else { w with
      checked := w.checked || decide (n.event = .reqcheck), req := w.req || decide (n.event = .req) }
  | _ => w

def service (log : List Obs) : Service := after serviceStep
  { object := none, cmd := 0, last := false, final := false, checked := false, req := false
    denied := false } log

@[simp] theorem service_append (log : List Obs) (x : Obs) :
    service (log ++ [x]) = serviceStep (service log) x := after_append _ _ _ _

/-- The request is complete and the application has heard of it, or has denied it. -/
def Service.complete (w : Service) : Bool := w.req && w.final || w.denied

/-- The objects of the events so far. -/
def heard (log : List Obs) : List (Option Ptr) := log.filterMap fun
  | .event n => some n.object
  | _ => none

theorem mem_heard_append {log : List Obs} {x : Obs} {p : Option Ptr} :
    p ∈ heard (log ++ [x]) ↔ p ∈ heard log ∨ ∃ n, x = .event n ∧ p = n.object := by
  simp only [heard, List.filterMap_append, List.mem_append]
  cases x <;> simp

/-- A response is final, and the last one answers a complete request. -/
def ResponseEntry (log : List Obs) : Obs → Prop
  | .write object kind d => hasFinal d = true ∧
      (kind = .last → (service log).object = object ∧ (service log).complete = true)
  | _ => True

/-- A request begins with `OBEX_EV_REQHINT` and a new object; the other events are its own, those that
come once come once, and it is done under its command when the application has heard of it. -/
def EventEntry (log : List Obs) : Obs → Prop
  | .event n =>
    if n.event = .reqhint then
      (service log).object = none ∧ n.object ≠ none ∧ n.object ∉ heard log
    else n.object ≠ none → (service log).object = n.object ∧
      (n.event = .reqcheck → (service log).checked = false) ∧
      (n.event = .req → (service log).req = false) ∧
      (n.event = .reqdone → ((service log).req = true ∨ (service log).denied = true) ∧
        n.cmd = (service log).cmd)
  | _ => True

theorem eventEntry_hint (log : List Obs) {n : Notice} (h : n.event = .reqhint) :
    EventEntry log (.event n) ↔
      (service log).object = none ∧ n.object ≠ none ∧ n.object ∉ heard log := by
  rw [EventEntry, if_pos h]

inductive Rule
  | responses
  | events

def ServiceEntry (r : Rule) (log : List Obs) (x : Obs) : Prop := match r with
  | .responses => ResponseEntry log x
  | .events => EventEntry log x

/-- The rule has been kept, and a request is current until its last event. -/
structure Served (r : Rule) (s : Obex) : Prop where
  entries : Steps (ServiceEntry r) s.log
  current : ∀ p, (service s.log).object = some p → s.object = some p

/-! ## The steps that break a rule -/

/-- `OBEX_ResumeRequest` sends a packet. -/
def ObexObject.resumes (o : ObexObject) : Bool :=
  o.suspend && (!o.firstPacketSent || o.continueReceived)

/-- The packet keeps the rule: the object has no stream, and what is left of its headers goes into the
packet or the code has the final bit; for the events, something is left or the code is the command. -/
def resumeKeeps (r : Rule) (s : Obex) (o : ObexObject) : Bool :=
  o.txHeaderq.all (fun h => !h.stream) &&
    (fill s.mtuTx (o.txHeaderq.length + 1) o.txHeaderq (initialTxLeft s)).all fun x => match r with
      | .responses => x.rest.isEmpty || hasFinal [o.opcode]
      | .events => !x.rest.isEmpty || decide (withoutFinal o.opcode = o.cmd)

/-- An application that only serves; it resumes a response when the request is complete and the rule is
kept. -/
def serviceCall (r : Rule) (c : Call) (s : Obex) : Bool := match c with
  | .request _ => false
  | .cancelRequest true => false
  | .resumeRequest => s.current.all fun o =>
    !o.resumes || ((service s.log).complete && resumeKeeps r s o)
  | _ => true

/-- While the response is sent the packets of the peer have the command of the request. -/
def servicePacket (r : Rule) (s : Obex) : Bool := match r with
  | .responses => true
  | .events => s.state ≠ .send ∨ s.rxMsg.contents.head?.all fun op =>
      withoutFinal op = (service s.log).cmd ∨ withoutFinal op = obexCmdAbort

def serviceGuard (r : Rule) : Guard where
  op op s := match op with
    | .call c => serviceCall r c s
    | _ => true
  nested := serviceCall r
  recv := servicePacket r

/-! ## The invariant -/

/-- What a server's function knows of the request it handles. -/
structure Stage where
  cmd : UInt8
  /-- The packet has the final bit. -/
  final : Bool
  complete : Bool
  /-- The response has not been begun. -/
  receiving : Bool
  /-- The request has ended. -/
  gone : Bool
  /-- `OBEX_EV_REQCHECK` is delivered and not yet marked. -/
  checking : Bool
  /-- `OBEX_EV_REQ` is delivered, and the response not begun. -/
  requesting : Bool

/-- Between two packets. -/
def atRest (cmd : UInt8) : Stage :=
  { cmd, final := false, complete := false, receiving := false, gone := false, checking := false
    requesting := false }

/-- What has happened to the request. -/
structure Knows (i : Stage) (w : Service) : Prop where
  cmd : w.cmd = i.cmd
  final : i.final = true → w.final = true
  complete : i.complete = true → w.complete = true
  req : w.req = true → w.final = true

/-- What the marks on its object say of it. -/
structure Marks (i : Stage) (w : Service) (st : State) (o : ObexObject) : Prop where
  cmd : o.cmd = i.cmd
  first : o.firstPacketSent = true → w.complete = true
  checked : i.checking = false → w.checked = true → o.checked = true
  once : i.requesting = false → w.req = true → st = .send ∨ o.firstPacketSent = true

structure Serve (r : Rule) (i : Stage) (s : Obex) : Prop where
  entries : Steps (ServiceEntry r) s.log
  mode : s.mode = .srv
  object : s.object = (service s.log).object
  bound : ∀ p, s.object = some p → p < s.fresh
  heard : ∀ p, some p ∈ heard s.log → p < s.fresh
  knows : Knows i (service s.log)
  marks : ∀ o, s.current = some o → Marks i (service s.log) s.state o
  receiving : i.receiving = true → s.state ≠ .send
  gone : i.gone = true → s.object = none
  send : s.state = .send → (service s.log).complete = true

/-- The library's marks on an object stay. -/
structure Marked (o o' : ObexObject) : Prop where
  cmd : o'.cmd = o.cmd
  checked : o'.checked = o.checked
  first : o'.firstPacketSent = o.firstPacketSent

theorem CallStep.marked {c : Call} {p : Ptr} {o o' : ObexObject} (h : CallStep c p o o') :
    Marked o o' := by
  have hflags : o'.ownFlags = o.ownFlags := h.flags
  exact ⟨h.cmd, congrArg (fun x => x.2.1) hflags, congrArg (fun x => x.2.2.2) hflags⟩

theorem RxStep.marked {o o' : ObexObject} (h : RxStep o o') : Marked o o' := by
  have herase : o'.eraseRx = o.eraseRx := h
  have hcmd := congrArg ObexObject.cmd herase
  have hchecked := congrArg ObexObject.checked herase
  have hfirst := congrArg ObexObject.firstPacketSent herase
  exact ⟨hcmd, hchecked, hfirst⟩

theorem TxStep.marked {o o' : ObexObject} (h : TxStep o o') : Marked o o' := by
  have hcmd := congrArg ObexObject.cmd h.erase
  have hchecked := congrArg ObexObject.checked h.erase
  have hfirst := congrArg ObexObject.firstPacketSent h.erase
  exact ⟨hcmd, hchecked, hfirst⟩

theorem current_setObject {s : Obex} {q : Ptr} {o o' : ObexObject} (ho : s.objects q = some o)
    {x : ObexObject} (hx : (s.setObject q (some o')).current = some x) :
    s.current = some o ∧ x = o' ∨ s.current = some x := by
  obtain ⟨p, hp, hx⟩ := Option.bind_eq_some_iff.1 hx
  have hp : s.object = some p := hp
  rcases objects_setObject_some hx with ⟨rfl, he⟩ | ⟨-, hx⟩
  · cases he
    exact .inl ⟨Option.bind_eq_some_iff.2 ⟨_, hp, ho⟩, rfl⟩
  · exact .inr (Option.bind_eq_some_iff.2 ⟨_, hp, hx⟩)

theorem current_delete {s : Obex} {q : Ptr} {x : ObexObject}
    (hx : (s.setObject q none).current = some x) : s.current = some x := by
  obtain ⟨p, hp, hx⟩ := Option.bind_eq_some_iff.1 hx
  have hp : s.object = some p := hp
  rcases objects_setObject_some hx with ⟨-, he⟩ | ⟨-, hx⟩
  · cases he
  · exact Option.bind_eq_some_iff.2 ⟨_, hp, hx⟩

theorem current_of_none {s : Obex} (hn : s.object = none) (o : ObexObject) : ¬ s.current = some o := by
  rw [Obex.current, hn]
  exact fun h => by cases h

namespace Serve

variable {r : Rule} {i : Stage} {s : Obex}

/-- The log and the state stay, and so do the marks on the current object. -/
theorem same (h : Serve r i s) {t : Obex} (hl : t.log = s.log) (hm : t.mode = s.mode)
    (hst : t.state = s.state) (hobject : t.object = s.object) (hf : s.fresh ≤ t.fresh)
    (hc : ∀ x, t.current = some x → ∃ o, s.current = some o ∧ Marked o x) : Serve r i t := by
  refine ⟨hl ▸ h.entries, hm.trans h.mode, hobject.trans (hl ▸ h.object), fun p hp => ?_,
    fun p hp => ?_, hl ▸ h.knows, fun x hx => ?_, hst ▸ h.receiving, hobject ▸ h.gone, ?_⟩
  · exact Nat.lt_of_lt_of_le (h.bound p (hobject ▸ hp)) hf
  · exact Nat.lt_of_lt_of_le (h.heard p (hl ▸ hp)) hf
  · obtain ⟨o, ho, hmarked⟩ := hc x hx
    have hmarks := h.marks o ho
    rw [hl, hst]
    exact ⟨hmarked.cmd.trans hmarks.cmd, hmarked.first ▸ hmarks.first, hmarked.checked ▸ hmarks.checked,
      hmarked.first ▸ hmarks.once⟩
  · rw [hl, hst]
    exact h.send

theorem of_eq (h : Serve r i s) {t : Obex} (hl : t.log = s.log) (hm : t.mode = s.mode)
    (hst : t.state = s.state) (hobject : t.object = s.object) (hf : t.fresh = s.fresh)
    (ho : t.objects = s.objects) : Serve r i t := by
  refine h.same hl hm hst hobject (Nat.le_of_eq hf.symm) fun x hx => ⟨x, ?_, rfl, rfl, rfl⟩
  rwa [Obex.current, hobject, ho] at hx

theorem setObject (h : Serve r i s) {q : Ptr} {o o' : ObexObject} (ho : s.objects q = some o)
    (hm : Marked o o') : Serve r i (s.setObject q (some o')) := by
  refine h.same rfl rfl rfl rfl (Nat.le_refl _) fun x hx => ?_
  rcases current_setObject ho hx with ⟨hc, rfl⟩ | hc
  · exact ⟨o, hc, hm⟩
  · exact ⟨x, hc, rfl, rfl, rfl⟩

theorem delete (h : Serve r i s) (q : Ptr) : Serve r i (s.setObject q none) :=
  h.same rfl rfl rfl rfl (Nat.le_refl _) fun x hx => ⟨x, current_delete hx, rfl, rfl, rfl⟩

theorem fresh (h : Serve r i s) : Serve r i { s with fresh := s.fresh + 1 } :=
  h.same rfl rfl rfl rfl (Nat.le_succ _) fun x hx => ⟨x, hx, rfl, rfl, rfl⟩

theorem new (h : Serve r i s) (o : ObexObject) :
    Serve r i (({ s with fresh := s.fresh + 1 } : Obex).setObject s.fresh (some o)) := by
  refine h.same rfl rfl rfl rfl (Nat.le_succ _) fun x hx => ⟨x, ?_, rfl, rfl, rfl⟩
  obtain ⟨p, hp, hx⟩ := Option.bind_eq_some_iff.1 hx
  have hp : s.object = some p := hp
  rcases objects_setObject_some hx with ⟨rfl, -⟩ | ⟨-, hx⟩
  · exact absurd (h.bound _ hp) (Nat.lt_irrefl _)
  · exact Option.bind_eq_some_iff.2 ⟨_, hp, hx⟩

theorem mark {j : Stage} (h : Serve r i s) {p : Ptr} (hp : s.object = some p) (o' : ObexObject)
    (hk : Knows j (service s.log)) (hm : Marks j (service s.log) s.state o')
    (hr : j.receiving = true → s.state ≠ .send) (hg : j.gone = false) :
    Serve r j (s.setObject p (some o')) := by
  refine ⟨h.entries, h.mode, h.object, h.bound, h.heard, hk, fun x hx => ?_, hr, by simp [hg], h.send⟩
  have hp' : (s.setObject p (some o')).object = some p := hp
  rw [Obex.current, hp', Option.bind_some, objects_setObject] at hx
  cases hx
  exact hm

theorem setState {j : Stage} (h : Serve r i s) (st : State) (hk : Knows j (service s.log))
    (hm : ∀ o, s.current = some o → Marks i (service s.log) s.state o → Marks j (service s.log) st o)
    (hr : j.receiving = true → st ≠ .send) (hg : j.gone = true → s.object = none)
    (hs : st = .send → (service s.log).complete = true) : Serve r j (s.setState .srv st) :=
  ⟨h.entries, rfl, h.object, h.bound, h.heard, hk, fun o ho => hm o ho (h.marks o ho), hr, hg, hs⟩

theorem weaken {j : Stage} (h : Serve r i s) (hk : Knows j (service s.log))
    (hm : ∀ o, s.current = some o → Marks i (service s.log) s.state o →
      Marks j (service s.log) s.state o)
    (hr : j.receiving = true → s.state ≠ .send) (hg : j.gone = true → s.object = none) :
    Serve r j s :=
  ⟨h.entries, h.mode, h.object, h.bound, h.heard, hk, fun o ho => hm o ho (h.marks o ho), hr,
    hg, h.send⟩

theorem rest (h : Serve r i s) (hc : i.checking = false) (hq : i.requesting = false) :
    Serve r (atRest i.cmd) s := by
  refine h.weaken ⟨h.knows.cmd, by simp [atRest], by simp [atRest], h.knows.req⟩ (fun o _ hm => ?_)
    (by simp [atRest]) (by simp [atRest])
  exact ⟨hm.cmd, hm.first, fun _ => hm.checked hc, fun _ => hm.once hq⟩

theorem idle (h : Serve r i s) : Serve r { i with requesting := true } (s.setState .srv .idle) := by
  refine h.setState .idle ⟨h.knows.cmd, h.knows.final, h.knows.complete, h.knows.req⟩ (fun o _ hm => ?_)
    (by simp) h.gone (by simp)
  exact ⟨hm.cmd, hm.first, hm.checked, by simp⟩

theorem toRecv (h : Serve r i s) (hr : i.receiving = true) : Serve r i (s.setState .srv .recv) := by
  refine h.setState .recv h.knows (fun o _ hm => ⟨hm.cmd, hm.first, hm.checked, fun hi hq => ?_⟩)
    (by simp)
    h.gone (by simp)
  exact .inr ((hm.once hi hq).resolve_left (h.receiving hr))

theorem there (h : Serve r i s) {p : Ptr} (hp : s.object = some p) : i.gone = false := by
  cases hg : i.gone with
  | false => rfl
  | true =>
    have hn := h.gone hg
    rw [hp] at hn
    cases hn

theorem of_gone {j : Stage} (h : Serve r j s) (hg : s.object = none) (hk : Knows i (service s.log))
    (hr : i.receiving = true → s.state ≠ .send) : Serve r i s :=
  h.weaken hk (fun o ho _ => absurd ho (current_of_none hg o)) hr fun _ => hg

theorem served (h : Serve r i s) : Served r s := ⟨h.entries, fun _ hp => h.object.trans hp⟩

/-- Something happens; `j` is known afterwards. -/
theorem step {j : Stage} (h : Serve r i s) {x : Obs} (he : ServiceEntry r s.log x)
    (hobject : (serviceStep (service s.log) x).object = (service s.log).object)
    (hn : ∀ n, x = .event n → n.object = s.object) (hk : Knows j (serviceStep (service s.log) x))
    (hm : ∀ o, s.current = some o → Marks i (service s.log) s.state o →
      Marks j (serviceStep (service s.log) x) s.state o)
    (hr : j.receiving = true → s.state ≠ .send) (hg : j.gone = true → s.object = none)
    (hs : s.state = .send → (serviceStep (service s.log) x).complete = true) :
    Serve r j (s.emit x) := by
  have hw : service (s.emit x).log = serviceStep (service s.log) x := service_append _ _
  refine ⟨h.entries.append he, h.mode, ?_, h.bound, fun p hp => ?_, hw ▸ hk, fun o ho => ?_, hr, hg, ?_⟩
  · rw [hw, hobject]
    exact h.object
  · rcases mem_heard_append.1 hp with hp | ⟨n, hx, hobj⟩
    · exact h.heard p hp
    · exact h.bound p (by rw [← hn n hx, hobj])
  · rw [hw]
    exact hm o ho (h.marks o ho)
  · rw [hw]
    exact hs

theorem emit (h : Serve r i s) {x : Obs} (hx : serviceStep (service s.log) x = service s.log)
    (he : ServiceEntry r s.log x) (hn : ∀ n, x = .event n → n.object = s.object) :
    Serve r i (s.emit x) := by
  refine h.step he ?_ hn ?_ (fun o _ hm => ?_) h.receiving h.gone fun hst => ?_
  all_goals rw [hx]
  · exact h.knows
  · exact hm
  · exact h.send hst

/-- The step of an event of the request that is neither its first nor its last. -/
theorem event_step (h : Serve r i s) {e : Event} (cmd rsp : UInt8) (hhint : e ≠ .reqhint)
    (hf : e.final = false) : serviceStep (service s.log) (.event (noticeOf s e cmd rsp)) =
      { service s.log with
        checked := (service s.log).checked || decide (e = .reqcheck)
        req := (service s.log).req || decide (e = .req) } := by
  have hobject : ¬ (noticeOf s e cmd rsp).object ≠ (service s.log).object := fun hne => hne h.object
  rw [serviceStep, if_neg (by exact hhint), if_neg hobject, if_neg (by rw [noticeOf, hf]; simp)]
  rfl

/-- What the rules ask of an event that is not the first. -/
theorem event_entry (h : Serve r i s) {e : Event} {cmd : UInt8} (rsp : UInt8) (hhint : e ≠ .reqhint)
    (hcheck : e = .reqcheck → (service s.log).checked = false)
    (hreq : e = .req → (service s.log).req = false)
    (hdone : e = .reqdone → (service s.log).complete = true ∧ (r = .events → cmd = i.cmd)) :
    ServiceEntry r s.log (.event (noticeOf s e cmd rsp)) := by
  cases r with
  | responses => trivial
  | events =>
    refine (if_neg (by exact hhint)).mpr fun _ => ⟨h.object.symm, hcheck, hreq, fun hd => ?_⟩
    obtain ⟨hc, hcmd⟩ := hdone hd
    refine ⟨?_, (hcmd rfl).trans h.knows.cmd.symm⟩
    simp only [Service.complete, Bool.or_eq_true, Bool.and_eq_true] at hc
    exact hc.imp_left And.left

theorem routine (h : Serve r i s) {e : Event} (cmd rsp : UInt8) (hhint : e ≠ .reqhint)
    (hcheck : e ≠ .reqcheck) (hreq : e ≠ .req) (hf : e.final = false) :
    Serve r i (s.emit (.event (noticeOf s e cmd rsp))) := by
  refine h.emit ?_ (h.event_entry _ hhint (fun hc => absurd hc hcheck) (fun hc => absurd hc hreq) ?_)
    (by rintro _ ⟨⟩; rfl)
  · rw [h.event_step cmd rsp hhint hf]
    simp [hcheck, hreq]
  · rintro rfl
    cases hf

/-- The last event. -/
theorem last (h : Serve r i s) {e : Event} {cmd : UInt8} (rsp : UInt8) (hf : e.final = true)
    (hdone : e = .reqdone → (service s.log).complete = true ∧ (r = .events → cmd = i.cmd)) :
    Serve r { i with gone := true, checking := false, requesting := false }
      (({ s with object := none } : Obex).emit (.event (noticeOf s e cmd rsp))) := by
  have hhint : e ≠ .reqhint := by rintro rfl; cases hf
  have hno {e' : Event} (he' : e'.final = false) : e ≠ e' := by
    rintro rfl
    rw [he'] at hf
    cases hf
  have hobject : ¬ (noticeOf s e cmd rsp).object ≠ (service s.log).object := fun hne => hne h.object
  have hw : service (s.log ++ [.event (noticeOf s e cmd rsp)]) =
    { service s.log with object := none } := by
    rw [service_append, serviceStep, if_neg (by exact hhint), if_neg hobject]
    exact if_pos hf
  have hentry := h.event_entry rsp hhint (fun hc => absurd hc (hno rfl))
    (fun hc => absurd hc (hno rfl)) hdone
  have hnone (o : ObexObject) : ¬ (({ s with object := none } : Obex).emit
      (.event (noticeOf s e cmd rsp))).current = some o := current_of_none rfl o
  refine ⟨h.entries.append hentry, h.mode, ?_, by simp [Obex.emit], fun p hp => ?_, ?_,
    fun o ho => absurd ho (hnone o), h.receiving, fun _ => rfl, ?_⟩
  · simp only [Obex.emit, hw]
  · rcases mem_heard_append.1 hp with hp | ⟨n, hn, hp⟩
    · exact h.heard p hp
    · cases hn
      exact h.bound p hp.symm
  · simp only [Obex.emit, hw]
    exact ⟨h.knows.cmd, h.knows.final, h.knows.complete, h.knows.req⟩
  · simp only [Obex.emit, hw]
    exact h.send

theorem nobody (h : Serve r i s) {e : Event} (hn : s.object = none) (cmd rsp : UInt8)
    (hhint : e ≠ .reqhint) (hdone : e ≠ .reqdone) (hf : e.final = true) :
    Serve r i (s.emit (.event (noticeOf s e cmd rsp))) := by
  have hno {e' : Event} (he' : e'.final = false) : e ≠ e' := by
    rintro rfl
    rw [he'] at hf
    cases hf
  have hobject : ¬ (noticeOf s e cmd rsp).object ≠ (service s.log).object := fun hne => hne h.object
  refine h.emit ?_ (h.event_entry _ hhint (fun hc => absurd hc (hno rfl))
    (fun hc => absurd hc (hno rfl))
    fun hd => absurd hd hdone) (by rintro _ ⟨⟩; rfl)
  rw [serviceStep, if_neg (by exact hhint), if_neg hobject]
  refine (if_pos hf).trans ?_
  rw [← hn, h.object]

/-- `OBEX_EV_REQCHECK` -/
theorem reqcheck (h : Serve r i s) (cmd rsp : UInt8) (hc : (service s.log).checked = false) :
    Serve r { i with checking := true } (s.emit (.event (noticeOf s .reqcheck cmd rsp))) := by
  have hw := h.event_step cmd rsp (e := .reqcheck) (by simp) rfl
  have hentry : ServiceEntry r s.log (.event (noticeOf s .reqcheck cmd rsp)) :=
    h.event_entry rsp (by simp) (fun _ => hc) (by simp)
    (by simp)
  refine h.step hentry ?_ (by rintro _ ⟨⟩; rfl) ?_ (fun o _ hm => ?_) h.receiving h.gone fun hst => ?_
  all_goals simp only [hw, decide_true, reduceCtorEq, decide_false, Bool.or_false]
  · exact ⟨h.knows.cmd, h.knows.final, h.knows.complete, h.knows.req⟩
  · exact ⟨hm.cmd, hm.first, by simp, hm.once⟩
  · exact h.send hst

/-- `OBEX_EV_REQ` -/
theorem requested (h : Serve r i s) (cmd rsp : UInt8) (hq : (service s.log).req = false)
    (hf : (service s.log).final = true) : Serve r { i with complete := true, requesting := true }
      (s.emit (.event (noticeOf s .req cmd rsp))) := by
  have hw := h.event_step cmd rsp (e := .req) (by simp) rfl
  have hentry : ServiceEntry r s.log (.event (noticeOf s .req cmd rsp)) :=
    h.event_entry rsp (by simp) (by simp) (fun _ => hq)
    (by simp)
  refine h.step hentry ?_ (by rintro _ ⟨⟩; rfl) ?_ (fun o _ hm => ?_) h.receiving h.gone fun _ => ?_
  all_goals simp only [hw, decide_true, reduceCtorEq, decide_false, Bool.or_false, Bool.or_true]
  · exact ⟨h.knows.cmd, h.knows.final, by simp [Service.complete, hf], fun _ => hf⟩
  · exact ⟨hm.cmd, by simp [Service.complete, hf], hm.checked, by simp⟩
  · simp [Service.complete, hf]

theorem denied (h : Serve r i s) : Serve r { i with complete := true } (s.emit .denied) := by
  have hentry : ServiceEntry r s.log .denied := by cases r <;> trivial
  refine h.step hentry rfl (by simp) ?_ (fun o _ hm => ?_) h.receiving h.gone fun _ => ?_
  · exact ⟨h.knows.cmd, h.knows.final, by simp [serviceStep, Service.complete], h.knows.req⟩
  · exact ⟨hm.cmd, by simp [serviceStep, Service.complete], hm.checked, hm.once⟩
  · simp [serviceStep, Service.complete]

theorem received {cmd : UInt8} (h : Serve r (atRest cmd) s) (d : Bytes) :
    Serve r { atRest cmd with final := hasFinal d } (s.emit (.recv d)) := by
  have hentry : ServiceEntry r s.log (.recv d) := by cases r <;> trivial
  have hmono (hc : (service s.log).complete = true) :
      (serviceStep (service s.log) (.recv d)).complete = true := by
    simp only [serviceStep, Service.complete, Bool.or_eq_true, Bool.and_eq_true] at hc ⊢
    exact hc.imp_left fun hc => ⟨hc.1, .inl hc.2⟩
  refine h.step hentry rfl (by simp) ?_ (fun o _ hm => ?_) (by simp [atRest]) (by simp [atRest])
    fun hst => hmono (h.send hst)
  · refine ⟨h.knows.cmd, fun hf => ?_, by simp [atRest], fun hq => ?_⟩
    · have hf : hasFinal d = true := hf
      simp [serviceStep, hf]
    · have hf := h.knows.req hq
      simp [serviceStep, hf]
  · exact ⟨hm.cmd, fun hf => hmono (hm.first hf), hm.checked, hm.once⟩

theorem packet (h : Serve r i s) {object : Option Ptr} {kind : PacketKind} {d : Bytes}
    (hd : r = .responses → hasFinal d = true)
    (hlast : kind = .last → s.object = object ∧ (service s.log).complete = true) :
    Serve r i (s.emit (.write object kind d)) := by
  refine h.emit rfl ?_ (by simp)
  cases r with
  | responses => exact ⟨hd rfl, fun hk => ⟨h.object ▸ (hlast hk).1, (hlast hk).2⟩⟩
  | events => trivial

/-- A new request is heard of. -/
theorem hint {f : Bool} (h : Serve r i s) (hn : s.object = none) (hst : s.state ≠ .send)
    (hf : f = true → (service s.log).last = true) (cmd rsp : UInt8) :
    Serve r { atRest cmd with final := f, receiving := true }
      ((s.incoming cmd).emit (.event (noticeOf (s.incoming cmd) .reqhint cmd rsp))) := by
  have hw : service ((s.incoming cmd).emit
        (.event (noticeOf (s.incoming cmd) .reqhint cmd rsp))).log =
      { object := some s.fresh, cmd, last := (service s.log).last, final := (service s.log).last
        checked := false, req := false, denied := false } := service_append _ _
  have hentry : ServiceEntry r s.log (.event (noticeOf (s.incoming cmd) .reqhint cmd rsp)) := by
    cases r with
    | responses => trivial
    | events =>
      have hhint := eventEntry_hint s.log (n := noticeOf (s.incoming cmd) .reqhint cmd rsp) rfl
      refine hhint.2 ⟨h.object ▸ hn, Option.some_ne_none s.fresh, fun hp => ?_⟩
      exact absurd (h.heard s.fresh hp) (Nat.lt_irrefl _)
  refine ⟨h.entries.append hentry, h.mode, ?_, ?_, fun p hp => ?_, ?_, fun o ho => ?_, fun _ => hst,
    by simp [atRest], fun hst' => absurd hst' hst⟩
  · rw [hw]
    rfl
  · rintro _ ⟨⟩
    exact Nat.lt_succ_self _
  · rcases mem_heard_append.1 hp with hp | ⟨n, hn, hp⟩
    · exact Nat.lt_succ_of_lt (h.heard p hp)
    · cases hn
      cases hp
      exact Nat.lt_succ_self _
  · rw [hw]
    exact ⟨rfl, hf, by simp [atRest], by simp⟩
  · obtain ⟨p, hp, ho⟩ := Option.bind_eq_some_iff.1 ho
    cases hp
    cases (objects_setObject _ _ _).symm.trans ho
    rw [hw]
    exact ⟨rfl, by simp [obexObjectSetrsp, zeroObject], by simp, by simp⟩

end Serve

theorem or_final (op : UInt8) : (op ||| obexFinal) &&& obexFinal ≠ 0 := by
  have h : (op ||| obexFinal) &&& obexFinal = obexFinal := by
    refine UInt8.eq_of_toBitVec_eq ?_
    rw [UInt8.toBitVec_and, UInt8.toBitVec_or]
    ext i hi
    rw [BitVec.getElem_and, BitVec.getElem_or]
    cases op.toBitVec[i] <;> cases obexFinal.toBitVec[i] <;> rfl
  rw [h]
  decide

theorem hasFinal_of_head {op : UInt8} {d : Bytes} (h : d.head? = some (op ||| obexFinal)) :
    hasFinal d = true := by
  rw [hasFinal, h, Option.any_some]
  exact decide_eq_true (or_final op)

theorem chooseOpcode_forced (o : ObexObject) (a : Bool) :
    ∃ op, (chooseOpcode o a true).2 = op ||| obexFinal := by
  unfold chooseOpcode
  split
  · exact ⟨_, rfl⟩
  · split
    · exact ⟨_, rfl⟩
    · exact ⟨_, rfl⟩

theorem chooseOpcode_last {o : ObexObject} {a f : Bool} (h : (chooseOpcode o a f).1 = .last) :
    a = true := by
  unfold chooseOpcode at h
  split at h
  · cases h
  · split at h
    · cases h
    · simpa using ‹¬ ¬ a = true›

section
variable {E : Env} {r : Rule} {n : Nat} {i : Stage}

theorem serve_stops : Stops (Serve r i) fun _ => Served r := fun _ _ _ h => h.served

theorem serve_write (chunk : Bytes) : Still (Serve r i) ((E.ctx (serviceGuard r) n).write chunk) :=
  still_write (fun _ _ _ h => h.emit rfl (by cases r <;> trivial) (by simp)) chunk

section
variable (hcalls : ∀ i m, m < n → ∀ c s, Serve r i s → serviceCall r c s = true →
  wp (api (E.ctx (serviceGuard r) m) c) (fun _ => Serve r i) (fun _ => Served r) s)
include hcalls

theorem serve_deliver {e : Event} {cmd rsp : UInt8} {s : Obex}
    (hs : Serve r i (s.emit (.event (noticeOf s e cmd rsp)))) :
    wp (obexDeliverEvent (E.ctx (serviceGuard r) n) e cmd rsp false) (fun _ => Serve r i)
      (fun _ => Served r) s :=
  wp_deliverEvent (wp_conseq (wp_eventcb serve_stops hs fun m hm c _ s hs hg => hcalls i m hm c s hs hg)
    fun _ _ h => h.1)

theorem serve_routine {e : Event} (hhint : e ≠ .reqhint) (hcheck : e ≠ .reqcheck) (hreq : e ≠ .req)
    (hf : e.final = false) (cmd rsp : UInt8) : Holds (Serve r i) (Served r)
      (obexDeliverEvent (E.ctx (serviceGuard r) n) e cmd rsp false) :=
  fun _ hs => serve_deliver hcalls (hs.routine cmd rsp hhint hcheck hreq hf)

theorem serve_last {e : Event} {cmd : UInt8} (rsp : UInt8) {s : Obex} (hs : Serve r i s)
    (hf : e.final = true)
    (hdone : e = .reqdone → (service s.log).complete = true ∧ (r = .events → cmd = i.cmd)) :
    wp (obexDeliverEvent (E.ctx (serviceGuard r) n) e cmd rsp true)
      (fun _ => Serve r { i with gone := true, checking := false, requesting := false })
      (fun _ => Served r) s := by
  refine wp_deliverLast (wp_conseq (wp_eventcb serve_stops (hs.last rsp hf hdone)
    fun m hm c _ s hs hg => hcalls _ m hm c s hs hg) fun _ s' hs' => ?_)
  exact ⟨fun p _ => ⟨hs'.1.delete p, hs'.1.served⟩, fun _ => hs'.1⟩

theorem serve_receive : Holds (Serve r i) (Served r) (obexObjectReceive (E.ctx (serviceGuard r) n)) :=
  RxFrame.receive ⟨serve_stops, Holds.selfObject fun _ h => h.served,
    fun _ _ h => h.of_eq rfl rfl rfl rfl rfl rfl, fun _ h => h.fresh,
    fun _ _ _ _ h ho hr => h.setObject ho hr.marked,
    serve_routine hcalls (by simp) (by simp) (by simp) rfl 0 0⟩

/-- A packet of the current object, with the final bit forced. -/
theorem serve_send {s : Obex} {p : Ptr} (hs : Serve r i s) (hp : s.object = some p) {a : Bool}
    (hc : a = true → i.complete = true) :
    wp (obexObjectSend (E.ctx (serviceGuard r) n) p a true) (fun _ => Serve r i) (fun _ => Served r)
      s := by
  cases ho : s.objects p with
  | none =>
    rw [obexObjectSend, wp_bind, wp_deref, ho]
    exact ⟨by simp, fun _ => hs.served⟩
  | some o =>
    have hstays : Current p s.rxMsg false s :=
      ⟨Stays.init (hs.bound p hp) hp ho (by simp), hp⟩
    have hF : SendFrame (E.ctx (serviceGuard r) n) p (fun t => Serve r i t ∧ Current p s.rxMsg false t)
        (fun _ => Served r) False := by
      refine ⟨fun _ _ _ h => h.1.served, fun _ h => h.2.current, fun t b h => ?_, fun t o o' h ho ht =>
        ?_, fun t h => ?_, by simp⟩
      · exact ⟨h.1.of_eq rfl rfl rfl rfl rfl rfl, h.2.toStays.of_eq rfl rfl rfl rfl rfl, h.2.current⟩
      · refine ⟨h.1.setObject ho ht.marked, h.2.setObject ho fun ha => ?_, h.2.current⟩
        have habort := congrArg ObexObject.abort ht.erase
        have habort : o'.abort = o.abort := habort
        rwa [habort] at ha
      · refine wp_mono (wp_and (serve_routine hcalls (by simp) (by simp) (by simp) rfl 0 0 t h.1)
          (stays_deliver h.2.toStays)) (fun _ t' h => ?_) fun _ _ h => h.1
        cases ho : t'.objects p with
        | none => exact .inr ⟨rfl, h.1.served⟩
        | some o => exact .inl ⟨⟨h.1, h.2.toCurrent ho⟩, by simp⟩
    refine hF.send ⟨hs, hstays⟩ (fun _ _ _ => hs) (fun _ _ h => h.1) fun t o h _ => ?_
    have htx (t : Obex) (b : Buf) (_ : t.txMsg.buffer.length ≤ b.buffer.length) (h : Serve r i t) :
        Serve r i (t.setTxMsg b) := h.of_eq rfl rfl rfl rfl rfl rfl
    obtain ⟨op, hop⟩ := chooseOpcode_forced o a
    refine wp_mono (holds_dataRequest (fun _ h => h.served) htx htx serve_write (fun _ h => h) h.1
      fun b d hb hd => ?_) (fun _ _ h => h) fun _ _ h => h
    rw [hop] at hd
    refine hb.packet (fun _ => hasFinal_of_head hd) fun hk => ⟨h.2.current, ?_⟩
    exact hb.knows.complete (hc (chooseOpcode_last hk))

/-! ## The functions of the server -/

omit hcalls in
theorem serve_update {f : ObexObject → ObexObject} (hf : ∀ o, Marked o (f o)) (q : Ptr) :
    Holds (Serve r i) (Served r) (update q f) :=
  keeps_update serve_stops fun _ o h ho => h.setObject ho (hf o)

omit hcalls in
theorem serve_updateCurrent {f : ObexObject → ObexObject} (hf : ∀ o, Marked o (f o)) :
    Holds (Serve r i) (Served r) (updateCurrent f) :=
  Keeps.bind (Holds.selfObject fun _ h => h.served) fun q => serve_update hf q

omit hcalls in
theorem serve_response (opcode : UInt8) : Holds (Serve r i) (Served r)
    (obexResponseRequest (E.ctx (serviceGuard r) n) opcode) := by
  have htx (s : Obex) (b : Buf) (_ : s.txMsg.buffer.length ≤ b.buffer.length) (h : Serve r i s) :
      Serve r i (s.setTxMsg b) := h.of_eq rfl rfl rfl rfl rfl rfl
  exact holds_response (fun _ h => h.served) htx htx serve_write (fun _ h => h)
    fun s d h hd => h.packet (fun _ => hasFinal_of_head hd) (by simp)

theorem serve_finish {e : Event} (hf : e.final = true) (hdone : e ≠ .reqdone) (rsp : UInt8) (ret : Int)
    {s : Obex} (hs : Serve r i s) :
    wp (do
      setState .srv .idle
      obexDeliverEvent (E.ctx (serviceGuard r) n) e (← currentOpcode) rsp true
      pure ret) (fun _ => Serve r (atRest i.cmd)) (fun _ => Served r) s := by
  rw [wp_bind, setState, wp_modify]
  refine wp_seq (Holds.currentOpcode (fun _ h => h.served) _ hs.idle) fun op s₁ hs₁ => ?_
  refine wp_seq (serve_last hcalls rsp hs₁ hf fun h => absurd h hdone) fun _ s₂ hs₂ => ?_
  exact hs₂.rest rfl rfl

theorem serve_abort (cmd : UInt8) {s : Obex} (hs : Serve r i s) :
    wp (serverAbort (E.ctx (serviceGuard r) n) cmd) (fun _ => Serve r (atRest i.cmd))
      (fun _ => Served r) s :=
  wp_seq (serve_response _ s hs) fun _ _ hs => serve_finish hcalls rfl (by simp) _ _ hs

theorem serve_parseerr (cmd : UInt8) {s : Obex} (hs : Serve r i s) :
    wp (serverParseerr (E.ctx (serviceGuard r) n) cmd) (fun _ => Serve r (atRest i.cmd))
      (fun _ => Served r) s :=
  wp_seq (serve_response _ s hs) fun _ _ hs => serve_finish hcalls rfl (by simp) _ _ hs

omit hcalls in
theorem serve_begun (hc : i.complete = true) {s : Obex} (hs : Serve r i s) :
    wp (updateCurrent fun o => { o with firstPacketSent := true })
      (fun _ => Serve r { i with requesting := false }) (fun _ => Served r) s := by
  rw [updateCurrent, wp_bind, wp_selfObject]
  refine ⟨fun p hp => ?_, fun _ => hs.served⟩
  rw [wp_update]
  refine ⟨fun o ho => ?_, fun _ => hs.served⟩
  have hm := hs.marks o (Option.bind_eq_some_iff.2 ⟨p, hp, ho⟩)
  have hk := hs.knows
  refine hs.mark hp _ ⟨hk.cmd, hk.final, hk.complete, hk.req⟩ ?_ hs.receiving (hs.there hp)
  exact ⟨hm.cmd, fun _ => hk.complete hc, hm.checked, fun _ _ => .inr rfl⟩

/-- The response of a complete request. -/
theorem serve_respond {cmd : UInt8} (hc : i.complete = true) (hcheck : i.checking = false)
    (hreq : i.requesting = false) (hcmd : r = .events → cmd = i.cmd) {s : Obex} (hs : Serve r i s) :
    wp (serverRespond (E.ctx (serviceGuard r) n) cmd) (fun _ => Serve r (atRest i.cmd))
      (fun _ => Served r) s := by
  refine wp_seq (serve_updateCurrent (fun _ => by exact ⟨rfl, rfl, rfl⟩) s hs) fun _ s hs => ?_
  rw [wp_bind, wp_selfObject]
  refine ⟨fun p hp => ?_, fun _ => hs.served⟩
  rw [wp_bind, wp_deref]
  refine ⟨fun o _ => ?_, fun _ => hs.served⟩
  refine wp_ite.2 ⟨fun _ => hs.rest hcheck hreq, fun _ => ?_⟩
  refine wp_seq (serve_send hcalls hs hp fun _ => hc) fun ret s₁ hs₁ => ?_
  refine wp_ite.2 ⟨fun _ => ?_, fun _ => wp_ite.2 ⟨fun _ => ?_, fun _ => ?_⟩⟩
  · refine wp_seq (serve_routine hcalls (by simp) (by simp) (by simp) rfl _ _ s₁ hs₁) fun _ s₂ hs₂ => ?_
    refine wp_seq (serve_begun hc hs₂) fun _ s₃ hs₃ => ?_
    refine wp_seq (serve_updateCurrent (fun _ => by exact ⟨rfl, rfl, rfl⟩) s₃ hs₃) fun _ s₄ hs₄ => ?_
    exact hs₄.rest hcheck rfl
  · refine wp_seq (serve_last hcalls _ hs₁ rfl (by simp)) fun _ s₂ hs₂ => ?_
    exact hs₂.rest rfl rfl
  · have hdisconnect : Holds (Serve r i) (Served r) (when (cmd = obexCmdDisconnect)
        (modify fun s => { s with mtuTx := obexMinimumMtu })) :=
      keeps_when fun _ => Keeps.modify fun _ h => h.of_eq rfl rfl rfl rfl rfl rfl
    refine wp_seq (hdisconnect s₁ hs₁) fun _ s₂ hs₂ => ?_
    rw [wp_bind, setState, wp_modify]
    refine wp_seq (serve_last hcalls _ hs₂.idle rfl fun _ => ⟨hs₂.knows.complete hc, hcmd⟩)
      fun _ s₃ hs₃ => ?_
    exact hs₃.rest rfl rfl

theorem serve_receiveUnexpected (connect : Bool) :
    Holds (Serve r i) (Served r) (receiveUnexpected (E.ctx (serviceGuard r) n) connect) :=
  Keeps.ite (fun _ => Keeps.pure _) fun _ => Keeps.bind (serve_receive hcalls) fun _ => Keeps.pure _

theorem serve_serverSend {cmd : UInt8} (len : Nat) (hc : i.complete = true)
    (hcheck : i.checking = false) (hreq : i.requesting = false)
    (hcmd : r = .events → cmd = i.cmd ∨ cmd = obexCmdAbort) {s : Obex} (hs : Serve r i s) :
    wp (serverSend (E.ctx (serviceGuard r) n) cmd len) (fun _ => Serve r (atRest i.cmd))
      (fun _ => Served r) s := by
  refine wp_ite.2 ⟨fun _ => serve_abort hcalls cmd hs, fun hno => ?_⟩
  have hcmd : r = .events → cmd = i.cmd := fun hr => (hcmd hr).resolve_right hno
  refine wp_ite.2 ⟨fun _ => ?_, fun _ => serve_respond hcalls hc hcheck hreq hcmd hs⟩
  refine wp_seq (serve_receiveUnexpected hcalls _ s hs) fun bad s₁ hs₁ => ?_
  refine wp_ite.2 ⟨fun _ => serve_parseerr hcalls 0 hs₁, fun _ => ?_⟩
  refine wp_seq (Holds.currentOpcode (fun _ h => h.served) s₁ hs₁) fun op s₂ hs₂ => ?_
  refine wp_seq (serve_routine hcalls (by simp) (by simp) (by simp) rfl _ _ s₂ hs₂) fun _ s₃ hs₃ => ?_
  exact serve_respond hcalls hc hcheck hreq hcmd hs₃

/-- The application may deny the request. -/
theorem serve_check (cmd : UInt8) (final : Bool) (hcheck : i.checking = false) {s : Obex}
    (hs : Serve r i s) :
    wp (serverCheck (E.ctx (serviceGuard r) n) cmd final)
      (fun x s' => Serve r { i with complete := i.complete || x.2 } s' ∧
        (x.1 = true → x.2 = false → final = true)) (fun _ => Served r) s := by
  have hsame {s : Obex} (hs : Serve r i s) : Serve r { i with complete := i.complete || false } s := by
    rw [Bool.or_false]
    exact hs
  refine wp_ite.2 ⟨fun hf => ⟨hsame hs, fun _ _ => hf⟩, fun _ => ?_⟩
  rw [wp_bind, wp_selfObject]
  refine ⟨fun p hp => ?_, fun _ => hs.served⟩
  rw [wp_bind, wp_deref]
  refine ⟨fun o ho => ?_, fun _ => hs.served⟩
  have hwhen : wp (when (¬ o.checked) do
      obexDeliverEvent (E.ctx (serviceGuard r) n) .reqcheck cmd 0 false
      updateCurrent fun o => { o with checked := true }) (fun _ => Serve r i)
        (fun _ => Served r) s := by
    rw [wp_when]
    refine ⟨fun hno => ?_, fun _ => hs⟩
    have hunchecked : (service s.log).checked = false := by
      have hm := hs.marks o (Option.bind_eq_some_iff.2 ⟨p, hp, ho⟩)
      cases hw : (service s.log).checked with
      | false => rfl
      | true => exact absurd (hm.checked hcheck hw) hno
    refine wp_seq (serve_deliver hcalls (hs.reqcheck cmd 0 hunchecked)) fun _ s₁ hs₁ => ?_
    rw [updateCurrent, wp_bind, wp_selfObject]
    refine ⟨fun q hq => ?_, fun _ => hs₁.served⟩
    rw [wp_update]
    refine ⟨fun o₁ ho₁ => ?_, fun _ => hs₁.served⟩
    have hm := hs₁.marks o₁ (Option.bind_eq_some_iff.2 ⟨q, hq, ho₁⟩)
    have hk := hs₁.knows
    refine hs₁.mark hq _ ⟨hk.cmd, hk.final, hk.complete, hk.req⟩ ?_ hs₁.receiving (hs₁.there hq)
    exact ⟨hm.cmd, hm.first, fun _ _ => rfl, hm.once⟩
  refine wp_seq hwhen fun _ s₁ hs₁ => ?_
  refine wp_seq (Holds.currentOpcode (fun _ h => h.served) s₁ hs₁) fun op s₂ hs₂ => ?_
  refine wp_ite.2 ⟨fun _ => ⟨hsame hs₂, fun h => by cases h⟩, fun _ => ?_⟩
  rw [wp_bind, wp_emit, wp_pure]
  refine ⟨?_, fun _ h => by cases h⟩
  rw [Bool.or_true]
  exact hs₂.denied

/-- A packet of the request. -/
theorem serve_rec {cmd : UInt8} (len : Nat) {s : Obex} {c : UInt8} {f : Bool}
    (hs : Serve r { atRest c with final := f, receiving := true } s) :
    wp (serverRec (E.ctx (serviceGuard r) n) cmd len f) (fun _ => Serve r (atRest c))
      (fun _ => Served r) s := by
  refine wp_ite.2 ⟨fun _ => serve_abort hcalls cmd hs, fun _ => ?_⟩
  rw [wp_bind, wp_selfObject]
  refine ⟨fun p hp => ?_, fun _ => hs.served⟩
  rw [wp_bind, wp_deref]
  refine ⟨fun o ho => ?_, fun _ => hs.served⟩
  refine wp_ite.2 ⟨fun _ => serve_parseerr hcalls cmd hs, fun hcmd => ?_⟩
  have hcmd : cmd = c := by
    have hm := hs.marks o (Option.bind_eq_some_iff.2 ⟨p, hp, ho⟩)
    rw [← show o.cmd = c from hm.cmd]
    exact not_not.1 hcmd
  refine wp_seq (serve_receive hcalls s hs) fun ret s₁ hs₁ => ?_
  refine wp_ite.2 ⟨fun _ => serve_parseerr hcalls 0 hs₁, fun _ => ?_⟩
  refine wp_seq (serve_check hcalls cmd f rfl hs₁) ?_
  rintro ⟨final, deny⟩ s₂ ⟨hs₂, hfinal⟩
  rw [wp_bind, wp_selfObject]
  refine ⟨fun p hp => ?_, fun _ => hs₂.served⟩
  refine wp_ite.2 ⟨fun _ => ?_, fun hf => ?_⟩
  · refine wp_seq (serve_send hcalls hs₂ hp (by simp)) fun ret s₃ hs₃ => ?_
    refine wp_ite.2 ⟨fun _ => ?_, fun _ => ?_⟩
    · refine wp_seq (serve_last hcalls _ hs₃ rfl (by simp)) fun _ s₄ hs₄ => ?_
      exact hs₄.rest rfl rfl
    · refine wp_seq (serve_routine hcalls (by simp) (by simp) (by simp) rfl _ _ s₃ hs₃)
        fun _ s₄ hs₄ => ?_
      exact hs₄.rest rfl rfl
  have hf : final = true := not_not.1 hf
  rw [wp_bind, wp_deref]
  refine ⟨fun o₁ ho₁ => ?_, fun _ => hs₂.served⟩
  have hm := hs₂.marks o₁ (Option.bind_eq_some_iff.2 ⟨p, hp, ho₁⟩)
  have hcmd : r = .events → cmd = c ∨ cmd = obexCmdAbort := fun _ => .inl hcmd
  refine wp_ite.2 ⟨fun hno => ?_, fun hsent => ?_⟩
  · -- nothing has been sent for the request, so `OBEX_EV_REQ` has not been delivered either
    have hreq : (service s₂.log).req = false := by
      cases hq : (service s₂.log).req with
      | false => rfl
      | true =>
        rcases hm.once rfl hq with hst | hsent
        · exact absurd hst (hs₂.receiving rfl)
        · exact absurd hsent hno
    have hframe :
      Keeps (fun t => Serve r { atRest c with final := f, complete := deny, receiving := true } t ∧
          (service t.log).req = false) (fun _ => Served r)
        (when (cmd = obexCmdConnect) do
          let _ ← obexInsertConnectframe (E.ctx (serviceGuard r) n) p) :=
      keeps_when fun _ => Keeps.bind (keeps_connectframe (fun _ _ _ h => h.1.served)
        fun _ _ _ h ho => ⟨h.1.setObject ho ⟨rfl, rfl, rfl⟩, h.2⟩) fun _ => Keeps.pure _
    refine wp_seq (hframe s₂ ⟨hs₂, hreq⟩) ?_
    rintro _ s₃ ⟨hs₃, hreq⟩
    have hheard :
      wp (when (¬ deny = true) (obexDeliverEvent (E.ctx (serviceGuard r) n) .req cmd 0 false))
        (fun _ => Serve r
        { atRest c with final := f, complete := true, receiving := true, requesting := true })
          (fun _ => Served r) s₃ := by
      rw [wp_when]
      refine ⟨fun hd => ?_, fun hd => ?_⟩
      · have hfin := hs₃.knows.final (hfinal hf (by simpa using hd))
        exact serve_deliver hcalls (hs₃.requested cmd 0 hreq hfin)
      · have hd : deny = true := not_not.1 hd
        subst hd
        have hk := hs₃.knows
        refine hs₃.weaken ⟨hk.cmd, hk.final, hk.complete, hk.req⟩ (fun o _ hm => ?_) hs₃.receiving
          (by simp [atRest])
        -- after a denial `OBEX_EV_REQ` is left out, and the response is sent all the same
        exact ⟨hm.cmd, hm.first, hm.checked, by simp⟩
    refine wp_seq hheard fun _ s₄ hs₄ => ?_
    rw [wp_bind, setState, wp_modify]
    have hk := hs₄.knows
    have hsend : Serve r { atRest c with final := f, complete := true } (s₄.setState .srv .send) := by
      refine hs₄.setState .send ⟨hk.cmd, hk.final, hk.complete, hk.req⟩ (fun o _ hm => ?_)
        (by simp [atRest])
        (by simp [atRest]) fun _ => hk.complete rfl
      exact ⟨hm.cmd, hm.first, hm.checked, fun _ _ => .inl rfl⟩
    exact serve_serverSend hcalls 3 rfl rfl rfl hcmd hsend
  · have hk := hs₂.knows
    -- the response is under way: it is gone on with, whatever this packet carries
    have hsent : o₁.firstPacketSent = true := not_not.1 hsent
    have hanswer : Serve r { atRest c with final := f, complete := true } s₂ := by
      refine hs₂.weaken ⟨hk.cmd, hk.final, fun _ => hm.first hsent, hk.req⟩ (fun o _ hm => ?_)
        (by simp [atRest]) (by simp [atRest])
      exact ⟨hm.cmd, hm.first, hm.checked, hm.once⟩
    exact serve_serverSend hcalls len rfl rfl rfl hcmd hanswer

theorem serve_hint {cmd : UInt8} (len : Nat) {f : Bool} {s : Obex}
    (hs : Serve r { atRest cmd with final := f, receiving := true }
      ((s.incoming cmd).emit (.event (noticeOf (s.incoming cmd) .reqhint cmd 0)))) :
    wp (serverHint (E.ctx (serviceGuard r) n) cmd len f) (fun _ => Serve r (atRest cmd))
      (fun _ => Served r) (s.incoming cmd) := by
  rw [serverHint]
  refine wp_seq (serve_deliver hcalls hs) fun _ s₁ hs₁ => wp_ite.2 ⟨fun _ => ?_, fun _ => ?_⟩
  · rw [serverConnect, wp_bind]
    refine wp_parseConnectHeader hs₁.served ?_ ?_
    · have hs₂ : Serve r { atRest cmd with final := f, receiving := true }
          { s₁ with mtuTx := announcedMtu s₁ } := hs₁.of_eq rfl rfl rfl rfl rfl rfl
      rw [if_neg (by decide)]
      refine wp_seq (serve_updateCurrent (fun _ => by exact ⟨rfl, rfl, rfl⟩) _ hs₂) fun _ s₃ hs₃ => ?_
      rw [wp_bind, setState, wp_modify]
      exact serve_rec hcalls len (hs₃.toRecv rfl)
    · rw [if_pos (by decide)]
      refine wp_seq (serve_response _ s₁ hs₁) fun _ s₂ hs₂ => ?_
      refine wp_seq (Holds.currentOpcode (fun _ h => h.served) s₂ hs₂) fun op s₃ hs₃ => ?_
      refine wp_seq (serve_last hcalls _ hs₃ rfl (by simp)) fun _ s₄ hs₄ => ?_
      exact hs₄.rest rfl rfl
  · refine wp_seq (keeps_when (fun _ => serve_updateCurrent fun _ => by exact ⟨rfl, rfl, rfl⟩) s₁ hs₁)
      fun _ s₂ hs₂ => ?_
    rw [wp_bind, setState, wp_modify]
    exact serve_rec hcalls len (hs₂.toRecv rfl)

/-- A packet for the server; `c` is the command of the request in progress. -/
theorem serve_server {c : UInt8} {f : Bool} {s : Obex}
    (hs : Serve r { atRest c with final := f } s) (hlast : f = true → (service s.log).last = true)
    (hpacket : r = .events → s.state = .send → ∀ op, s.rxMsg.reach[0]? = some op →
      withoutFinal op = c ∨ withoutFinal op = obexCmdAbort) :
    wp (obexServer (E.ctx (serviceGuard r) n) f) (fun _ s' => ∃ c, Serve r (atRest c) s')
      (fun _ => Served r) s := by
  rw [obexServer, wp_bind, wp_get, wp_bind]
  refine wp_byteAt_reach (fun op hop => ?_) fun _ => hs.served
  rw [wp_bind]
  refine wp_byteAt (fun a _ => ?_) hs.served
  rw [wp_bind]
  refine wp_byteAt (fun b _ => ?_) hs.served
  dsimp only
  generalize hlen : ofBe16 a b = len
  cases hst : s.state with
  | idle =>
    refine wp_serverIdle ?_ fun hno => ?_
    · exact wp_seq (serve_response _ s hs) fun _ _ hs => ⟨c, hs.rest rfl rfl⟩
    · have hhint := hs.hint hno (by simp [hst]) hlast (withoutFinal op) 0
      exact wp_conseq (serve_hint hcalls len hhint) fun _ _ h => ⟨_, h⟩
  | recv =>
    have hk := hs.knows
    have hrec : Serve r { atRest c with final := f, receiving := true } s := by
      refine hs.weaken ⟨hk.cmd, hk.final, hk.complete, hk.req⟩ (fun o _ hm => ?_)
        (by simp [hst]) hs.gone
      exact ⟨hm.cmd, hm.first, hm.checked, hm.once⟩
    exact wp_conseq (serve_rec hcalls len hrec) fun _ _ h => ⟨c, h⟩
  | send =>
    have hk := hs.knows
    have hanswer : Serve r { atRest c with final := f, complete := true } s := by
      refine hs.weaken ⟨hk.cmd, hk.final, fun _ => hs.send hst, hk.req⟩ (fun o _ hm => ?_)
        (by simp [atRest]) hs.gone
      exact ⟨hm.cmd, hm.first, hm.checked, hm.once⟩
    exact wp_conseq (serve_serverSend hcalls len rfl rfl rfl (fun hr => hpacket hr hst op hop) hanswer)
      fun _ _ h => ⟨c, h⟩
  | start =>
    refine wp_seq (serve_response _ s hs) fun _ s₁ hs₁ => ?_
    refine wp_seq (serve_last hcalls _ hs₁ rfl (by simp)) fun _ s₂ hs₂ => ?_
    exact ⟨c, hs₂.rest rfl rfl⟩

/-! ## The application's calls -/

omit hcalls in
/-- The packet that `OBEX_ResumeRequest` sends. -/
theorem serve_resumed {s : Obex} {p : Ptr} {o : ObexObject} (hs : Serve r i s) (hp : s.object = some p)
    (ho : s.objects p = some o) (hsus : o.suspend = false) (hc : (service s.log).complete = true)
    (hg : resumeKeeps r s o = true) :
    wp (obexObjectSend (E.ctx (serviceGuard r) n) p true false) (fun ret t => Serve r i t ∧
        t.object = some p ∧ (service t.log).complete = true ∧ (0 < ret → r = .events →
          ∀ o, t.objects p = some o → withoutFinal o.opcode = i.cmd)) (fun _ => Served r) s := by
  rw [resumeKeeps, Bool.and_eq_true, List.all_eq_true] at hg
  obtain ⟨hplain, hfill⟩ := hg
  have hm := hs.marks o (Option.bind_eq_some_iff.2 ⟨p, hp, ho⟩)
  have hfilling (m : Buf) (d : Option Buf) (q : List HeaderElement) (b : Bool) :
      Serve r i (filling s p { o with txNonhdrData := d } m q b) := by
    have hset : Serve r i (s.setTxMsg m) := hs.of_eq rfl rfl rfl rfl rfl rfl
    have ho' : (s.setTxMsg m).objects p = some o := ho
    exact hset.setObject ho' ⟨rfl, rfl, rfl⟩
  refine wp_send_fill ho (fun e he => by simpa using hplain e he) hsus (fun x m hx _ => ?_)
    (fun m q _ _ => ⟨hfilling m _ q _, hp, hc, by simp⟩) fun e m d q b _ _ => (hfilling m d q b).served
  have hrule := hfill
  rw [fill_rounds hx (Nat.lt_succ_self _), Option.all_some] at hrule
  -- a resume does not force the final bit: only the last packet has it
  have hopcode : chooseOpcode (sending o x.rest x.suspend) true false =
      if x.rest ≠ [] then (.more, o.opcode) else (.last, o.lastopcode ||| obexFinal) := by
    unfold chooseOpcode sending
    simp
  have hP : wp (obexDataRequest (E.ctx (serviceGuard r) n) (some p)
      (chooseOpcode (sending o x.rest x.suspend) true false).1
      (chooseOpcode (sending o x.rest x.suspend) true false).2)
      (fun _ t => (Serve r i t ∧ t.object = some p ∧ (service t.log).complete = true) ∧
        t.objects p = some (sending { o with txNonhdrData := none } x.rest x.suspend))
      (fun _ => Served r) (filling s p { o with txNonhdrData := none } m x.rest x.suspend) := by
    have htx (t : Obex) (b : Buf) (_ : t.txMsg.buffer.length ≤ b.buffer.length)
        (h : (Serve r i t ∧ t.object = some p ∧ (service t.log).complete = true) ∧
          t.objects p = some (sending { o with txNonhdrData := none } x.rest x.suspend)) :
        (Serve r i (t.setTxMsg b) ∧ (t.setTxMsg b).object = some p ∧ (service t.log).complete = true) ∧
          (t.setTxMsg b).objects p = some (sending { o with txNonhdrData := none } x.rest x.suspend) :=
      ⟨⟨h.1.1.of_eq rfl rfl rfl rfl rfl rfl, h.1.2⟩, h.2⟩
    refine wp_mono (holds_dataRequest (fun _ h => h.1.1.served) htx htx (fun chunk => ?_) (fun _ h => h)
      ⟨⟨hfilling m _ _ _, hp, hc⟩, filling_objects _ _ _ _ _ _⟩ fun b d hb hd => ?_) (fun _ _ h => h)
      fun _ _ h => h
    · refine still_write (fun t d' x' h => ?_) chunk
      refine ⟨⟨h.1.1.emit rfl (by cases r <;> trivial) (by simp), h.1.2.1, ?_⟩, h.2⟩
      rw [Obex.emit, service_append]
      exact h.1.2.2
    · refine ⟨⟨hb.1.1.packet (fun hr => ?_) fun _ => hb.1.2, hb.1.2.1, ?_⟩, hb.2⟩
      · subst hr
        rw [hopcode] at hd
        split at hd
        · have hhead : x.rest.isEmpty = false := by
            cases hx : x.rest with
            | nil => exact absurd hx ‹_›
            | cons _ _ => rfl
          rw [hhead, Bool.false_or] at hrule
          rw [hasFinal, hd]
          exact hrule
        · exact hasFinal_of_head hd
      · rw [Obex.emit, service_append]
        exact hb.1.2.2
  refine wp_conseq hP fun ret t h => ⟨h.1.1, h.1.2.1, h.1.2.2, fun hpos hr o' ho' => ?_⟩
  cases h.2.symm.trans ho'
  subst hr
  -- it returns 1 only when nothing is left, and then the guard has seen the code of the response
  have hempty : x.rest = [] := by
    by_contra hne
    rw [hopcode, if_pos hne] at hpos
    split at hpos
    · omega
    · simp at hpos
  rw [hempty] at hrule
  have hcode : withoutFinal o.opcode = o.cmd := by simpa using hrule
  exact hcode.trans hm.cmd

/-- `OBEX_ResumeRequest` -/
theorem serve_resume {s : Obex} (hs : Serve r i s) (hg : serviceCall r .resumeRequest s = true) :
    wp (obexResumeRequest (E.ctx (serviceGuard r) n)) (fun _ => Serve r i) (fun _ => Served r) s := by
  rw [obexResumeRequest, wp_bind, wp_get]
  cases hp : s.object with
  | none => exact hs
  | some p =>
    dsimp only
    rw [obexObjectResume, wp_bind, wp_deref]
    refine ⟨fun o ho => ?_, fun _ => hs.served⟩
    refine wp_ite.2 ⟨fun _ => hs, fun hsus => ?_⟩
    have hs' : Serve r i (s.setObject p (some { o with suspend := false })) :=
      hs.setObject ho ⟨rfl, rfl, rfl⟩
    rw [wp_bind, wp_update]
    refine ⟨fun o' ho' => ?_, fun _ => hs.served⟩
    cases ho.symm.trans ho'
    refine wp_ite.2 ⟨fun _ => hs', fun hc => ?_⟩
    obtain ⟨hcomplete, hkeeps⟩ : (service s.log).complete = true ∧ resumeKeeps r s o = true := by
      have hcurrent : s.current = some o := Option.bind_eq_some_iff.2 ⟨p, hp, ho⟩
      have hresumes : o.resumes = true := by
        unfold ObexObject.resumes
        cases hf : o.firstPacketSent <;> cases hr : o.continueReceived <;> simp_all
      rw [serviceCall, hcurrent, Option.all_some, hresumes] at hg
      simpa using hg
    refine wp_seq (serve_resumed hs' hp (objects_setObject _ _ _) rfl hcomplete hkeeps) ?_
    rintro ret s₁ ⟨hs₁, hp₁, hc₁, hcode⟩
    have hj : Serve r { i with complete := true } s₁ := by
      have hk := hs₁.knows
      refine hs₁.weaken ⟨hk.cmd, hk.final, fun _ => hc₁, hk.req⟩ (fun _ _ hm => ?_)
        hs₁.receiving hs₁.gone
      exact ⟨hm.cmd, hm.first, hm.checked, hm.once⟩
    have hi {j : Stage} {t : Obex} (h : Serve r j t) (hj : j.cmd = i.cmd ∧ j.final = i.final ∧
        j.complete = true ∧ j.receiving = i.receiving) (hgone : t.object = none) : Serve r i t := by
      have hk := h.knows
      obtain ⟨h1, h2, h3, h4⟩ := hj
      exact h.of_gone hgone ⟨hk.cmd.trans h1, h2 ▸ hk.final, fun _ => hk.complete h3, hk.req⟩
        (h4 ▸ h.receiving)
    rw [wp_bind, wp_deref]
    refine ⟨fun o₁ ho₁ => ?_, fun _ => hs₁.served⟩
    refine wp_ite.2 ⟨fun _ => ?_, fun hneg => wp_ite.2 ⟨fun _ => ?_, fun hzero => ?_⟩⟩
    · refine wp_seq (serve_last hcalls _ hj rfl (by simp)) fun _ s₂ hs₂ => ?_
      exact hi hs₂ ⟨rfl, rfl, rfl, rfl⟩ (hs₂.gone rfl)
    · -- the callback may delete the object, whose flags are set afterwards
      have hstays : Stays p s₁.rxMsg false s₁ := Stays.init (hs₁.bound p hp₁) hp₁ ho₁ (by simp)
      refine wp_seq (wp_mono (wp_and (serve_routine hcalls (by simp) (by simp) (by simp) rfl _ _ s₁ hj)
        (stays_deliver hstays)) (fun _ _ h => h) fun _ _ h => h.1) ?_
      rintro _ s₂ ⟨hs₂, hstays⟩
      rw [wp_bind, wp_update]
      refine ⟨fun o₂ ho₂ => ?_, fun _ => hs₂.served⟩
      rw [wp_bind, wp_modify]
      have hp₂ := hstays.object o₂ ho₂
      have hm := hs₂.marks o₂ (Option.bind_eq_some_iff.2 ⟨p, hp₂, ho₂⟩)
      have hk := hs₂.knows
      have hs₃ : Serve r i (s₂.setObject p
          (some { o₂ with firstPacketSent := true, continueReceived := false })) := by
        refine hs₂.mark hp₂ _ ⟨hk.cmd, hk.final, fun _ => hk.complete rfl, hk.req⟩ ?_ hs₂.receiving
          (hs₂.there hp₂)
        exact ⟨hm.cmd, fun _ => hk.complete rfl, hm.checked, fun _ _ => .inr rfl⟩
      rw [show (s₂.setObject p
          (some { o₂ with firstPacketSent := true, continueReceived := false })).mode =
            .srv from hs₃.mode]
      refine hs₃.setState .recv hs₃.knows (fun x hx hm => ?_) (by simp) hs₃.gone (by simp)
      refine ⟨hm.cmd, hm.first, hm.checked, fun _ _ => .inr ?_⟩
      obtain ⟨q, hq, hx⟩ := Option.bind_eq_some_iff.1 hx
      cases hp₂.symm.trans hq
      cases (objects_setObject _ _ _).symm.trans hx
      rfl
    · rw [wp_bind, wp_get]
      refine wp_ite.2 ⟨fun _ => ?_, fun hm => absurd hs₁.mode hm⟩
      refine wp_seq (serve_last hcalls _ hj rfl fun _ => ⟨hc₁, fun hr => hcode (by omega) hr o₁ ho₁⟩)
        fun _ s₂ hs₂ => ?_
      rw [wp_bind, wp_modify]
      exact hi hs₂.idle ⟨rfl, rfl, rfl, rfl⟩ (hs₂.gone rfl)

/-- A call that the guard lets through. -/
theorem serve_call (c : Call) {s : Obex} (hs : Serve r i s) (hg : serviceCall r c s = true) :
    wp (api (E.ctx (serviceGuard r) n) c) (fun _ => Serve r i) (fun _ => Served r) s := by
  cases hc : c.passive with
  | true =>
    have hbase : AppBase c (Serve r i) (fun _ => Served r) := ⟨serve_stops, fun _ h => h.fresh,
      fun _ _ _ _ h ho hstep => h.setObject ho hstep.marked, fun _ o h _ _ => h.new o,
      fun _ q h => h.delete q⟩
    refine hbase.passive hc (fun rx tx h => ?_) s hs
    rw [h]
    refine Keeps.get_bind fun s hs => Keeps.ite (fun _ => Keeps.pure _) fun _ =>
      Keeps.ite (fun _ => Keeps.pure _) fun _ => Keeps.ite (fun _ => Keeps.pure _) fun _ => ?_
    exact Keeps.bind (Keeps.set (hs.of_eq rfl rfl rfl rfl rfl rfl)) fun _ => Keeps.pure _
  | false =>
    cases c with
    | request p => cases hg
    | cancelRequest nice =>
      cases nice with
      | true => cases hg
      | false =>
        rw [api, obexCancelrequest, wp_bind, wp_get]
        refine wp_ite.2 ⟨fun _ => hs, fun _ => ?_⟩
        rw [if_pos (by simp)]
        refine wp_seq (serve_last hcalls _ hs rfl (by simp)) fun _ s₁ hs₁ => ?_
        have hn₁ : s₁.object = none := hs₁.gone rfl
        rw [wp_bind, wp_modify, wp_bind, wp_modify]
        have hs₂ : Serve r { i with gone := true, checking := false, requesting := false }
            ((s₁.setTxMsg (bufReuse s₁.txMsg)).setRxMsg
              (bufReuse (s₁.setTxMsg (bufReuse s₁.txMsg)).rxMsg)) := hs₁.of_eq rfl rfl rfl rfl rfl rfl
        have hlink := hs₂.nobody (e := .linkerr) hn₁ 0 0 (by simp) (by simp) rfl
        refine wp_seq (serve_deliver hcalls hlink) fun _ s₃ hs₃ => ?_
        have hk := hs₃.knows
        exact hs₃.of_gone (hs₃.gone rfl) ⟨hk.cmd, hk.final, hk.complete, hk.req⟩ hs₃.receiving
    | resumeRequest => exact serve_resume hcalls hs hg
    | _ => cases hc

end

theorem serve_calls (n : Nat) : ∀ i m, m < n → ∀ c s, Serve r i s → serviceCall r c s = true →
    wp (api (E.ctx (serviceGuard r) m) c) (fun _ => Serve r i) (fun _ => Served r) s := by
  induction n with
  | zero =>
    intro i m hm
    omega
  | succ n ih => exact fun i m hm c s hs hg => serve_call (fun j k hk => ih j k (by omega)) c hs hg

/-! ## Runs -/

theorem serve_dispatch {c : UInt8} {final : Bool} {s : Obex} (hs : Serve r (atRest c) s)
    (hw : Whole s final) :
    wp (dispatch (E.ctx (serviceGuard r) n) final) (fun _ s' => ∃ c, Serve r (atRest c) s')
      (fun _ => Served r) s := by
  obtain ⟨h3, op, hop, rfl⟩ := hw
  obtain ⟨d, hd⟩ : ∃ d, s.rxMsg.contents = op :: d := by
    cases hc : s.rxMsg.contents with
    | nil =>
      rw [hc] at hop
      cases hop
    | cons x d =>
      rw [hc] at hop
      cases hop
      exact ⟨d, rfl⟩
  have hfinal : hasFinal s.rxMsg.contents = decide (op &&& obexFinal ≠ 0) := by rw [hd]; rfl
  have hs' := hs.received s.rxMsg.contents
  rw [dispatch, ctx_recv, wp_bind]
  refine wp_packetReceived (fun hg => ?_) hs'.served
  rw [wp_bind, wp_get]
  have hm : (s.emit (.recv s.rxMsg.contents)).mode = .srv := hs'.mode
  rw [hm]
  rw [hfinal] at hs'
  refine wp_seq (serve_server (serve_calls n) hs' (fun hf => ?_) fun hr hst op' hop' => ?_) ?_
  rotate_left 2
  · rintro _ s₁ ⟨c, hs₁⟩
    exact ⟨c, hs₁.of_eq rfl rfl rfl rfl rfl rfl⟩
  · rw [Obex.emit, service_append]
    exact hfinal.trans hf
  · have hreach : s.rxMsg.reach[0]? = some op := by rw [Buf.reach, hd]; rfl
    cases hreach.symm.trans hop'
    subst hr
    simp only [serviceGuard, servicePacket, hd, List.head?_cons, Option.all_some,
      decide_eq_true_eq] at hg
    have hg := hg.resolve_left (not_not_intro hst)
    rwa [hs.knows.cmd] at hg

/-- In every run without a resume that breaks the rule, the rule is kept. -/
theorem service_runs (E : Env) (r : Rule) (t : TransportType) (n : Nat) (ops : List Op) :
    wp (run (E.ctx (serviceGuard r) n) (serviceGuard r) ops) (fun _ s => Served r s)
      (fun _ s => Served r s) (obexInit t) := by
  have hinit : Serve r (atRest 0) (obexInit t) := by
    refine ⟨Steps.nil, rfl, rfl, ?_, ?_, ⟨rfl, ?_, ?_, ?_⟩, fun o ho => ?_, ?_, ?_, ?_⟩
    case refine_6 => exact absurd ho (current_of_none rfl o)
    all_goals simp [obexInit, heard, atRest, service, after]
  have hread (s : Obex) (x : Option Bytes) (h : ∃ c, Serve r (atRest c) s) :
      ∃ c, Serve r (atRest c) (s.emit (.read x)) :=
    h.imp fun _ h => h.emit rfl (by cases r <;> trivial) (by simp)
  have hstop : Stops (fun s => ∃ c, Serve r (atRest c) s) fun _ => Served r := by
    rintro _ s _ ⟨c, h⟩
    exact h.served
  have hframe : ReadFrame (serviceGuard r) (fun s => ∃ c, Serve r (atRest c) s)
    (fun _ => Served r) False :=
    ⟨hstop, fun _ _ h => h.imp fun _ h => h.of_eq rfl rfl rfl rfl rfl rfl, hread, by simp⟩
  have hlast (s : Obex) (c : UInt8) (h : Serve r (atRest c) s) :
      wp (obexDeliverEvent (E.ctx (serviceGuard r) n) .linkerr 0 0 true) (fun _ => Serve r (atRest c))
        (fun _ => Served r) s :=
    wp_conseq (serve_last (serve_calls n) 0 h rfl (by simp)) fun _ _ h => h.rest rfl rfl
  have hind (buf : Option Bytes) (buflen : Int) : Keeps (fun s => ∃ c, Serve r (atRest c) s)
      (fun _ => Served r) (obexDataIndication (E.ctx (serviceGuard r) n) buf buflen) := by
    intro s hs
    refine wp_dataIndication hstop (fun _ h => h) (fun max buf buflen hmax =>
      hframe.obexTransportRead buf buflen hmax (by simp) (by simp) (by simp)) ?_ hs ?_
    · rintro s final ⟨c, hs⟩ hw
      exact serve_dispatch hs hw
    · rintro - - s actual ⟨c, hs⟩
      exact wp_seq (hlast s c hs) fun _ _ h => ⟨c, h⟩
  have hcall (c : Call) (s : Obex) (hs : ∃ i, Serve r (atRest i) s) (hg : serviceCall r c s = true) :
      wp (api (E.ctx (serviceGuard r) n) c) (fun _ s => ∃ i, Serve r (atRest i) s) (fun _ => Served r)
        s := by
    obtain ⟨i, hs⟩ := hs
    exact wp_conseq (serve_call (serve_calls n) c hs hg) fun _ _ h => ⟨i, h⟩
  have hserved (s : Obex) (h : ∃ i, Serve r (atRest i) s) : Served r s := by
    obtain ⟨i, h⟩ := h
    exact h.served
  have hrun := holds_run hserved hcall
    (fun _ _ h => h.imp fun _ h => h.of_eq rfl rfl rfl rfl rfl rfl) hind ops _ ⟨0, hinit⟩
  exact wp_mono hrun (fun _ s h => hserved s h) fun _ _ h => h

end

/-! ## The two rules -/

/-- In every run whose resumes find the request complete and send a final packet, the responses are
final and the last one answers a complete request. -/
theorem responses_final (E : Env) (t : TransportType) (n : Nat) (ops : List Op) :
    wp (run (E.ctx (serviceGuard .responses) n) (serviceGuard .responses) ops)
      (fun _ s => Served .responses s) (fun _ s => Served .responses s) (obexInit t) :=
  service_runs E .responses t n ops

/-- In every run whose resumes find the request complete and do not take a response code for its
command, the events of a request come in order. -/
theorem events_in_order (E : Env) (t : TransportType) (n : Nat) (ops : List Op) :
    wp (run (E.ctx (serviceGuard .events) n) (serviceGuard .events) ops)
      (fun _ s => Served .events s) (fun _ s => Served .events s) (obexInit t) :=
  service_runs E .events t n ops

/-! ## A request that is resumed too early -/

/-- An application that accepts a PUT and suspends it before its last packet. -/
def suspendingServer : Env := { quietPeer with
  app := fun log => match log.getLast? with
    | some (.event n) =>
      if n.event = .reqcheck then [.objectSetRsp 0 0x10 0x20, .suspendRequest none] else []
    | _ => [] }

/-- The first packet of the PUT, and a resume. -/
def resumedEarly : List Op := [.customDataFeed [0x02, 0x00, 0x03], .call .resumeRequest]

/-- The PUT is concluded with a SUCCESS before its last packet has come. -/
theorem early_success :
    ¬ ∀ (E : Env) (t : TransportType) (n : Nat) (ops : List Op),
      wp (run (E.ctx .all n) .all ops) (fun _ s => Served .responses s)
        (fun _ s => Served .responses s) (obexInit t) := by
  intro h
  have hrun := h suspendingServer .custom 9 resumedEarly
  have hend : endsWith (run (suspendingServer.ctx .all 9) .all resumedEarly) (obexInit .custom)
      (fun s => decide (s.log[4]? = some (.write (some 0) .last [0xa0, 0x00, 0x03])) &&
        !(service (s.log.take 4)).complete) = true := by
    decide +kernel
  obtain ⟨-, s, hs, hr⟩ := exists_of_endsWith hend hrun
  simp only [Bool.and_eq_true, decide_eq_true_eq] at hs
  obtain ⟨hwrite, hcomplete⟩ := hs
  obtain ⟨-, hlast⟩ := hr.entries.getElem? hwrite
  obtain ⟨-, h⟩ := hlast rfl
  rw [h] at hcomplete
  cases hcomplete

/-- The PUT is done without `OBEX_EV_REQ`, under the command 0x10. -/
theorem early_reqdone :
    ¬ ∀ (E : Env) (t : TransportType) (n : Nat) (ops : List Op),
      wp (run (E.ctx .all n) .all ops) (fun _ s => Served .events s)
        (fun _ s => Served .events s) (obexInit t) := by
  intro h
  have hrun := h suspendingServer .custom 9 resumedEarly
  have hend : endsWith (run (suspendingServer.ctx .all 9) .all resumedEarly) (obexInit .custom)
      (fun s => decide (s.log[6]? =
          some (.event { mode := .srv, object := some 0, event := .reqdone, cmd := 0x10, rsp := 0
                         data := none })) &&
        decide ((service (s.log.take 6)).cmd = 0x02)) = true := by
    decide +kernel
  obtain ⟨-, s, hs, hr⟩ := exists_of_endsWith hend hrun
  simp only [Bool.and_eq_true, decide_eq_true_eq] at hs
  obtain ⟨hevent, hcmd⟩ := hs
  have hentry := hr.entries.getElem? hevent (by simp)
  obtain ⟨-, h⟩ := hentry.2.2.2 rfl
  rw [hcmd] at h
  exact absurd h (by decide)

end OpenObex
