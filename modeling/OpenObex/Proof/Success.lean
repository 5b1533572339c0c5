import OpenObex.Lib.Trace
import OpenObex.Proof.Law

/-!
# What a success means to the client

An `OBEX_EV_REQDONE` with `OBEX_RSP_SUCCESS` tells the client that its object has been taken whole. The
client does not compare the response with its own progress: a peer that answers `OBEX_RSP_SUCCESS` to an
intermediate packet ends the request with headers still in the queue. `successGuard` bars such an
answer, a change of the object after its last packet, and a new request from inside the callback that
reads the body of a response; in every run without them a success is true (`success_true`).
-/

namespace OpenObex

open Mem Prog Trace

/-! ## The last packet -/

/-- The last packet of the object at `p` has been written. -/
def lastSent (log : List Obs) (p : Ptr) : Bool := log.any fun x => match x with
  | .write (some q) .last _ => decide (q = p)
  | _ => false

theorem lastSent_iff {log : List Obs} {p : Ptr} :
    lastSent log p = true ↔ ∃ d, .write (some p) .last d ∈ log := by
  rw [lastSent, List.any_eq_true]
  constructor
  · rintro ⟨x, hx, h⟩
    split at h
    · rw [of_decide_eq_true h] at hx
      exact ⟨_, hx⟩
    · cases h
  · rintro ⟨d, hd⟩
    exact ⟨_, hd, by simp⟩

/-- A success is reported for an object whose last packet has been written. -/
def SuccessEntry (log : List Obs) (x : Obs) : Prop :=
  ∀ n, x = .event n → n.event = .reqdone → n.rsp = obexRspSuccess →
    ∃ p d, n.object = some p ∧ .write (some p) .last d ∈ log

/-- Every success was true: the last packet had been written, and an object whose last packet has been
written has nothing left in its queue and has sent its last opcode. -/
structure SuccessTrue (s : Obex) : Prop where
  entries : Steps SuccessEntry s.log
  settled : ∀ p d o, .write (some p) .last d ∈ s.log → s.objects p = some o →
    o.txHeaderq = [] ∧ d.head? = some (o.lastopcode ||| obexFinal)

/-! ## The steps that lead to a false success -/

/-- The call leaves an object alone whose last packet has been written. -/
def successCall (c : Call) (s : Obex) : Bool := match c with
  | .objectAddHeader p _ _ _ flags => flags.streamData || flags.streamDataend || !lastSent s.log p
  | .objectSetRsp p _ _ => !lastSent s.log p
  | _ => true

/-- The response of success in `rx_msg` comes for an object that is aborted or has been sent. -/
def successDue (s : Obex) : Bool := match s.object, s.current with
  | some p, some o => o.abort || lastSent s.log p
  | _, _ => true

def successGuard : Guard where
  op op s := match op with
    | .call c => successCall c s
    | _ => true
  nested c s := successCall c s
  after n s := !decide (n.event = .streamavail) || s.object.isNone || decide (s.object = n.object)
  recv s := !decide (s.mode = .cli ∧ s.state = .recv ∧
    s.rxMsg.reach[0]?.map withoutFinal = some obexRspSuccess) || successDue s

theorem successCall_spec {c : Call} {s : Obex} {p : Ptr} (h : successCall c s = true)
    (hp : lastSent s.log p = true) : c.adds p = false ∧ c.sets p = false := by
  cases c with
  | objectAddHeader q hi hv m fl =>
    refine ⟨?_, rfl⟩
    by_cases hq : q = p
    · subst hq
      simp only [successCall, hp, Bool.not_true, Bool.or_false, Bool.or_eq_true] at h
      rcases h with h | h <;> simp [Call.adds, h]
    · simp [Call.adds, hq]
  | objectSetRsp q r l =>
    refine ⟨rfl, ?_⟩
    have hne : q ≠ p := by
      rintro rfl
      simp [successCall, hp] at h
    simp [Call.sets, hne]
  | _ => exact ⟨rfl, rfl⟩

/-! ## The invariant -/

/-- A success may be reported for the object at `p`. -/
def MayEnd (p : Ptr) (s : Obex) : Prop :=
  lastSent s.log p = true ∨ p < s.fresh ∧ ∀ o, s.objects p = some o → o.abort = true

/-- Every success was true, and one may be reported for the object at `i`. -/
structure Honest (i : Option Ptr) (s : Obex) : Prop extends SuccessTrue s where
  bound : ∀ p o, s.objects p = some o → p < s.fresh
  sent : ∀ p, lastSent s.log p = true → p < s.fresh
  mayEnd : ∀ p, i = some p → MayEnd p s

namespace Honest

variable {i : Option Ptr} {s : Obex}

theorem of_eq {t : Obex} (h : Honest i s) (hl : t.log = s.log) (ho : t.objects = s.objects)
    (hf : t.fresh = s.fresh) : Honest i t := by
  refine ⟨⟨by rw [hl]; exact h.entries, by rw [hl, ho]; exact h.settled⟩, by rw [ho, hf]; exact h.bound,
    by rw [hl, hf]; exact h.sent, fun p hp => ?_⟩
  rw [MayEnd, hl, ho, hf]
  exact h.mayEnd p hp

/-- What is asked for one object need not be asked for another. -/
theorem toNone (h : Honest i s) : Honest none s := ⟨h.toSuccessTrue, h.bound, h.sent, by simp⟩

/-- An object that has been sent keeps its empty queue and its last opcode. -/
theorem setObject (h : Honest i s) {q : Ptr} {o o' : ObexObject} (ho : s.objects q = some o)
    (hq : lastSent s.log q = true → o.txHeaderq = [] → o'.txHeaderq = [])
    (hl : lastSent s.log q = true → o'.lastopcode = o.lastopcode)
    (ha : o.abort = true → o'.abort = true) : Honest i (s.setObject q (some o')) := by
  refine ⟨⟨h.entries, fun p d x hd hx => ?_⟩, fun p x hx => ?_, h.sent, fun p hp => ?_⟩
  · rcases objects_setObject_some hx with ⟨rfl, he⟩ | ⟨-, hx⟩
    · cases he
      have hsent : lastSent s.log p = true := lastSent_iff.2 ⟨d, hd⟩
      obtain ⟨h1, h2⟩ := h.settled p d o hd ho
      exact ⟨hq hsent h1, by rw [hl hsent]; exact h2⟩
    · exact h.settled p d x hd hx
  · rcases objects_setObject_some hx with ⟨rfl, -⟩ | ⟨-, hx⟩
    · exact h.bound p o ho
    · exact h.bound p x hx
  · rcases h.mayEnd p hp with hs | ⟨hf, habort⟩
    · exact .inl hs
    refine .inr ⟨hf, fun x hx => ?_⟩
    rcases objects_setObject_some hx with ⟨rfl, he⟩ | ⟨-, hx⟩
    · cases he
      exact ha (habort o ho)
    · exact habort x hx

theorem delete (h : Honest i s) (q : Ptr) : Honest i (s.setObject q none) := by
  have hat {p : Ptr} {x : ObexObject} (hx : (s.setObject q none).objects p = some x) :
      s.objects p = some x := by
    rcases objects_setObject_some hx with ⟨-, hx⟩ | ⟨-, hx⟩
    · cases hx
    · exact hx
  refine ⟨⟨h.entries, fun p d x hd hx => h.settled p d x hd (hat hx)⟩,
    fun p x hx => h.bound p x (hat hx), h.sent, fun p hp => ?_⟩
  exact (h.mayEnd p hp).imp_right fun hm => ⟨hm.1, fun x hx => hm.2 x (hat hx)⟩

theorem fresh (h : Honest i s) : Honest i { s with fresh := s.fresh + 1 } :=
  ⟨⟨h.entries, h.settled⟩, fun p o ho => Nat.lt_succ_of_lt (h.bound p o ho),
    fun p hp => Nat.lt_succ_of_lt (h.sent p hp),
    fun p hp => (h.mayEnd p hp).imp_right fun hm => ⟨Nat.lt_succ_of_lt hm.1, hm.2⟩⟩

theorem new (h : Honest i s) (o : ObexObject) :
    Honest i (({ s with fresh := s.fresh + 1 } : Obex).setObject s.fresh (some o)) := by
  have h' := h.fresh
  refine ⟨⟨h.entries, fun p d x hd hx => ?_⟩, fun p x hx => ?_, h'.sent, fun p hp => ?_⟩
  · have hlt : p < s.fresh := h.sent p (lastSent_iff.2 ⟨d, hd⟩)
    rcases objects_setObject_some hx with ⟨rfl, -⟩ | ⟨-, hx⟩
    · exact absurd hlt (Nat.lt_irrefl _)
    · exact h.settled p d x hd hx
  · rcases objects_setObject_some hx with ⟨rfl, -⟩ | ⟨-, hx⟩
    · exact Nat.lt_succ_self _
    · exact h'.bound p x hx
  · rcases h.mayEnd p hp with hs | ⟨hlt, habort⟩
    · exact .inl hs
    refine .inr ⟨Nat.lt_succ_of_lt hlt, fun x hx => ?_⟩
    rcases objects_setObject_some hx with ⟨rfl, -⟩ | ⟨-, hx⟩
    · exact absurd hlt (Nat.lt_irrefl _)
    · exact habort x hx

/-- One more entry; a last packet ends the sending of its object. -/
theorem emit (h : Honest i s) {x : Obs} (hx : SuccessEntry s.log x)
    (hw : ∀ p d, x = .write (some p) .last d → ∃ o, s.objects p = some o ∧ o.txHeaderq = [] ∧
      d.head? = some (o.lastopcode ||| obexFinal)) : Honest i (s.emit x) := by
  have hmem {p : Ptr} {d : Bytes} (hd : .write (some p) .last d ∈ (s.emit x).log) :
      .write (some p) .last d ∈ s.log ∨ x = .write (some p) .last d := by
    rcases List.mem_append.1 hd with hd | hd
    · exact .inl hd
    · exact .inr (List.mem_singleton.1 hd).symm
  refine ⟨⟨h.entries.append hx, fun p d o hd ho => ?_⟩, h.bound, fun p hp => ?_, fun p hp => ?_⟩
  · rcases hmem hd with hd | hd
    · exact h.settled p d o hd ho
    · obtain ⟨o', ho', hq, hl⟩ := hw p d hd
      cases ho'.symm.trans ho
      exact ⟨hq, hl⟩
  · obtain ⟨d, hd⟩ := lastSent_iff.1 hp
    rcases hmem hd with hd | hd
    · exact h.sent p (lastSent_iff.2 ⟨d, hd⟩)
    · obtain ⟨o, ho, -⟩ := hw p d hd
      exact h.bound p o ho
  · refine (h.mayEnd p hp).imp_left fun hs => ?_
    obtain ⟨d, hd⟩ := lastSent_iff.1 hs
    exact lastSent_iff.2 ⟨d, List.mem_append_left _ hd⟩

/-- An entry that is neither an event nor a packet of an object. -/
theorem note (h : Honest i s) {x : Obs} (hx : ∀ n, x ≠ .event n)
    (hw : ∀ p k d, x ≠ .write (some p) k d) : Honest i (s.emit x) :=
  h.emit (fun n hn => absurd hn (hx n)) fun p d hp => absurd hp (hw p _ d)

theorem requested (h : Honest i s) (p : Ptr) :
    Honest i (({ s with object := some p, mode := .cli, state := .start } : Obex).emit
      (.request p)) := by
  have hs : Honest i { s with object := some p, mode := .cli, state := .start } := h.of_eq rfl rfl rfl
  exact hs.note (by simp) (by simp)

/-- A packet of the object at `p`. -/
theorem packet (h : Honest i s) {p : Ptr} {o : ObexObject} {a f : Bool} {d : Bytes}
    (ho : s.objects p = some o) (hd : d.head? = some (chooseOpcode o a f).2) :
    Honest i (s.emit (.write (some p) (chooseOpcode o a f).1 d)) := by
  refine h.emit (by simp [SuccessEntry]) fun q d' he => ?_
  rw [Obs.write.injEq, Option.some.injEq] at he
  obtain ⟨rfl, hk, rfl⟩ := he
  refine ⟨o, ho, ?_⟩
  unfold chooseOpcode at hk hd
  split at hk
  · cases hk
  split at hk
  · cases hk
  rw [if_neg ‹_›, if_neg ‹_›] at hd
  exact ⟨by simpa using ‹¬ o.txHeaderq ≠ []›, hd⟩

end Honest

theorem successEntry_of_ne {log : List Obs} {n : Notice}
    (h : n.event = .reqdone → n.rsp ≠ obexRspSuccess) : SuccessEntry log (.event n) := by
  intro m hm he hr
  cases hm
  exact absurd hr (h he)

/-- The object a success would be reported for. -/
def asked (rsp : UInt8) (s : Obex) : Option Ptr := if rsp = obexRspSuccess then s.object else none

/-- A response of success is for an object that is aborted or has been sent. -/
def SuccessStart (rsp : UInt8) (s : Obex) : Prop :=
  Honest none s ∧ (s.state = .recv → rsp = obexRspSuccess → successDue s = true)

theorem SuccessStart.opened {rsp : UInt8} {s : Obex} {p : Ptr} {o : ObexObject}
    (h : SuccessStart rsp s) (hst : s.state = .recv) (hp : s.object = some p)
    (ho : s.objects p = some o) : Honest (asked rsp s) s := by
  obtain ⟨hs, hdue⟩ := h
  refine ⟨hs.toSuccessTrue, hs.bound, hs.sent, fun q hq => ?_⟩
  unfold asked at hq
  split at hq
  · have hcur : s.current = some o := by rw [Obex.current, hp, Option.bind_some, ho]
    have hdue := hdue hst ‹_›
    simp only [successDue, hp, hcur, Bool.or_eq_true] at hdue
    cases hp.symm.trans hq
    rcases hdue with ha | hl
    · refine .inr ⟨hs.bound p o ho, fun x hx => ?_⟩
      cases ho.symm.trans hx
      exact ha
    · exact .inl hl
  · cases hq

section
variable {E : Env} {n : Nat}

theorem success_write (i : Option Ptr) (chunk : Bytes) :
    Still (Honest i) ((E.ctx successGuard n).write chunk) :=
  still_write (fun _ _ _ h => h.note (by simp) (by simp)) chunk

section
variable (hcalls : ∀ i, CallsKeep E successGuard (Honest i) n)
include hcalls

theorem success_deliver {i : Option Ptr} {e : Event} {cmd rsp : UInt8} {s : Obex} (hs : Honest i s)
    (he : SuccessEntry s.log (.event (noticeOf s e cmd rsp))) (del : Bool) :
    wp (obexDeliverEvent (E.ctx successGuard n) e cmd rsp del) (fun _ => Honest i) (fun _ => Honest i)
      s := by
  cases del with
  | true =>
    have hnone : Honest i { s with object := none } := hs.of_eq rfl rfl rfl
    exact (hcalls i).deliverLast (fun _ q h => h.delete q) (hnone.emit he (by simp))
  | false => exact wp_conseq ((hcalls i).deliver (hs.emit he (by simp))) fun _ _ h => h.1

theorem success_event {i : Option Ptr} {e : Event} {cmd rsp : UInt8}
    (he : e = .reqdone → rsp ≠ obexRspSuccess) (del : Bool) :
    Still (Honest i) (obexDeliverEvent (E.ctx successGuard n) e cmd rsp del) :=
  fun _ hs => success_deliver hcalls hs (successEntry_of_ne he) del

theorem success_law (i : Option Ptr) :
    Law (E.ctx successGuard n) (fun _ => True) (Honest i) (Honest i) where
  stop _ h := h
  object _ _ _ _ h ho hl := h.setObject ho (fun _ => hl.queue) (fun _ => hl.lastopcode) fun h =>
    by rw [hl.abort, h]
  delete _ q h := h.delete q
  new _ o h _ := h.new o
  fresh _ h := h.fresh
  txMsg _ _ _ h := h.of_eq rfl rfl rfl
  rxMsg _ _ h := h.of_eq rfl rfl rfl
  idle _ h := h.of_eq rfl rfl rfl
  go _ _ _ _ _ _ _ := trivial
  send _ _ _ hs _ _ _ := by
    have htx (s : Obex) (b : Buf) (_ : s.txMsg.buffer.length ≤ b.buffer.length) (h : Honest i s) :
        Honest i (s.setTxMsg b) := h.of_eq rfl rfl rfl
    refine ⟨Honest i, Honest i, hs, ⟨fun _ h => h, ?_, htx, success_event hcalls (by simp) _, ?_, htx,
      success_write i, fun _ h => h⟩, fun _ h => ⟨h, trivial⟩⟩
    · exact fun _ _ _ _ h ho hl =>
        h.setObject ho (fun _ => hl.queue) (fun _ => hl.lastopcode) fun h => by rw [hl.abort, h]
    · exact fun _ _ _ _ _ h ho hd => h.packet ho hd
  stream := RxFrame.stream ⟨stops_still _, Holds.selfObject fun _ h => h, fun _ _ h =>
    h.of_eq rfl rfl rfl, fun _ h => h.fresh,
    fun _ _ _ _ h ho hr =>
      h.setObject ho (fun _ => hr.libStep.queue) (fun _ => hr.libStep.lastopcode)
        fun h => by rw [hr.libStep.abort, h],
    success_event hcalls (by simp) _⟩
  event _ _ _ s he hs := success_event hcalls (by rintro rfl; cases he) _ s hs
  final _ _ _ s _ hr hs := success_event hcalls (fun h => (hr h).1) _ s hs

theorem success_serverLaw : ServerLaw (E.ctx successGuard n) (Honest none) (fun _ => Honest none)
    (fun _ => True) (Honest none) (Honest none) (Honest none) where
  toLaw := success_law hcalls none
  ready _ _ := trivial
  writeTx _ _ _ h := h.of_eq rfl rfl rfl
  write := success_write none
  written _ h := h
  srv _ _ h := h.of_eq rfl rfl rfl
  response _ _ h := h.note (by simp) (by simp)
  denied _ h := h.note (by simp) (by simp)
  disconnect _ h := h.of_eq rfl rfl rfl
  start _ h := h
  hint _ _ hs _ _ _ := by
    refine success_event hcalls (by simp) _ _ ?_
    exact (hs.new _).of_eq rfl rfl rfl
  hinted _ _ h := h
  connect _ h := h.of_eq rfl rfl rfl

/-- The body of a response is read from the current object. -/
theorem success_streamavail (rsp : UInt8) :
    Keeps (fun s => Honest (asked rsp s) s) (fun _ => Honest none)
      (obexDeliverEvent (E.ctx successGuard n) .streamavail 0 0 false) := by
  intro s hs
  have hemit : Honest (asked rsp s) (s.emit (.event (noticeOf s .streamavail 0 0))) :=
    hs.emit (successEntry_of_ne (by simp [noticeOf])) (by simp)
  refine wp_mono ((hcalls _).deliver hemit) (fun _ s' h => ?_) fun _ _ h => h.toNone
  obtain ⟨hs', hafter⟩ := h
  have hobject : s'.object = none ∨ s'.object = s.object := by
    simpa [successGuard, noticeOf] using hafter
  rcases hobject with hn | he
  · have hasked : asked rsp s' = none := by simp [asked, hn]
    rw [hasked]
    exact hs'.toNone
  · have hasked : asked rsp s' = asked rsp s := by rw [asked, asked, he]
    rw [hasked]
    exact hs'

theorem success_receive (rsp : UInt8) : Keeps (fun s => Honest (asked rsp s) s) (fun _ => Honest none)
    (obexObjectReceive (E.ctx successGuard n)) := by
  refine RxFrame.receive ⟨fun _ _ _ h => h.toNone, ?_, fun _ _ h => h.of_eq rfl rfl rfl,
    fun _ h => h.fresh, fun _ _ _ _ h ho hr => ?_, success_streamavail hcalls rsp⟩
  · intro s hs
    rw [wp_selfObject]
    exact ⟨fun _ _ => hs, fun _ => hs.toNone⟩
  · exact h.setObject ho (fun _ => hr.libStep.queue) (fun _ => hr.libStep.lastopcode) fun h => by
      rw [hr.libStep.abort, h]

theorem success_done {rsp : UInt8} {s : Obex} (hs : Honest (asked rsp s) s) :
    wp (clientDone (E.ctx successGuard n) rsp) (fun _ => Honest none) (fun _ => Honest none) s := by
  rw [clientDone, wp_bind, setState, wp_modify, wp_bind, wp_selfObject]
  have hs' : Honest (asked rsp s) (s.setState .srv .idle) := hs.of_eq rfl rfl rfl
  refine ⟨fun p hp => ?_, fun _ => hs'.toNone⟩
  rw [wp_bind, wp_deref]
  refine ⟨fun o ho => ?_, fun _ => hs'.toNone⟩
  refine wp_seq (success_deliver hcalls hs'.toNone ?_ true) fun _ _ h => h
  intro m hm he hr
  cases hm
  have hp : s.object = some p := hp
  have ho : s.objects p = some o := ho
  have hrsp : rsp = obexRspSuccess := hr
  have habort : o.abort ≠ true := by
    intro ha
    simp only [noticeOf, ha, if_true, hrsp] at he
    cases he
  rcases hs.mayEnd p (by rw [asked, if_pos hrsp]; exact hp) with hl | ⟨-, ha⟩
  · obtain ⟨d, hd⟩ := lastSent_iff.1 hl
    exact ⟨p, d, hp, hd⟩
  · exact absurd (ha o ho) habort

theorem success_clientLaw : ClientLaw (E.ctx successGuard n) SuccessStart
    (fun rsp s => Honest (asked rsp s) s) (fun _ => True) (Honest none) where
  toLaw := success_law hcalls none
  cli _ _ _ h := h.of_eq rfl rfl rfl
  first _ _ _ _ _ _ _ _ := trivial
  start _ _ h := h.1
  opened _ _ _ _ h hst hp ho := h.opened hst hp ho
  connect _ _ _ _ h hst hp ho _ := (h.opened hst hp ho).of_eq rfl rfl rfl
  answer _ _ h := h.toNone
  offset _ _ _ _ _ h ho := h.setObject ho (fun _ hq => hq) (fun _ => rfl) id
  disconnect _ _ h := h.of_eq rfl rfl rfl
  receive rsp := success_receive hcalls rsp
  done _ _ h _ := success_done hcalls h
  unexpected _ s h _ _ := (success_law hcalls none).clientSend
    (fun _ _ _ h => h.of_eq rfl rfl rfl) (fun _ _ => trivial) _ s h.1

/-- A call that the guard lets through. -/
theorem success_call_step {i : Option Ptr} {c : Call} {s : Obex} (hs : Honest i s)
    (hg : successCall c s = true) :
    wp (api (E.ctx successGuard n) c) (fun _ => Honest i) (fun _ => Honest i) s := by
  cases hc : c.passive with
  | true =>
    -- the log stays as the guard has seen it
    have hbase : AppBase c (fun s' => Honest i s' ∧ s'.log = s.log) (fun _ => Honest i) := by
      refine ⟨fun _ _ _ h => h.1, fun _ h => ⟨h.1.fresh, h.2⟩, fun s' p o o' h ho hstep => ⟨?_, h.2⟩,
        fun _ o h _ _ => ⟨h.1.new o, h.2⟩, fun _ p h => ⟨h.1.delete p, h.2⟩⟩
      have hspec (hp : lastSent s'.log p = true) := successCall_spec hg (by rwa [h.2] at hp)
      refine h.1.setObject ho (fun hp hq => ?_) (fun hp => hstep.codes (hspec hp).2) fun ha => ?_
      · rw [hstep.queue (hspec hp).1, hq]
      · have habort : o'.abort = o.abort := congrArg Prod.fst hstep.flags
        rw [habort, ha]
    refine wp_conseq (hbase.passive hc (fun rx tx h => ?_) s ⟨hs, rfl⟩) fun _ _ h => h.1
    subst h
    refine Keeps.get_bind fun s' hs' => Keeps.ite (fun _ => Keeps.pure _) fun _ =>
      Keeps.ite (fun _ => Keeps.pure _) fun _ => Keeps.ite (fun _ => Keeps.pure _) fun _ => ?_
    exact Keeps.bind (Keeps.set ⟨hs'.1.of_eq rfl rfl rfl, hs'.2⟩) fun _ => Keeps.pure _
  | false =>
    cases c with
    | request p =>
      exact (success_law hcalls i).requestCall (fun _ _ _ h => h.of_eq rfl rfl rfl) hs
        fun _ => ⟨hs.requested p, trivial⟩
    | cancelRequest nice =>
      cases nice with
      | true =>
        refine CancelLaw.cancel ⟨fun _ o h _ => h.new o, fun _ q h => h.delete q,
          fun _ _ _ h => h.of_eq rfl rfl rfl, success_write i, fun s q o d h ho hq hl hd => ?_,
          fun s p o h _ ho => ?_⟩ s hs
        · refine h.emit (by simp [SuccessEntry]) fun p d' he => ?_
          cases he
          exact ⟨o, ho, hq, by rw [hl]; exact hd⟩
        · have hflag : Honest i (s.setObject p (some { o with abort := true })) :=
            h.setObject ho (fun _ hq => hq) (fun _ => rfl) fun _ => rfl
          exact hflag.of_eq rfl rfl rfl
      | false => exact (success_law hcalls i).cancelHard (success_event hcalls (by simp) _) s hs
    | resumeRequest =>
      rw [api, obexResumeRequest, wp_bind, wp_get]
      cases hp : s.object with
      | none => exact hs
      | some p =>
        exact (success_law hcalls i).resume (fun _ h => h.of_eq rfl rfl rfl) hs hp
          fun _ _ _ _ => trivial
    | _ => cases hc

end

theorem success_calls (n : Nat) (i : Option Ptr) : CallsKeep E successGuard (Honest i) n :=
  callsKeep (fun _ hcalls _ _ _ hs hg => success_call_step hcalls hs hg) n i

theorem success_dispatch (final : Bool) :
    Still (Honest none) (dispatch (E.ctx successGuard n) final) := by
  have hrecv {s : Obex} (hs : Honest none s) : Honest none (s.emit (.recv s.rxMsg.contents)) :=
    hs.note (by simp) (by simp)
  refine still_dispatch (fun _ _ h => h.of_eq rfl rfl rfl) (fun _ => hrecv)
    (fun s final hs _ _ => (success_serverLaw (success_calls n)).server final (hrecv hs))
    (fun s hs hg hm => ?_) final
  refine (success_clientLaw (success_calls n)).client (fun op hop => ⟨hrecv hs, fun hst hr => ?_⟩)
    (hrecv hs)
  have hst : s.state = .recv := hst
  have hop : s.rxMsg.reach[0]? = some op := hop
  have hdue : lastSent (s.log ++ [.recv s.rxMsg.contents]) = lastSent s.log := by
    funext p
    simp [lastSent]
  have hg : successDue s = true := by simpa [successGuard, hm, hst, hop, hr] using hg
  simpa only [successDue, Obex.current, Obex.emit, hdue] using hg

/-- In every run in which the peer answers success only to a last packet, and the application leaves an
object alone that has been sent, every success is true. -/
theorem success_true (E : Env) (t : TransportType) (n : Nat) (ops : List Op) :
    wp (run (E.ctx successGuard n) successGuard ops) (fun _ s => SuccessTrue s)
      (fun _ s => SuccessTrue s) (obexInit t) := by
  have hinit : Honest none (obexInit t) := by
    refine ⟨⟨Steps.nil, ?_⟩, ?_, ?_, ?_⟩ <;> simp [obexInit, lastSent]
  have hind (buf : Option Bytes) (buflen : Int) :
      Still (Honest none) (obexDataIndication (E.ctx successGuard n) buf buflen) :=
    still_indication (fun _ _ h => h.of_eq rfl rfl rfl) (fun _ _ h => h.note (by simp) (by simp))
      (success_event (success_calls n) (by simp) _) success_dispatch buf buflen
  have hrun := holds_run (fun _ h => h) (fun c s hs hg => success_call_step (success_calls n) hs hg)
    (fun _ _ h => h.of_eq rfl rfl rfl) hind ops _ hinit
  exact wp_mono hrun (fun _ s h => h.toSuccessTrue) fun _ s h => h.toSuccessTrue

end

/-! ## A peer that is done too early -/

/-- A PUT whose body takes two packets, and a peer that answers success to the first. -/
def hastyPut : List Op := [.call (.objectNew 0x02),
  .call (.objectAddHeader 0 obexHdrBody { bs := some (List.replicate 300 0) } 300 {}),
  .call (.request 0), .customDataFeed [0xa0, 0x00, 0x03]]

def putSuccess : Notice :=
  { mode := .srv, object := some 0, event := .reqdone, cmd := 2, rsp := 0x20, data := none }

/-- The application is told of a success, and the rest of the body has not been sent. -/
theorem half_a_body_succeeds :
    ¬ ∀ (E : Env) (t : TransportType) (n : Nat) (ops : List Op),
      wp (run (E.ctx .all n) .all ops) (fun _ s => SuccessTrue s) (fun _ s => SuccessTrue s)
        (obexInit t) := by
  intro h
  have hrun := h quietPeer .custom 9 hastyPut
  have hend : endsWith (run (quietPeer.ctx .all 9) .all hastyPut) (obexInit .custom)
      (fun s => decide (s.log.getLast? = some (.event putSuccess)) && !lastSent s.log 0) = true := by
    decide +kernel
  obtain ⟨-, s, hs, hr⟩ := exists_of_endsWith hend hrun
  simp only [Bool.and_eq_true, decide_eq_true_eq, Bool.not_eq_true'] at hs
  obtain ⟨hlast, hno⟩ := hs
  obtain ⟨l, hl⟩ := List.getLast?_eq_some_iff.1 hlast
  obtain ⟨p, d, hp, hd⟩ := hr.entries l _ (by rw [hl]) _ rfl rfl rfl
  cases hp
  have hsent : lastSent s.log 0 = true :=
    lastSent_iff.2 ⟨d, by rw [hl]; exact List.mem_append_left _ hd⟩
  rw [hno] at hsent
  cases hsent

end OpenObex
