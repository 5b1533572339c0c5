import OpenObex.Lib.Trace
import OpenObex.Proof.Law

/-!
# The role of the handle

While an incoming request is served the handle stays in server mode: its events are delivered in that
mode, and the packets written are bare responses or packets of its object. `OBEX_CancelRequest` with
an ABORT knows nothing of the role and makes a client of the server; `roleGuard` bars this call, and
every run without it keeps its role (`role_stable`).
-/

namespace OpenObex

open Mem Prog Trace

/-! ## The request served -/

/-- `OBEX_EV_REQHINT` begins the service of a request, the last event of its object ends it. -/
def servingStep (w : Option Ptr) : Obs → Option Ptr
  | .event n =>
    if n.event = .reqhint then n.object
    else if n.event.final = true ∧ n.object = w then none
    else w
  | _ => w

/-- The object of the request being served. -/
def serving (log : List Obs) : Option Ptr := after servingStep none log

@[simp] theorem serving_append (log : List Obs) (x : Obs) :
    serving (log ++ [x]) = servingStep (serving log) x := after_append _ _ _ _

/-- What may happen while the request at `p` is served. -/
def InRole (p : Ptr) : Obs → Prop
  | .event n => n.mode = .srv
  | .write object _ _ => object = none ∨ object = some p
  | .request _ => False
  | _ => True

/-- A request is heard of in server mode, and what happens during its service is in its role. -/
def RoleEntry (log : List Obs) (x : Obs) : Prop :=
  (∀ n, x = .event n → n.event = .reqhint → n.mode = .srv) ∧ ∀ p, serving log = some p → InRole p x

/-- The handle has kept its role, and keeps it while a request is served. -/
structure RoleStable (s : Obex) : Prop where
  entries : Steps RoleEntry s.log
  current : ∀ p, serving s.log = some p → s.mode = .srv ∧ s.object = some p

/-! ## The call that makes a client of the server -/

/-- The call does not answer a request with an ABORT; without memory it does nothing. -/
def roleCall (malloc : Nat → Bool) (c : Call) (s : Obex) : Bool := match c with
  | .cancelRequest true => (serving s.log).isNone || !malloc sizeofObject
  | _ => true

def roleGuard (malloc : Nat → Bool) : Guard where
  op op s := match op with
    | .call c => roleCall malloc c s
    | _ => true
  nested c s := roleCall malloc c s

/-! ## The invariant -/

/-- The handle keeps its role, and serves no other request than the one at `w`. -/
structure Role (w : Option Ptr) (s : Obex) : Prop extends RoleStable s where
  only : serving s.log = none ∨ serving s.log = w

namespace RoleStable

variable {s : Obex}

theorem of_eq {t : Obex} (h : RoleStable s) (hl : t.log = s.log)
    (hc : serving s.log ≠ none → t.mode = .srv ∧ t.object = s.object) : RoleStable t := by
  refine ⟨by rw [hl]; exact h.entries, fun p hp => ?_⟩
  rw [hl] at hp
  obtain ⟨h1, h2⟩ := hc (by rw [hp]; simp)
  exact ⟨h1, by rw [h2]; exact (h.current p hp).2⟩

theorem mode (h : RoleStable s) (hne : serving s.log ≠ none) : s.mode = .srv := by
  cases hw : serving s.log with
  | none => exact absurd hw hne
  | some q => exact (h.current q hw).1

theorem emit (h : RoleStable s) {x : Obs} (hx : ∀ n, x ≠ .event n)
    (hr : ∀ p, serving s.log = some p → InRole p x) : RoleStable (s.emit x) := by
  have hstep : servingStep (serving s.log) x = serving s.log := by
    cases x with
    | event n => exact absurd rfl (hx n)
    | _ => rfl
  refine ⟨h.entries.append ⟨fun n hn => absurd hn (hx n), hr⟩, fun p hp => ?_⟩
  rw [Obex.emit, serving_append, hstep] at hp
  exact h.current p hp

end RoleStable

namespace Role

variable {w : Option Ptr} {s : Obex}

theorem of_eq {t : Obex} (h : Role w s) (hl : t.log = s.log)
    (hc : serving s.log ≠ none → t.mode = .srv ∧ t.object = s.object) : Role w t :=
  ⟨h.toRoleStable.of_eq hl hc, by rw [hl]; exact h.only⟩

theorem same {t : Obex} (h : Role w s) (hl : t.log = s.log) (hm : t.mode = s.mode)
    (ho : t.object = s.object) : Role w t :=
  h.of_eq hl fun hne => ⟨by rw [hm]; exact h.toRoleStable.mode hne, ho⟩

theorem emit (h : Role w s) {x : Obs} (hx : ∀ n, x ≠ .event n)
    (hr : ∀ p, serving s.log = some p → InRole p x) : Role w (s.emit x) := by
  refine ⟨h.toRoleStable.emit hx hr, ?_⟩
  rw [Obex.emit, serving_append]
  cases x with
  | event n => exact absurd rfl (hx n)
  | _ => exact h.only

/-- The request served, if any, is that of the current object. -/
theorem only_current {p : Ptr} (h : Role w s) (hp : s.object = some p) :
    serving s.log = none ∨ serving s.log = some p := by
  cases hw : serving s.log with
  | none => exact .inl rfl
  | some q =>
    obtain ⟨-, hq⟩ := h.current q hw
    rw [hp] at hq
    cases hq
    exact .inr rfl

theorem idle_of_none (h : Role w s) (ho : s.object = none) : serving s.log = none := by
  cases hw : serving s.log with
  | none => rfl
  | some q =>
    obtain ⟨-, hq⟩ := h.current q hw
    rw [ho] at hq
    cases hq

theorem idle (h : Role none s) : serving s.log = none := by simpa using h.only

/-- `OBEX_Request`, when no request is served. -/
theorem requested (h : Role none s) (p : Ptr) :
    Role none (({ s with object := some p, mode := .cli, state := .start } : Obex).emit
      (.request p)) := by
  have hnone : serving s.log = none := h.idle
  have h' : Role none { s with object := some p, mode := .cli, state := .start } :=
    h.of_eq rfl fun hne => absurd hnone hne
  refine h'.emit (by simp) fun q hq => ?_
  have hq : serving s.log = some q := hq
  rw [hnone] at hq
  cases hq

theorem toNone (h : Role w s) (hw : serving s.log = none) :
    Role none s := ⟨h.toRoleStable, .inl hw⟩

theorem ofNone (h : Role none s) : Role w s :=
  ⟨h.toRoleStable, .inl h.idle⟩

/-- An event other than `OBEX_EV_REQHINT`; the object is dropped only by a last event. -/
theorem event (h : Role w s) {e : Event} (cmd rsp : UInt8) {del : Bool} (he : e ≠ .reqhint)
    (hdel : del = true → e.final = true) :
    Role w ((if del then { s with object := none } else s).emit (.event (noticeOf s e cmd rsp))) := by
  have hlog : (if del then { s with object := none } else s).log = s.log := by
    cases del <;> rfl
  have hmode : (if del then { s with object := none } else s).mode = s.mode := by
    cases del <;> rfl
  have hstep : servingStep (serving s.log) (.event (noticeOf s e cmd rsp)) =
      if e.final = true ∧ s.object = serving s.log then none else serving s.log := by
    rw [servingStep]
    exact if_neg he
  have hrole : RoleEntry s.log (.event (noticeOf s e cmd rsp)) := by
    refine ⟨fun n hn hr => ?_, fun p hp => (h.current p hp).1⟩
    cases hn
    exact absurd hr he
  refine ⟨⟨?_, fun p hp => ?_⟩, ?_⟩
  · rw [Obex.emit, hlog]
    exact h.entries.append hrole
  · rw [Obex.emit, hlog, serving_append, hstep] at hp
    by_cases hc : e.final = true ∧ s.object = serving s.log
    · rw [if_pos hc] at hp
      cases hp
    rw [if_neg hc] at hp
    obtain ⟨h1, h2⟩ := h.current p hp
    refine ⟨hmode.trans h1, ?_⟩
    cases del with
    | false => exact h2
    | true => exact absurd ⟨hdel rfl, h2.trans hp.symm⟩ hc
  · rw [Obex.emit, hlog, serving_append, hstep]
    by_cases hc : e.final = true ∧ s.object = serving s.log
    · rw [if_pos hc]
      exact .inl rfl
    · rw [if_neg hc]
      exact h.only

theorem hint {w : Option Ptr} {s : Obex} (h : Role w s) (hm : s.mode = .srv) (ho : s.object = none)
    (c cmd rsp : UInt8) : Role (some s.fresh)
      ((s.incoming c).emit (.event (noticeOf (s.incoming c) .reqhint cmd rsp))) := by
  have hw : serving s.log = none := h.idle_of_none ho
  have hnext : serving ((s.incoming c).emit (.event (noticeOf (s.incoming c) .reqhint cmd rsp))).log =
      some s.fresh := serving_append _ _
  refine ⟨⟨h.entries.append ⟨fun n hn _ => ?_, fun p hp => ?_⟩, fun p hp => ?_⟩, .inr hnext⟩
  · cases hn
    exact hm
  · rw [hw] at hp
    cases hp
  · rw [hnext] at hp
    cases hp
    exact ⟨hm, rfl⟩

end Role

section
variable {E : Env} {n : Nat}

theorem role_write (w : Option Ptr) (chunk : Bytes) :
    Still (Role w) ((E.ctx (roleGuard E.malloc) n).write chunk) :=
  still_write (fun _ _ _ h => h.emit (by simp) fun _ _ => trivial) chunk

section
variable (hcalls : ∀ w, CallsKeep E (roleGuard E.malloc) (Role w) n)
include hcalls

theorem role_event {w : Option Ptr} {e : Event} {cmd rsp : UInt8} {del : Bool} (he : e ≠ .reqhint)
    (hdel : del = true → e.final = true) :
    Still (Role w) (obexDeliverEvent (E.ctx (roleGuard E.malloc) n) e cmd rsp del) := by
  intro s hs
  have hs := hs.event cmd rsp he hdel
  cases del with
  | true => exact (hcalls w).deliverLast (fun _ _ h => h.same rfl rfl rfl) hs
  | false => exact wp_conseq ((hcalls w).deliver hs) fun _ _ h => h.1

/-- The send of an object, while no other request is served. -/
theorem role_sendLaw {w : Option Ptr} {p : Ptr} (hw : w = none ∨ w = some p) {R : Obex → Prop}
    (hR : ∀ s, Role w s → R s) :
    SendLaw (E.ctx (roleGuard E.malloc) n) p (Role w) (Role w) R where
  stop := hR
  object _ _ _ _ h _ _ := h.same rfl rfl rfl
  txMsg _ _ _ h := h.same rfl rfl rfl
  event s hs := wp_mono (role_event hcalls (by simp) (by simp) s hs) (fun _ _ h => h)
    fun _ s h => hR s h
  packet s _ _ _ _ h _ _ := by
    refine h.emit (by simp) fun q hq => .inr ?_
    rcases h.only with h' | h' <;> rcases hw with rfl | rfl <;> simp_all
  writeTx _ _ _ h := h.same rfl rfl rfl
  write := role_write w
  written _ h := h

theorem role_law (w : Option Ptr) :
    Law (E.ctx (roleGuard E.malloc) n) (fun _ => True) (Role w) (Role w) where
  stop _ h := h
  object _ _ _ _ h _ _ := h.same rfl rfl rfl
  delete _ _ h := h.same rfl rfl rfl
  new _ _ h _ := h.same rfl rfl rfl
  fresh _ h := h.same rfl rfl rfl
  txMsg _ _ _ h := h.same rfl rfl rfl
  rxMsg _ _ h := h.same rfl rfl rfl
  idle _ h := h.of_eq rfl fun _ => ⟨rfl, rfl⟩
  go _ _ _ _ _ _ _ := trivial
  send s p _ hs _ hp _ := by
    rcases hs.only_current hp with hw | hw
    · exact ⟨Role none, Role none, hs.toNone hw, role_sendLaw hcalls (.inl rfl) fun _ h => h.ofNone,
        fun s' h => ⟨h.ofNone, trivial⟩⟩
    · have hwp : w = some p := by
        rcases hs.only with h | h
        · rw [hw] at h
          cases h
        · exact h.symm.trans hw
      exact ⟨Role w, Role w, hs, role_sendLaw hcalls (.inr hwp) fun _ h => h, fun s' h => ⟨h, trivial⟩⟩
  stream := RxFrame.stream ⟨stops_still _, Holds.selfObject fun _ h => h, fun _ _ h =>
    h.same rfl rfl rfl, fun _ h => h.same rfl rfl rfl, fun _ _ _ _ h _ _ => h.same rfl rfl rfl,
    role_event hcalls (by simp) (by simp)⟩
  event _ _ _ s he hs := role_event hcalls (by rintro rfl; cases he) (by simp) s hs
  final _ _ _ s he _ hs := role_event hcalls (by rintro rfl; cases he) (fun _ => he) s hs

theorem role_clientLaw : ClientLaw (E.ctx (roleGuard E.malloc) n) (fun _ => Role none)
    (fun _ => Role none) (fun _ => True) (Role none) where
  toLaw := role_law hcalls none
  cli _ _ _ h := h.of_eq rfl fun hne => absurd h.idle hne
  first _ _ _ _ _ _ _ _ := trivial
  start _ _ h := h
  opened _ _ _ _ h _ _ _ := h
  connect _ _ _ _ h _ _ _ _ := h.same rfl rfl rfl
  answer _ _ h := h
  offset _ _ _ _ _ h _ := h.same rfl rfl rfl
  disconnect _ _ h := h.same rfl rfl rfl
  receive _ := (role_law hcalls none).rxStream.receive
  done _ s h _ := (role_law hcalls none).clientDone
    (fun _ s h _ => role_event hcalls (by simp) (by simp) s h) s h
  unexpected _ s h _ _ := (role_law hcalls none).clientSend
    (fun _ _ _ h => h.of_eq rfl fun hne => absurd h.idle hne) (fun _ _ => trivial) _ s h

theorem role_serverLaw : ServerLaw (E.ctx (roleGuard E.malloc) n)
    (fun s => (∃ w, Role w s) ∧ s.mode = .srv) (fun _ s => ∃ w, Role w s) (fun _ => True)
    (fun s => ∃ w, Role w s) (fun s => ∃ w, Role w s) (fun s => ∃ w, Role w s) where
  toLaw := Law.union (role_law hcalls)
  ready _ _ := trivial
  writeTx _ _ _ h := h.imp fun _ h => h.same rfl rfl rfl
  written _ h := h
  write chunk := by
    rintro s ⟨w, hs⟩
    exact wp_mono (role_write w chunk s hs) (fun _ _ hs => ⟨w, hs⟩) fun _ _ hs => ⟨w, hs⟩
  srv _ _ h := h.imp fun _ h => h.of_eq rfl fun _ => ⟨rfl, rfl⟩
  response _ _ h := h.imp fun _ h => h.emit (by simp) fun _ _ => .inl rfl
  denied _ h := h.imp fun _ h => h.emit (by simp) fun _ _ => trivial
  disconnect _ h := h.imp fun _ h => h.same rfl rfl rfl
  start _ h := h.1
  hint := by
    rintro s op ⟨⟨w, h⟩, hm⟩ ho - -
    have hs := h.hint hm ho (withoutFinal op) (withoutFinal op) 0
    exact wp_mono ((hcalls _).deliver hs) (fun _ _ h => ⟨_, h.1⟩) fun _ _ h => ⟨_, h⟩
  hinted _ _ h := h
  connect _ h := h.imp fun _ h => h.same rfl rfl rfl

/-- A call that the guard lets through. -/
theorem role_call_step {w : Option Ptr} {c : Call} {s : Obex} (hs : Role w s)
    (hg : roleCall E.malloc c s = true) :
    wp (api (E.ctx (roleGuard E.malloc) n) c) (fun _ => Role w) (fun _ => Role w) s := by
  cases hc : c.passive with
  | true =>
    have hframe : AppFrame (Role w) (fun _ => Role w) := ⟨stops_still _, fun _ h => h.same rfl rfl rfl,
      fun _ _ _ _ h _ _ => h.same rfl rfl rfl, fun _ _ h => h.same rfl rfl rfl,
      fun _ _ h => h.same rfl rfl rfl, fun _ _ _ _ _ _ _ h => h.same rfl rfl rfl⟩
    exact hframe.passive hc s hs
  | false =>
    cases c with
    | request p =>
      cases ho : s.object with
      | some q =>
        rw [api, obexRequest, wp_bind, wp_get, if_pos (by simp [ho])]
        exact hs
      | none =>
        have hnone : Role none s := hs.toNone (hs.idle_of_none ho)
        have hrequest : wp (obexRequest (E.ctx (roleGuard E.malloc) n) p) (fun _ => Role none)
            (fun _ => Role none) s := (role_law hcalls none).requestCall
          (fun _ _ _ h => h.of_eq rfl fun hne => absurd h.idle hne) hnone
          fun _ => ⟨hnone.requested p, trivial⟩
        exact wp_mono hrequest (fun _ _ h => h.ofNone)
          fun _ _ h => h.ofNone
    | cancelRequest nice =>
      cases nice with
      | true =>
        simp only [roleCall, Bool.or_eq_true, Option.isNone_iff_eq_none, Bool.not_eq_true'] at hg
        rcases hg with hw | hm
        · have hcancel : Still (Role none) (obexCancelrequest (E.ctx (roleGuard E.malloc) n) true) := by
            refine CancelLaw.cancel ⟨fun _ _ h _ => h.same rfl rfl rfl, fun _ _ h => h.same rfl rfl rfl,
              fun _ _ _ h => h.same rfl rfl rfl, role_write none, ?_, ?_⟩
            · exact fun s q _ d h _ _ _ _ => h.emit (by simp) fun p hp => by simp [h.idle] at hp
            · exact fun s _ _ h _ _ => h.of_eq rfl fun hne => absurd h.idle hne
          exact wp_mono (hcancel s (hs.toNone hw)) (fun _ _ h => h.ofNone) fun _ _ h => h.ofNone
        · rw [api, obexCancelrequest, wp_bind, wp_get]
          refine wp_ite.2 ⟨fun _ => hs, fun _ => wp_ite.2 ⟨fun h => absurd h (by simp), fun _ => ?_⟩⟩
          rw [obexObjectNew, ctx_malloc, hm, if_neg (by simp), wp_bind, wp_pure]
          exact hs
      | false => exact (role_law hcalls w).cancelHard (role_event hcalls (by simp) (by simp)) s hs
    | resumeRequest =>
      rw [api, obexResumeRequest, wp_bind, wp_get]
      cases hp : s.object with
      | none => exact hs
      | some p =>
        exact (role_law hcalls w).resume (fun _ h => h.same rfl rfl rfl) hs hp fun _ _ _ _ => trivial
    | _ => cases hc

end

theorem role_calls (n : Nat) (w : Option Ptr) : CallsKeep E (roleGuard E.malloc) (Role w) n :=
  callsKeep (fun _ hcalls _ _ _ hs hg => role_call_step hcalls hs hg) n w

theorem role_dispatch (final : Bool) :
    Still (fun s => ∃ w, Role w s) (dispatch (E.ctx (roleGuard E.malloc) n) final) := by
  have hrecv {s : Obex} (hs : ∃ w, Role w s) : ∃ w, Role w (s.emit (.recv s.rxMsg.contents)) :=
    hs.imp fun _ h => h.emit (by simp) fun _ _ => trivial
  refine still_dispatch (fun _ _ h => h.imp fun _ h => h.same rfl rfl rfl) (fun _ => hrecv)
    (fun s final hs _ hm => (role_serverLaw (role_calls n)).server final ⟨hrecv hs, hm⟩)
    (fun s hs _ hm => ?_) final
  obtain ⟨w, hs⟩ := hrecv hs
  have hw : serving (s.emit (.recv s.rxMsg.contents)).log = none := by
    by_contra hne
    have hm' : s.mode = .srv := hs.toRoleStable.mode hne
    rw [hm] at hm'
    cases hm'
  have hs := hs.toNone hw
  exact wp_mono ((role_clientLaw (role_calls n)).client (fun _ _ => hs) hs) (fun _ _ h => ⟨none, h⟩)
    fun _ _ h => ⟨none, h⟩

/-- In every run in which no request being served is answered with an ABORT, the handle keeps its
role. -/
theorem role_stable (E : Env) (t : TransportType) (n : Nat) (ops : List Op) :
    wp (run (E.ctx (roleGuard E.malloc) n) (roleGuard E.malloc) ops) (fun _ s => RoleStable s)
      (fun _ s => RoleStable s) (obexInit t) := by
  have hinit : Role none (obexInit t) :=
    ⟨⟨Steps.nil, fun p hp => by simp [obexInit, serving, after] at hp⟩, .inl rfl⟩
  have hevent : Still (fun s => ∃ w, Role w s)
      (obexDeliverEvent (E.ctx (roleGuard E.malloc) n) .linkerr 0 0 true) := by
    rintro s ⟨w, hs⟩
    exact wp_mono (role_event (role_calls n) (by simp) (by simp) s hs) (fun _ _ h => ⟨w, h⟩)
      fun _ _ h => ⟨w, h⟩
  have hind (buf : Option Bytes) (buflen : Int) : Still (fun s => ∃ w, Role w s)
      (obexDataIndication (E.ctx (roleGuard E.malloc) n) buf buflen) :=
    still_indication (fun _ _ h => h.imp fun _ h => h.same rfl rfl rfl)
      (fun _ _ h => h.imp fun _ h => h.emit (by simp) fun _ _ => trivial) hevent role_dispatch
      buf buflen
  have hcall (c : Call) (s : Obex) (hs : ∃ w, Role w s) (hg : roleCall E.malloc c s = true) :
      wp (api (E.ctx (roleGuard E.malloc) n) c) (fun _ s => ∃ w, Role w s) (fun _ s => ∃ w, Role w s)
        s := by
    obtain ⟨w, hs⟩ := hs
    exact wp_mono (role_call_step (role_calls n) hs hg) (fun _ _ h => ⟨w, h⟩) fun _ _ h => ⟨w, h⟩
  have hrun := holds_run (fun _ h => h) hcall (fun _ _ h => h.imp fun _ h => h.same rfl rfl rfl)
    hind ops _
    ⟨none, hinit⟩
  refine wp_mono hrun (fun _ s h => ?_) fun _ s h => ?_
  · obtain ⟨w, h⟩ := h
    exact h.toRoleStable
  · obtain ⟨w, h⟩ := h
    exact h.toRoleStable

end

/-! ## An ABORT from a server -/

/-- A server that takes every packet of a request. -/
def acceptingServer : Env := { quietPeer with
  app := fun log => match log.getLast? with
    | some (.event n) => if n.event = .reqcheck then [.objectSetRsp 0 0x10 0x20] else []
    | _ => [] }

/-- A peer's PUT of two packets, cancelled by the server after the first. -/
def cancelledPut : List Op := [.customDataFeed [0x02, 0x00, 0x03], .call (.cancelRequest true)]

/-- The server sends an ABORT and is a client. -/
theorem server_sends_abort :
    ¬ ∀ (E : Env) (t : TransportType) (n : Nat) (ops : List Op),
      wp (run (E.ctx .all n) .all ops) (fun _ s => RoleStable s) (fun _ s => RoleStable s)
        (obexInit t) := by
  intro h
  have hrun := h acceptingServer .custom 9 cancelledPut
  have hend : endsWith (run (acceptingServer.ctx .all 9) .all cancelledPut) (obexInit .custom)
      (fun s => decide (serving s.log = some 0 ∧ s.mode = .cli)) = true := by
    decide +kernel
  obtain ⟨-, s, hs, hr⟩ := exists_of_endsWith hend hrun
  obtain ⟨hw, hm⟩ := of_decide_eq_true hs
  obtain ⟨hm', -⟩ := hr.current 0 hw
  rw [hm] at hm'
  cases hm'

end OpenObex
