import OpenObex.Lib.Reel
import OpenObex.Proof.Reception
import OpenObex.Proof.Runs
import OpenObex.Proof.Send

/-!
# Reading the received headers, and reading them again

The history of an object is a list of `HeaderStep`s: the headers that come with the packets, in the
order of their bytes, what `OBEX_ObjectGetNextHeader` hands out and whether `OBEX_ObjectReParseHeaders`
succeeds. `enqueued` says what has been queued after a history: each header as it came, and one header
for the fragments of a body. A `Session` is any sequence of receptions and calls on one object, also of
calls made by the callback while a packet is received.

The two lists of the object are a `Reel`: a reception puts headers at its end,
`OBEX_ObjectGetNextHeader` reads it and `OBEX_ObjectReParseHeaders` winds it back (`Reeled`).
`slist_remove` takes out every node with the element it is given, which is the first one only because
the elements lie at increasing addresses.
-/

namespace OpenObex

open Mem Prog

/-! ## The history of an object -/

inductive HeaderStep
  /-- A header of a packet is taken. -/
  | arrives (h : Head)
  /-- A part of a body goes to the stream. -/
  | streams (hi : UInt8)
  /-- What `OBEX_ObjectGetNextHeader` hands out. -/
  | next (out : Option (UInt8 × HeaderValue × Nat))
  /-- `OBEX_ObjectReParseHeaders`, and whether it succeeds. -/
  | reparse (done : Bool)

/-- The buffer of the body has not been cut by a size of more than 32 bits. -/
def uncut (body : Bytes) : Bool :=
  decide (body.length + 65536 + obexObjectAllocationtreshold ≤ 4294967296)

/-- The header that is made of the fragments of a body. -/
def bodyItem (body : Bytes) : Item :=
  { head := { hi := obexHdrBody, value := body }, whole := uncut body }

/-- What has been queued after a history, `body` being what has come of a body before it. Without `room`
for its element the header of a body is dropped. -/
def enqueued (room : Bool) : Bytes → List HeaderStep → List Item
  | _, [] => []
  | body, .arrives h :: t =>
    if h.hi = obexHdrBody then enqueued room (body ++ h.value) t
    else if h.hi = obexHdrBodyEnd then
      if room then bodyItem (body ++ h.value) :: enqueued room [] t else enqueued room [] t
    else { head := h, whole := true } :: enqueued room body t
  | body, _ :: t => enqueued room body t

def HeaderStep.out : HeaderStep → List (UInt8 × HeaderValue × Nat)
  | .next (some v) => [v]
  | _ => []

/-- What has been handed out, in order. -/
def handedOut (t : List HeaderStep) : List (UInt8 × HeaderValue × Nat) := t.flatMap HeaderStep.out

/-- The header is handed out, with its value unless that has been cut. -/
structure Shows (x : Item) (v : UInt8 × HeaderValue × Nat) : Prop where
  hi : v.1 = x.head.hi
  value : x.whole = true → v = x.head.read

/-- The element of the header. -/
structure Stocks (x : Item) (e : HeaderElement) : Prop where
  hi : e.hi = x.head.hi
  value : x.whole = true → x.head.Typed ∧ Element { head := x.head, whole := true } e

/-- What leaves the received headers of the object where they are. -/
structure Aside (p : Ptr) (s s' : Obex) : Prop where
  lists : (s'.objects p).map (fun o => (o.rxHeaderqRm, o.rxHeaderq, o.rxBody)) =
    (s.objects p).map fun o => (o.rxHeaderqRm, o.rxHeaderq, o.rxBody)
  fresh : s.fresh ≤ s'.fresh

/-- Calls of the application for the headers of the object, and what else it does. -/
inductive Calls (p : Ptr) (s : Obex) : List HeaderStep → Obex → Prop
  | none : Calls p s [] s
  | next {t : List HeaderStep} {s' s'' : Obex} {out : Option (UInt8 × HeaderValue × Nat)} :
    Calls p s t s' →
      obexObjectGetnextheader p s' = .ok out s'' → Calls p s (t ++ [.next out]) s''
  | reparse {t : List HeaderStep} {s' s'' : Obex} {ret : Int} : Calls p s t s' →
      obexObjectReparseheaders p s' = .ok ret s'' → Calls p s (t ++ [.reparse (decide (ret = 1))]) s''
  | other {t : List HeaderStep} {s' s'' : Obex} : Calls p s t s' → Aside p s' s'' →
      s''.object = s'.object → s''.rxMsg = s'.rxMsg → Calls p s t s''

/-- The callback makes such calls only. -/
def Visits (C : Ctx) (p : Ptr) : Prop :=
  ∀ notice s, wp (C.eventcb notice) (fun _ s' => ∃ t, Calls p s t s') (fun _ _ => True) s

/-- The header at the front of a message: its identifier, where its value is and how long it is, and how
much is taken off the message for it. -/
inductive Front (m : Buf) : UInt8 → Nat → Nat → Nat → Prop
  | byte {hi : UInt8} : m.reach[0]? = some hi → hiType hi = .byte → Front m hi 1 1 2
  | int {hi : UInt8} : m.reach[0]? = some hi → hiType hi = .int → Front m hi 1 4 5
  | sized {hi a b : UInt8} : m.reach[0]? = some hi → hiType hi = .unicode ∨ hiType hi = .byteStream →
      m.reach[1]? = some a → m.reach[2]? = some b → Front m hi 3 (u32 (ofBe16 a b - 3)) (ofBe16 a b)

/-- The header `h` is at the front of the message and takes `n` bytes. -/
def AtFront (m : Buf) (h : Head) (n : Nat) : Prop :=
  ∃ source len, Front m h.hi source len n ∧ bufPeek m source len = some h.value

/-- What one round of the loop of `obex_object_receive` does with the header at the front of
`rx_msg`. -/
inductive Handled (p : Ptr) (s : Obex) : List HeaderStep → Obex → Prop
  | taken {h : Head} {n : Nat} {s' : Obex} : AtFront s.rxMsg h n →
      h.isBody = false ∨ (∃ o, s.objects p = some o ∧ o.sSrv = false) →
      s'.rxMsg = bufRemoveBegin s.rxMsg n → Handled p s [.arrives h] s'
  /-- The callback may read headers meanwhile. -/
  | streamed {hi : UInt8} {source len n : Nat} {o : ObexObject} {t : List HeaderStep} {s₁ : Obex} :
      Front s.rxMsg hi source len n → hi = obexHdrBody ∨ hi = obexHdrBodyEnd → s.objects p = some o →
      o.sSrv = true → Calls p s t s₁ →
      Handled p s (.streams hi :: t) (s₁.setRxMsg (bufRemoveBegin s.rxMsg n))

/-- The headers of a packet, one after the other, to its end. -/
inductive Rounds (C : Ctx) (p : Ptr) : Obex → List HeaderStep → Obex → Prop
  | done {s : Obex} : s.rxMsg.dataSize = 0 → Rounds C p s [] s
  | round {s s' s'' : Obex} {t u : List HeaderStep} : s.rxMsg.dataSize ≠ 0 →
      receiveHeader C p s = .ok false s' → Handled p s t s' → Rounds C p s' u s'' →
        Rounds C p s (t ++ u) s''

/-- A reception: the common header and the data in front of the headers go, the headers are taken. -/
def Reception (C : Ctx) (p : Ptr) (s : Obex) (t : List HeaderStep) (s' : Obex) : Prop :=
  ∃ o s₁, s.objects p = some o ∧
    receiveNonhdr C p (s.setRxMsg (bufRemoveBegin s.rxMsg 3)) = .ok true s₁ ∧
    s₁.rxMsg = bufRemoveBegin (bufRemoveBegin s.rxMsg 3) o.headeroffset ∧ Rounds C p s₁ t s'

/-- Receptions that are accepted and calls on an object, in any order. -/
inductive Session (C : Ctx) (p : Ptr) (s₀ : Obex) : List HeaderStep → Obex → Prop
  | start : Session C p s₀ [] s₀
  | receive {t u : List HeaderStep} {s s' : Obex} {ret : Int} : Session C p s₀ t s →
      s.object = some p → obexObjectReceive C s = .ok ret s' → 0 ≤ ret → Reception C p s u s' →
      Session C p s₀ (t ++ u) s'
  | visit {t u : List HeaderStep} {s s' : Obex} : Session C p s₀ t s → Calls p s u s' →
      Session C p s₀ (t ++ u) s'
  | aside {t : List HeaderStep} {s s' : Obex} : Session C p s₀ t s → Aside p s s' →
      Session C p s₀ t s'

/-! ## The reel -/

abbrev ReelStep := Reel.Step HeaderElement

variable {C : Ctx} {p : Ptr} {room : Bool} {r r' : Reel HeaderElement} {m : Buf} {s s' s'' : Obex}
  {h : Head} {t t' : List HeaderStep} {u u' : List ReelStep} {body body' : Bytes}
  {E : Stop → Obex → Prop}

/-- The buffer holds what has come of a body. -/
structure Gathers (body : Bytes) (b : Buf) : Prop where
  front : b.data = 0
  value : uncut body = true → b.contents = body

def BodySoFar (body : Bytes) : Option Buf → Prop
  | none => body = []
  | some b => Gathers body b

/-- The lists of the object are the reel, its elements in the order of their allocation, and `body` is
what has come of a body. -/
structure Reeled (p : Ptr) (r : Reel HeaderElement) (body : Bytes) (s : Obex) : Prop where
  lists : ∃ o, s.objects p = some o ∧ o.rxHeaderqRm = r.seen ∧ o.rxHeaderq = r.left ∧
    BodySoFar body o.rxBody
  sorted : (r.contents.map addr).Pairwise (· < ·)
  bound : ∀ e ∈ r.contents, addr e < s.fresh

/-- The lists as they are while the rest `m` of a packet is received. -/
structure Reeling (p : Ptr) (r : Reel HeaderElement) (body : Bytes) (m : Buf) (s : Obex) : Prop extends
    Reeled p r body s where
  object : s.object = some p
  rxMsg : s.rxMsg = m

/-- What is handed out for an element, nothing at the end. -/
abbrev HandsOut : Option (UInt8 × HeaderValue × Nat) → Option HeaderElement → Prop :=
  Option.Rel fun v e => ∀ x, Stocks x e → Shows x v

/-- What a step of the history does to the reel and to the body that is coming. -/
inductive Recount (room : Bool) : Bytes → HeaderStep → List ReelStep → Bytes → Prop
  | put {body : Bytes} {h : Head} {e : HeaderElement} : h.isBody = false →
    Stocks { head := h, whole := true } e →
      Recount room body (.arrives h) [.put e] body
  | fragment {body : Bytes} {h : Head} : h.hi = obexHdrBody →
      Recount room body (.arrives h) [] (body ++ h.value)
  | last {body : Bytes} {h : Head} {e : HeaderElement} : h.hi = obexHdrBodyEnd → room = true →
      Stocks (bodyItem (body ++ h.value)) e → Recount room body (.arrives h) [.put e] []
  | dropped {body : Bytes} {h : Head} : h.hi = obexHdrBodyEnd → room = false →
      Recount room body (.arrives h) [] []
  | streams (body : Bytes) (hi : UInt8) : Recount room body (.streams hi) [] body
  | next {body : Bytes} {out : Option (UInt8 × HeaderValue × Nat)} {e : Option HeaderElement} :
      HandsOut out e → Recount room body (.next out) [.next e] body
  | reparse (body : Bytes) (done : Bool) : Recount room body (.reparse done) [.rewind done] body

inductive Recounts (room : Bool) : Bytes → List HeaderStep → List ReelStep → Bytes → Prop
  | nil (body : Bytes) : Recounts room body [] [] body
  | cons {body body₁ body' : Bytes} {x : HeaderStep} {t : List HeaderStep} {v u : List ReelStep} :
      Recount room body x v body₁ → Recounts room body₁ t u body' →
      Recounts room body (x :: t) (v ++ u) body'

theorem Recount.one {x : HeaderStep} (h : Recount room body x u body') :
    Recounts room body [x] u body' := by
  have hone := Recounts.cons h (.nil body')
  rwa [List.append_nil] at hone

theorem Recounts.append {body₁ : Bytes} (h : Recounts room body t u body₁)
    (h' : Recounts room body₁ t' u' body') :
    Recounts room body (t ++ t') (u ++ u') body' := by
  induction h with
  | nil => exact h'
  | cons hx _ ih =>
    rw [List.append_assoc]
    exact .cons hx (ih h')

theorem Recounts.split (h : Recounts room body (t ++ t') u body') : ∃ u₁ u₂ body₁, u = u₁ ++ u₂ ∧
    Recounts room body t u₁ body₁ ∧ Recounts room body₁ t' u₂ body' := by
  induction t generalizing body u with
  | nil => exact ⟨[], u, body, rfl, .nil body, h⟩
  | cons x t ih =>
    obtain _ | ⟨hx, hrest⟩ := h
    obtain ⟨u₁, u₂, body₁, rfl, h₁, h₂⟩ := ih hrest
    exact ⟨_, u₂, body₁, (List.append_assoc _ _ _).symm, .cons hx h₁, h₂⟩

/-- What is put is what the history queues. -/
theorem Recounts.puts (h : Recounts room body t u body') :
    List.Forall₂ Stocks (enqueued room body t) (Reel.puts u) := by
  have hne : obexHdrBodyEnd ≠ obexHdrBody := by decide
  induction h with
  | nil => exact .nil
  | cons hx _ ih =>
    rw [Reel.puts_append]
    cases hx with
    | put hbody he =>
      obtain ⟨hfirst, hlast⟩ := not_or.1 (of_decide_eq_false hbody)
      rw [enqueued, if_neg hfirst, if_neg hlast]
      exact .cons he ih
    | fragment hhi =>
      rw [enqueued, if_pos hhi]
      exact ih
    | last hhi hroom he =>
      rw [enqueued, if_neg (by rw [hhi]; exact hne), if_pos hhi, if_pos hroom]
      exact .cons he ih
    | dropped hhi hroom =>
      rw [enqueued, if_neg (by rw [hhi]; exact hne), if_pos hhi,
        if_neg (by rw [hroom]; exact Bool.false_ne_true)]
      exact ih
    | streams => exact ih
    | next => exact ih
    | reparse => exact ih

theorem Recounts.reads (h : Recounts room body t u body') :
    List.Forall₂ (fun v e => ∀ x, Stocks x e → Shows x v) (handedOut t) (Reel.reads u) := by
  induction h with
  | nil => exact .nil
  | cons hx _ ih =>
    unfold Reel.reads at ih ⊢
    rw [List.flatMap_append]
    cases hx with
    | next hout =>
      cases hout with
      | none => exact ih
      | some he => exact .cons he ih
    | _ => exact ih

theorem Recounts.rewind (h : Recounts room body t u body') (hu : .rewind true ∈ u) :
    .reparse true ∈ t := by
  induction h with
  | nil => cases hu
  | cons hx _ ih =>
    rcases List.mem_append.1 hu with hu | hu
    · cases hx with
      | reparse => rw [Reel.Step.rewind.inj (List.mem_singleton.1 hu)]; exact List.mem_cons_self
      | put => cases List.mem_singleton.1 hu
      | last => cases List.mem_singleton.1 hu
      | next => cases List.mem_singleton.1 hu
      | _ => cases hu
    · exact List.mem_cons_of_mem _ (ih hu)

/-- A pass hands out all that has been queued. -/
theorem Recounts.pass {t₁ t₂ t₃ : List HeaderStep}
    (h : Recounts room body (t₁ ++ .reparse true :: (t₂ ++ .next none :: t₃)) u body')
    (hplay : Reel.Plays .empty u r) (hpass : .reparse true ∉ t₂) :
    List.Forall₂ Shows (enqueued room body (t₁ ++ t₂)) (handedOut t₂) := by
  obtain ⟨u₁, _, body₁, rfl, h₁, h⟩ := h.split
  obtain _ | ⟨hx, h⟩ := h
  obtain ⟨u₂, _, body₂, rfl, h₂, h⟩ := h.split
  obtain _ | ⟨hend, -⟩ := h
  cases hx
  cases hend with
  | next hout =>
    cases hout
    have hreads := hplay.pass fun hu => hpass (h₂.rewind hu)
    have hqueued := (h₁.append h₂).puts
    rw [← hreads] at hqueued
    have hshown := h₂.reads
    generalize enqueued room body (t₁ ++ t₂) = xs at hqueued ⊢
    generalize handedOut t₂ = vs at hshown ⊢
    generalize Reel.reads u₂ = es at hqueued hshown
    induction hqueued generalizing vs with
    | nil =>
      cases hshown
      exact .nil
    | cons hx _ ih =>
      obtain _ | ⟨hv, hrest⟩ := hshown
      exact .cons (hv _ hx) (ih _ hrest)

/-! ## The two calls -/

theorem wp_self {ε σ α : Type} {m : EStateM ε σ α} {s : σ} :
    wp m (fun a s' => m s = .ok a s') (fun _ _ => True) s := by
  unfold wp
  cases m s with
  | ok a s' => rfl
  | error e s' => trivial

theorem Reeled.aside (h : Reeled p r body s) (ha : Aside p s s') : Reeled p r body s' := by
  obtain ⟨o, ho, hseen, hleft, hbody⟩ := h.lists
  have hlists := ha.lists
  rw [ho, Option.map_some] at hlists
  obtain ⟨o', ho', he⟩ := Option.map_eq_some_iff.1 hlists
  obtain ⟨hrm, he⟩ := Prod.mk.inj he
  obtain ⟨hq, hb⟩ := Prod.mk.inj he
  exact ⟨⟨o', ho', hrm.trans hseen, hq.trans hleft, by rwa [hb]⟩, h.sorted,
    fun e he => Nat.lt_of_lt_of_le (h.bound e he) ha.fresh⟩

theorem Reeled.replace (h : Reeled p r body s) (hr : r'.contents = r.contents) {o : ObexObject}
    (hseen : o.rxHeaderqRm = r'.seen) (hleft : o.rxHeaderq = r'.left)
    (hbody : BodySoFar body' o.rxBody) :
    Reeled p r' body' (s.setObject p (some o)) :=
  ⟨⟨o, objects_setObject _ _ _, hseen, hleft, hbody⟩, hr ▸ h.sorted, hr ▸ h.bound⟩

theorem headerValue_state {e : HeaderElement} {v : UInt8 × HeaderValue × Nat}
    (h : headerValue e s = .ok v s') : s' = s := by
  have hkeep : Keeps (fun t => t = s) (fun _ _ => True) (headerValue e) := by
    have hstop : Stops (fun t => t = s) fun _ _ => True := fun _ _ _ _ => trivial
    refine Keeps.bind (keeps_require hstop (by simp) _) fun b => ?_
    split
    · exact Keeps.bind (keeps_peek hstop _ _ _) fun _ => Keeps.pure _
    · exact Keeps.bind (keeps_peek hstop _ _ _) fun _ => Keeps.pure _
    · exact Keeps.bind (keeps_byteAt hstop _ _) fun _ => Keeps.bind (keeps_byteAt hstop _ _) fun _ =>
        Keeps.bind (keeps_byteAt hstop _ _) fun _ => Keeps.bind (keeps_byteAt hstop _ _) fun _ =>
          Keeps.pure _
    · exact Keeps.bind (keeps_byteAt hstop _ _) fun _ => Keeps.pure _
  exact wp_ok (hkeep s rfl) h

theorem headerValue_hi {e : HeaderElement} {v : UInt8 × HeaderValue × Nat}
    (h : headerValue e s = .ok v s') : v.1 = e.hi := by
  have read {α : Type} {f : α → M (UInt8 × HeaderValue × Nat)} {x : Option α} {fault : Fault}
      (hf : ∀ a, wp (f a) (fun v _ => v.1 = e.hi) (fun _ _ => True) s) :
      wp (require fault x >>= f) (fun v _ => v.1 = e.hi) (fun _ _ => True) s := by
    rw [wp_bind, wp_require]
    exact ⟨fun a _ => hf a, fun _ => trivial⟩
  have byte {f : UInt8 → M (UInt8 × HeaderValue × Nat)} {b : Buf} {off : Nat}
      (hf : ∀ a, wp (f a) (fun v _ => v.1 = e.hi) (fun _ _ => True) s) :
      wp (byteAt b off >>= f) (fun v _ => v.1 = e.hi) (fun _ _ => True) s := by
    rw [wp_bind]
    exact wp_byteAt_reach (fun a _ => hf a) fun _ => trivial
  have hrun : wp (headerValue e) (fun v _ => v.1 = e.hi) (fun _ _ => True) s := by
    refine read fun b => ?_
    split
    · exact read fun _ => rfl
    · exact read fun _ => rfl
    · exact byte fun _ => byte fun _ => byte fun _ => byte fun _ => rfl
    · exact byte fun _ => rfl
  exact wp_ok hrun h

theorem headerValue_shows {e : HeaderElement} {v : UInt8 × HeaderValue × Nat} {x : Item}
    (h : headerValue e s = .ok v s') (hx : Stocks x e) : Shows x v where
  hi := (headerValue_hi h).trans hx.hi
  value := fun hw => by
    obtain ⟨htyped, helement⟩ := hx.value hw
    have hrun : wp (headerValue e) (fun v _ => v = x.head.read) (fun _ _ => True) s :=
      wp_headerValue helement htyped rfl
    exact wp_ok hrun h

theorem next_reeled {out : Option (UInt8 × HeaderValue × Nat)} (h : Reeled p r body s)
    (hout : obexObjectGetnextheader p s = .ok out s') :
    (∃ r', Reel.Moves r (.next r.left.head?) r' ∧ Reeled p r' body s') ∧ s'.object = s.object ∧
      s'.rxMsg = s.rxMsg ∧ HandsOut out r.left.head? := by
  obtain ⟨o, ho, hseen, hleft, hbody⟩ := h.lists
  obtain ⟨seen, left⟩ := r
  dsimp only at hseen hleft
  have hsort := h.sorted
  have hrun : wp (obexObjectGetnextheader p) (fun out s' =>
      (∃ r', Reel.Moves ⟨seen, left⟩ (.next left.head?) r' ∧ Reeled p r' body s') ∧
        s'.object = s.object ∧ s'.rxMsg = s.rxMsg ∧ HandsOut out left.head?)
      (fun _ _ => True) s := by
    rw [obexObjectGetnextheader, wp_bind, wp_deref, ho]
    refine ⟨?_, by simp⟩
    rintro _ ⟨⟩
    rw [hleft]
    cases left with
    | nil => exact ⟨⟨_, .atEnd seen, h⟩, rfl, rfl, .none⟩
    | cons e left =>
      dsimp only
      rw [wp_bind, wp_update, ho]
      refine ⟨?_, by simp⟩
      rintro _ ⟨⟩
      rw [wp_bind]
      refine wp_conseq wp_self fun v s' hv => ?_
      obtain rfl := headerValue_state hv
      rw [Reel.contents, List.map_append, List.pairwise_append] at hsort
      refine ⟨⟨_, .next seen left e, ?_⟩, rfl, rfl, .some fun x hx => headerValue_shows hv hx⟩
      refine h.replace (by simp [Reel.contents]) ?_ ?_ hbody
      · show slistAppend o.rxHeaderqRm e = seen ++ [e]
        rw [hseen, slistAppend]
      · show slistRemove o.rxHeaderq e = left
        rw [hleft, slistRemove_first (distinct_of_sorted hsort.2.1)]
  exact wp_ok hrun hout

theorem reparse_reeled {ret : Int} (h : Reeled p r body s)
    (hret : obexObjectReparseheaders p s = .ok ret s') :
    (∃ r', Reel.Moves r (.rewind (decide (ret = 1))) r' ∧ Reeled p r' body s') ∧ s'.object = s.object ∧
      s'.rxMsg = s.rxMsg := by
  obtain ⟨o, ho, hseen, hleft, hbody⟩ := h.lists
  obtain ⟨seen, left⟩ := r
  dsimp only at hseen hleft
  have hrun : wp (obexObjectReparseheaders p) (fun ret s' =>
      (∃ r', Reel.Moves ⟨seen, left⟩ (.rewind (decide (ret = 1))) r' ∧ Reeled p r' body s') ∧
        s'.object = s.object ∧ s'.rxMsg = s.rxMsg) (fun _ _ => True) s := by
    rw [obexObjectReparseheaders, wp_bind, wp_deref, ho]
    refine ⟨?_, by simp⟩
    rintro _ ⟨⟩
    rw [hleft, wp_ite]
    refine ⟨fun hne => ⟨⟨_, .refuse seen left hne, h⟩, rfl, rfl⟩, fun hne => ?_⟩
    obtain rfl : left = [] := not_not.1 hne
    rw [wp_bind, wp_update, ho]
    refine ⟨?_, by simp⟩
    rintro _ ⟨⟩
    exact ⟨⟨_, .rewind seen, h.replace (by simp [Reel.contents]) rfl hseen hbody⟩, rfl, rfl⟩
  exact wp_ok hrun hret

/-- The history takes the reel and the body to some of which `P` holds. -/
def Winds (room : Bool) (r : Reel HeaderElement) (body : Bytes) (t : List HeaderStep)
    (P : Reel HeaderElement → Bytes → Prop) : Prop :=
  ∃ u r' body', Recounts room body t u body' ∧ Reel.Plays r u r' ∧ P r' body'

section
variable {P P' : Reel HeaderElement → Bytes → Prop}

theorem Winds.none (h : P r body) : Winds room r body [] P := ⟨[], r, body, .nil body, rfl, h⟩

theorem Winds.step {x : HeaderStep} {y : ReelStep} (hx : Recount room body x [y] body')
    (hy : Reel.Moves r y r') (h : P r' body') : Winds room r body [x] P :=
    ⟨_, r', body', hx.one, hy.plays, h⟩

theorem Winds.still {x : HeaderStep} (hx : Recount room body x [] body') (h : P r body') :
    Winds room r body [x] P := ⟨_, r, body', hx.one, rfl, h⟩

theorem Winds.append (h : Winds room r body t P)
    (h' : ∀ r₁ body₁, P r₁ body₁ → Winds room r₁ body₁ t' P') : Winds room r body (t ++ t') P' := by
  obtain ⟨u, r₁, body₁, hrecount, hplay, h₁⟩ := h
  obtain ⟨u', r₂, body₂, hrecount', hplay', h₂⟩ := h' r₁ body₁ h₁
  exact ⟨u ++ u', r₂, body₂, hrecount.append hrecount', Reel.plays_append.2 ⟨r₁, hplay, hplay'⟩, h₂⟩

theorem Winds.imp (h : Winds room r body t P) (hP : ∀ r' body', P r' body' → P' r' body') :
    Winds room r body t P' := by
  obtain ⟨u, r', body', hrecount, hplay, h'⟩ := h
  exact ⟨u, r', body', hrecount, hplay, hP r' body' h'⟩

end

/-- Calls play the reel. -/
theorem Calls.reeled (hc : Calls p s t s') (room : Bool) (h : Reeled p r body s) :
    Winds room r body t (fun r' body' => Reeled p r' body' s') ∧ s'.object = s.object ∧
      s'.rxMsg = s.rxMsg := by
  induction hc with
  | none => exact ⟨.none h, rfl, rfl⟩
  | @next _ s₁ s₂ _ _ hout ih =>
    obtain ⟨hwinds, hobj, hmsg⟩ := ih
    have hkept : s₂.object = s.object ∧ s₂.rxMsg = s.rxMsg := by
      obtain ⟨_, r₁, body₁, -, -, h₁⟩ := hwinds
      obtain ⟨-, hobj', hmsg', -⟩ := next_reeled h₁ hout
      exact ⟨hobj'.trans hobj, hmsg'.trans hmsg⟩
    refine ⟨hwinds.append fun r₁ body₁ h₁ => ?_, hkept⟩
    obtain ⟨⟨r₂, hmove, h₂⟩, -, -, hhands⟩ := next_reeled h₁ hout
    exact .step (.next hhands) hmove h₂
  | @reparse _ s₁ s₂ _ _ hret ih =>
    obtain ⟨hwinds, hobj, hmsg⟩ := ih
    have hkept : s₂.object = s.object ∧ s₂.rxMsg = s.rxMsg := by
      obtain ⟨_, r₁, body₁, -, -, h₁⟩ := hwinds
      obtain ⟨-, hobj', hmsg'⟩ := reparse_reeled h₁ hret
      exact ⟨hobj'.trans hobj, hmsg'.trans hmsg⟩
    refine ⟨hwinds.append fun r₁ body₁ h₁ => ?_, hkept⟩
    obtain ⟨⟨r₂, hmove, h₂⟩, -, -⟩ := reparse_reeled h₁ hret
    exact .step (.reparse body₁ _) hmove h₂
  | other _ ha hobj' hmsg' ih =>
    obtain ⟨hwinds, hobj, hmsg⟩ := ih
    exact ⟨hwinds.imp fun _ _ h' => h'.aside ha, hobj'.trans hobj, hmsg'.trans hmsg⟩

theorem Calls.trans (h : Calls p s t s') (h' : Calls p s' t' s'') : Calls p s (t ++ t') s'' := by
  induction h' with
  | none =>
    rw [List.append_nil]
    exact h
  | next _ hout ih =>
    rw [← List.append_assoc]
    exact ih.next hout
  | reparse _ hret ih =>
    rw [← List.append_assoc]
    exact ih.reparse hret
  | other _ ha hobj hmsg ih => exact ih.other ha hobj hmsg

theorem Aside.update {q : Ptr} {o : ObexObject} {f : ObexObject → ObexObject}
    (hf : ∀ o, (f o).rxHeaderqRm = o.rxHeaderqRm ∧ (f o).rxHeaderq = o.rxHeaderq ∧
    (f o).rxBody = o.rxBody) (ho : s.objects q = some o) : Aside p s (s.setObject q (some (f o))) := by
  refine ⟨?_, le_refl _⟩
  obtain ⟨hrm, hleft, hbody⟩ := hf o
  by_cases hq : p = q
  · rw [hq, objects_setObject, ho, Option.map_some, Option.map_some, hrm, hleft, hbody]
  · rw [objects_setObject_ne _ _ hq]

theorem calls_update {q : Ptr} {f : ObexObject → ObexObject} (hs : ∃ t, Calls p s t s')
    (hf : ∀ o, (f o).rxHeaderqRm = o.rxHeaderqRm ∧ (f o).rxHeaderq = o.rxHeaderq ∧
      (f o).rxBody = o.rxBody) :
    wp (OpenObex.update q f) (fun _ s'' => ∃ t, Calls p s t s'') (fun _ _ => True) s' := by
  obtain ⟨t, ht⟩ := hs
  rw [wp_update]
  exact ⟨fun o ho => ⟨t, ht.other (Aside.update hf ho) rfl rfl⟩, fun _ => trivial⟩

theorem calls_event (hC : Visits C p) (hs : ∃ t, Calls p s t s') :
    wp (obexDeliverEvent C .streamavail 0 0 false) (fun _ s'' => ∃ t, Calls p s t s'')
      (fun _ _ => True) s' := by
  obtain ⟨t, ht⟩ := hs
  refine wp_deliverEvent (wp_conseq (hC _ _) ?_)
  rintro _ s'' ⟨t', ht'⟩
  have hshown : Calls p s t (s'.emit (.event (noticeOf s' .streamavail 0 0))) :=
    ht.other ⟨rfl, Nat.le_refl _⟩ rfl rfl
  exact ⟨t ++ t', hshown.trans ht'⟩

/-- A fragment is shown to the application, which may read headers meanwhile. -/
theorem calls_receiveStream (hC : Visits C p) (hobj : s.object = some p) (hi : UInt8) (len : Nat) :
    wp (obexObjectReceiveStream C hi len) (fun _ s' => ∃ t, Calls p s t s') (fun _ _ => True) s := by
  have hnone : ∃ t, Calls p s t s := ⟨[], .none⟩
  rw [obexObjectReceiveStream, wp_bind, wp_selfObject, hobj]
  refine ⟨?_, by simp⟩
  rintro _ ⟨⟩
  rw [wp_ite]
  refine ⟨fun _ => hnone, fun _ => ?_⟩
  rw [wp_bind, wp_get, wp_bind]
  refine wp_conseq (calls_update hnone fun o => ⟨rfl, rfl, rfl⟩) fun _ s₁ h₁ => ?_
  rw [wp_bind, wp_deref]
  refine ⟨fun o _ => ?_, fun _ => trivial⟩
  rw [wp_ite]
  refine ⟨fun _ => h₁, fun _ => ?_⟩
  rw [wp_bind]
  refine wp_conseq (calls_event hC h₁) fun _ s₂ h₂ => ?_
  rw [wp_when]
  refine ⟨fun _ => ?_, fun _ => h₂⟩
  rw [wp_bind]
  exact wp_conseq (calls_update h₂ fun o => ⟨rfl, rfl, rfl⟩) fun _ s₃ h₃ => calls_event hC h₃

/-! ## The header at the front of a message -/

theorem Front.unique {hi hi' : UInt8} {source source' len len' n n' : Nat} (h : Front m hi source len n)
    (h' : Front m hi' source' len' n') : hi = hi' ∧ source = source' ∧ len = len' ∧ n = n' := by
  have hfirst {a b : UInt8} {i : Nat} (ha : m.reach[i]? = some a) (hb : m.reach[i]? = some b) : a = b :=
    Option.some_inj.1 (ha.symm.trans hb)
  cases h with
  | byte h0 hk =>
    cases h' with
    | byte h0' _ => exact ⟨hfirst h0 h0', rfl, rfl, rfl⟩
    | int h0' hk' =>
      rw [hfirst h0 h0', hk'] at hk
      cases hk
    | sized h0' hk' =>
      rw [← hfirst h0 h0', hk] at hk'
      rcases hk' with hk' | hk' <;> cases hk'
  | int h0 hk =>
    cases h' with
    | int h0' _ => exact ⟨hfirst h0 h0', rfl, rfl, rfl⟩
    | byte h0' hk' =>
      rw [hfirst h0 h0', hk'] at hk
      cases hk
    | sized h0' hk' =>
      rw [← hfirst h0 h0', hk] at hk'
      rcases hk' with hk' | hk' <;> cases hk'
  | sized h0 hk h1 h2 =>
    cases h' with
    | sized h0' _ h1' h2' => exact ⟨hfirst h0 h0', rfl, by rw [hfirst h1 h1', hfirst h2 h2'],
        by rw [hfirst h1 h1', hfirst h2 h2']⟩
    | byte h0' hk' =>
      rw [hfirst h0 h0', hk'] at hk
      rcases hk with hk | hk <;> cases hk
    | int h0' hk' =>
      rw [hfirst h0 h0', hk'] at hk
      rcases hk with hk | hk <;> cases hk

theorem AtFront.unique {h' : Head} {n n' : Nat} (ha : AtFront m h n) (ha' : AtFront m h' n') :
    h = h' ∧ n = n' := by
  obtain ⟨source, len, hfront, hpeek⟩ := ha
  obtain ⟨source', len', hfront', hpeek'⟩ := ha'
  obtain ⟨hhi, rfl, rfl, rfl⟩ := hfront.unique hfront'
  obtain ⟨hi, value⟩ := h
  obtain ⟨hi', value'⟩ := h'
  obtain rfl : hi = hi' := hhi
  obtain rfl : value = value' := Option.some_inj.1 (hpeek.symm.trans hpeek')
  exact ⟨rfl, rfl⟩

/-- A length field of less than 3 is that of a value longer than any packet. -/
theorem Front.len_cases {hi : UInt8} {source len n : Nat} (h : Front m hi source len n) :
    len < 65536 ∨ 4294967293 ≤ len := by
  cases h with
  | byte => exact .inl (by decide)
  | int => exact .inl (by decide)
  | @sized a b =>
    have hlt := ofBe16_lt a b
    rw [u32_sub_three hlt]
    split <;> omega

theorem Front.typed {hi : UInt8} {source len n : Nat} (h : Front m hi source len n) {d : Bytes}
    (hd : d.length = len) : Head.Typed { hi, value := d } := by
  unfold Head.Typed
  dsimp only
  cases h with
  | byte _ hk =>
    rw [hk]
    exact hd
  | int _ hk =>
    rw [hk]
    exact hd
  | sized _ hk =>
    rcases hk with hk | hk
    · rw [hk]
      trivial
    · rw [hk]
      trivial

theorem bufPeek_length {b : Buf} {off n : Nat} {d : Bytes} (h : bufPeek b off n = some d) :
    d.length = n := by
  obtain ⟨hle, rfl⟩ := bufPeek_some h
  exact length_slice hle

/-! ## The body that is coming -/

theorem uncut_iff : uncut body = true ↔ body.length + 75776 ≤ 4294967296 := by
  have ht : obexObjectAllocationtreshold = 10240 := rfl
  unfold uncut
  rw [decide_eq_true_iff]
  omega

theorem uncut_append {v : Bytes} (h : uncut (body ++ v) = true) :
    uncut body = true ∧ body.length + v.length + 75776 ≤ 4294967296 := by
  rw [uncut_iff, List.length_append] at h
  rw [uncut_iff]
  omega

theorem front_bufResize {malloc : Nat → Bool} {b : Buf} (hf : b.data = 0) (n : Nat) :
    (bufResize malloc b n).data = 0 := by
  have h1 := b.data_eq
  unfold bufResize
  by_cases hlt : n < bufTotalSize b
  · rw [dif_pos hlt]
    dsimp only
    omega
  · rw [dif_neg hlt]
    split
    · exact hf
    · exact hf

theorem contents_bufResize_of_le {malloc : Nat → Bool} {b : Buf} {n : Nat} (h : bufTotalSize b ≤ n) :
    (bufResize malloc b n).contents = b.contents := by
  by_cases hm : malloc n = true
  · have hle := b.end_le
    rw [bufTotalSize_eq] at h
    rw [contents_bufResize hm, List.take_of_length_le (by rw [length_contents]; omega)]
  · unfold bufResize
    rw [dif_neg (Nat.not_lt.2 h), if_neg hm]

/-- The buffer of a body that has come in part, or not at all yet. -/
theorem gathers_rxBodyBuf {o : ObexObject} {len : Nat} {b : Buf} (h : BodySoFar body o.rxBody)
    (hb : rxBodyBuf C o len = some b) : Gathers body b := by
  unfold rxBodyBuf at hb
  generalize o.rxBody = x at *
  cases x with
  | some b' =>
    obtain rfl := Option.some_inj.1 hb
    exact h
  | none =>
    obtain rfl : body = [] := h
    unfold bufNew at hb
    dsimp only at hb
    split at hb
    · obtain rfl := Option.some_inj.1 hb
      exact ⟨rfl, fun _ => contents_freshBuf _⟩
    · cases hb

/-- The buffer grows without a loss unless its size wraps. -/
theorem Gathers.grow {b b₁ : Buf} {v : Bytes} (h : Gathers body b)
    (hlen : v.length < 65536 ∨ 4294967293 ≤ v.length) (hb : growRxBody C b v.length = some b₁) :
    b₁.data = 0 ∧ (uncut (body ++ v) = true → b₁.contents = body) := by
  unfold growRxBody at hb
  by_cases hfits : b.dataAvail + b.tailAvail < v.length
  · rw [if_pos hfits] at hb
    dsimp only at hb
    split at hb
    · obtain rfl := Option.some_inj.1 hb
      refine ⟨front_bufResize h.front _, fun huncut => ?_⟩
      obtain ⟨hbody, hsize⟩ := uncut_append huncut
      have hcontents := h.value hbody
      have hall : b.dataSize = body.length := by rw [← hcontents, length_contents]
      have h1 := b.data_eq
      have h2 := b.size_eq
      have h3 := h.front
      rw [contents_bufResize_of_le, hcontents]
      rw [bufTotalSize_eq, u32_i32_add]
      unfold obexObjectAllocationtreshold
      omega
    · cases hb
  · rw [if_neg hfits] at hb
    obtain rfl := Option.some_inj.1 hb
    exact ⟨h.front, fun huncut => h.value (uncut_append huncut).1⟩

theorem Gathers.add {b b₁ b₂ : Buf} {v : Bytes} (h : Gathers body b)
    (hlen : v.length < 65536 ∨ 4294967293 ≤ v.length) (hb : growRxBody C b v.length = some b₁)
    (hb' : bufInsertEnd C.malloc b₁ v = some b₂) : Gathers (body ++ v) b₂ := by
  obtain ⟨hfront, hvalue⟩ := h.grow hlen hb
  refine ⟨(bufInsertEnd_length hb').1.trans hfront, fun huncut => ?_⟩
  rw [(bufInsertEnd_some hb').1, hvalue huncut]

theorem typed_bodyItem : (bodyItem body).head.Typed := by
  have hk : hiType obexHdrBody = .byteStream := rfl
  unfold Head.Typed bodyItem
  dsimp only
  rw [hk]
  trivial

theorem Gathers.stocks {b : Buf} (h : Gathers body b) (fresh : Ptr) :
    Stocks (bodyItem body)
      { addr := fresh, buf := some b, hi := obexHdrBody, flags := {}, length := u32 b.dataSize
        bodyTouched := false, stream := false } where
  hi := rfl
  value := fun huncut => by
    rw [bodyItem] at huncut
    dsimp only at huncut
    have hcontents := h.value huncut
    have hall : b.dataSize = body.length := by rw [← hcontents, length_contents]
    have hlt : u32 b.dataSize = b.dataSize := by
      have hsize := uncut_iff.1 huncut
      unfold u32
      omega
    exact ⟨typed_bodyItem, rfl, b, rfl, hlt, fun _ => hcontents, fun hf => by cases hf⟩

/-! ## One header of a packet -/

/-- A header that cannot be dealt with ends the reception. -/
theorem receiveValue_err (hi : UInt8) (hlen len : Nat) :
    wp (receiveValue C p hi hlen len none true) (fun err _ => err = true) (fun _ _ => True) s := by
  rw [receiveValue, wp_bind, wp_get, wp_ite]
  refine ⟨fun _ => rfl, fun _ => ?_⟩
  dsimp only
  rw [wp_bind, wp_pure, if_pos rfl]
  rfl

/-- One that has been dealt with is taken off the message. -/
theorem receiveValue_none (hi : UInt8) (n len : Nat) :
    wp (receiveValue C p hi n len none false)
      (fun err s' => err = false → s' = s.setRxMsg (bufRemoveBegin s.rxMsg n)) (fun _ _ => True) s := by
  rw [receiveValue, wp_bind, wp_get, wp_ite]
  refine ⟨fun _ hf => absurd hf (by simp), fun _ => ?_⟩
  dsimp only
  rw [wp_bind, wp_pure, if_neg Bool.false_ne_true, wp_bind, wp_modify]
  exact fun _ => rfl

namespace Reeling

/-- Another part of the object changes. -/
theorem update (h : Reeling p r body m s) {f : ObexObject → ObexObject}
    (hf : ∀ o, s.objects p = some o → (f o).rxHeaderqRm = o.rxHeaderqRm ∧ (f o).rxHeaderq =
      o.rxHeaderq ∧
      (BodySoFar body o.rxBody → BodySoFar body' (f o).rxBody)) :
    wp (update p f) (fun _ => Reeling p r body' m) E s := by
  obtain ⟨o, ho, hseen, hleft, hbody⟩ := h.lists
  rw [wp_update]
  refine ⟨fun o' ho' => ?_, fun hn => absurd (ho.symm.trans hn) (by simp)⟩
  cases ho.symm.trans ho'
  obtain ⟨hrm, hq, hb⟩ := hf o ho
  exact ⟨h.toReeled.replace rfl (hrm.trans hseen) (hq.trans hleft) (hb hbody), h.object, h.rxMsg⟩

theorem removeBegin (h : Reeling p r body m s) (n : Nat) :
    Reeling p r body (bufRemoveBegin m n) (s.setRxMsg (bufRemoveBegin s.rxMsg n)) :=
  ⟨⟨h.lists, h.sorted, h.bound⟩, h.object, congrArg (bufRemoveBegin · n) h.rxMsg⟩

/-- A new element is queued. -/
theorem put (h : Reeling p r body m s) {o o' : ObexObject} (ho : s.objects p = some o)
    {e : HeaderElement} (he : addr e = s.fresh) (hrm : o'.rxHeaderqRm = o.rxHeaderqRm)
    (hq : o'.rxHeaderq = slistAppend o.rxHeaderq e)
    (hbody : BodySoFar body o.rxBody → BodySoFar body' o'.rxBody) :
    Reeling p ⟨r.seen, r.left ++ [e]⟩ body' m
      (({ s with fresh := s.fresh + 1 } : Obex).setObject p (some o')) := by
  obtain ⟨o₁, ho₁, hseen, hleft, hb⟩ := h.lists
  cases ho.symm.trans ho₁
  have hcontents : Reel.contents ⟨r.seen, r.left ++ [e]⟩ = r.contents ++ [e] :=
    (List.append_assoc _ _ _).symm
  refine ⟨⟨⟨o', objects_setObject _ _ _, hrm.trans hseen, ?_, hbody hb⟩, ?_, ?_⟩, h.object, h.rxMsg⟩
  · rw [hq, hleft, slistAppend]
  · rw [hcontents, List.map_append, List.pairwise_append]
    refine ⟨h.sorted, List.pairwise_singleton _ _, fun a ha b hb => ?_⟩
    obtain ⟨e', he', rfl⟩ := List.mem_map.1 ha
    rw [List.map_singleton, List.mem_singleton] at hb
    have hlt := h.bound e' he'
    rw [hb, he]
    exact hlt
  · intro e' he'
    rw [hcontents] at he'
    rcases List.mem_append.1 he' with he' | he'
    · exact Nat.lt_succ_of_lt (h.bound e' he')
    · rw [List.mem_singleton.1 he', he]
      exact Nat.lt_succ_self _

/-- A header that is no part of a body is queued with its value. -/
theorem queueElement (room : Bool) (h : Reeling p r body m s) {hi : UInt8} {source len n : Nat}
    (hfront : Front m hi source len n) (hbody : ¬ (hi = obexHdrBody ∨ hi = obexHdrBodyEnd)) :
    wp (queueElement C p hi source len)
      (fun queued s' => queued = true → ∃ d, bufPeek m source len = some d ∧
      Winds room r body [.arrives { hi, value := d }] fun r' body' => Reeling p r' body' m s')
      (fun _ _ => True) s := by
  obtain ⟨o, ho, -⟩ := h.lists
  by_cases hm : C.malloc sizeofHeaderElement = true
  · by_cases hb : C.malloc (if len = 0 then 1 else len) = true
    · refine wp_queueElement hm hb ho (fun d b hd hc _ => ?_) fun _ => trivial
      rw [h.rxMsg] at hd
      have hlen := bufPeek_length hd
      refine ⟨d, hd, .step (.put (decide_eq_false hbody) ⟨rfl, fun _ => ⟨hfront.typed hlen, ?_⟩⟩)
        (.put r.seen r.left _) (h.put ho rfl rfl rfl id)⟩
      refine ⟨rfl, b, rfl, ?_, fun _ => hc, fun hf => by cases hf⟩
      rw [← length_contents, hc, hlen]
    · rw [OpenObex.queueElement, wp_bind, wp_get, if_pos hm, alloc, wp_bind, wp_bind, wp_get, wp_bind,
        wp_set, wp_pure, bufNew, if_neg hb]
      exact fun hf => by cases hf
  · rw [OpenObex.queueElement, wp_bind, wp_get, if_neg hm]
    exact fun hf => by cases hf

theorem hint (h : Reeling p r body m s) (hi : UInt8) (msg : Buf) :
    wp (when (hi = obexHdrLength) (hintBodyLen p msg)) (fun _ => Reeling p r body m)
      (fun _ _ => True) s := by
  have byte {α : Type} {f : UInt8 → M α} {Q : α → Obex → Prop} {off : Nat}
      (hf : ∀ b, wp (f b) Q (fun _ _ => True) s) :
      wp (byteAt msg off >>= f) Q (fun _ _ => True) s := by
    rw [wp_bind]
    exact wp_byteAt_reach (fun b _ => hf b) fun _ => trivial
  rw [wp_when]
  refine ⟨fun _ => ?_, fun _ => h⟩
  exact byte fun _ => byte fun _ => byte fun _ => byte fun _ => h.update fun o _ => ⟨rfl, rfl, id⟩

/-- The value of a header that is no part of a body. -/
theorem receiveValue (room : Bool) (h : Reeling p r body m s) {hi : UInt8} {source len n : Nat}
    (hfront : Front m hi source len n) (hbody : ¬ (hi = obexHdrBody ∨ hi = obexHdrBodyEnd)) :
    wp (receiveValue C p hi n len (some source) false) (fun err s' => err = false →
      ∃ d, bufPeek m source len = some d ∧ Winds room r body [.arrives { hi, value := d }]
        fun r' body' =>
        Reeling p r' body' (bufRemoveBegin m n) s') (fun _ _ => True) s := by
  rw [OpenObex.receiveValue, wp_bind, wp_get, wp_ite]
  refine ⟨fun _ hf => absurd hf (by simp), fun _ => ?_⟩
  dsimp only
  rw [wp_bind, wp_bind]
  refine wp_conseq (h.hint hi s.rxMsg) fun _ s₁ h₁ => ?_
  rw [wp_bind]
  refine wp_conseq (h₁.queueElement room hfront hbody) fun queued s₂ h₂ => ?_
  rw [wp_pure, wp_ite]
  refine ⟨fun _ hf => absurd hf (by simp), fun herr => ?_⟩
  cases queued with
  | false => simp at herr
  | true =>
    obtain ⟨d, hpeek, hwinds⟩ := h₂ rfl
    rw [wp_bind, wp_modify]
    exact fun _ => ⟨d, hpeek, hwinds.imp fun _ _ h' => h'.removeBegin n⟩

/-- A body is kept, or queued when it is whole. -/
theorem storeRxBody (h : Reeling p r body m s) {hi : UInt8}
    (hhi : hi = obexHdrBody ∨ hi = obexHdrBodyEnd) {d : Bytes} {b : Buf} (hb : Gathers (body ++ d) b) :
    wp (storeRxBody C p hi b) (fun _ s' => Winds (C.malloc sizeofHeaderElement) r body
      [.arrives { hi, value := d }] fun r' body' => Reeling p r' body' m s') (fun _ _ => True) s := by
  unfold OpenObex.storeRxBody
  rw [wp_ite]
  refine ⟨fun hend => ?_, fun hend => ?_⟩
  · rw [wp_ite]
    refine ⟨fun hm => ?_, fun hm => ?_⟩
    · obtain ⟨o, ho, -⟩ := h.lists
      rw [alloc, wp_bind, wp_bind, wp_get, wp_bind, wp_set, wp_pure, wp_update]
      refine ⟨fun o' ho' => ?_, fun _ => trivial⟩
      cases ho.symm.trans ho'
      exact .step (.last hend hm (hb.stocks s.fresh)) (.put r.seen r.left _)
        (h.put ho rfl rfl rfl fun _ => rfl)
    · refine wp_conseq (h.update fun o _ => ⟨rfl, rfl, fun _ => rfl⟩) fun _ s' h' => ?_
      exact .still (.dropped hend (Bool.eq_false_iff.2 hm)) h'
  · refine wp_conseq (h.update fun o _ => ⟨rfl, rfl, fun _ => hb⟩) fun _ s' h' => ?_
    exact .still (.fragment (hhi.resolve_right hend)) h'

theorem receiveBody (h : Reeling p r body m s) {hi : UInt8}
    (hhi : hi = obexHdrBody ∨ hi = obexHdrBodyEnd) {len : Nat} (hlen : len < 65536 ∨ 4294967293 ≤ len) :
    wp (obexObjectReceiveBody C p hi len) (fun ret s' => 0 ≤ ret → ∃ d, bufPeek m 3 len = some d ∧
      Winds (C.malloc sizeofHeaderElement) r body [.arrives { hi, value := d }] fun r' body' =>
        Reeling p r' body' m s') (fun _ _ => True) s := by
  have hfail : ¬ (0 : Int) ≤ -1 := by decide
  rw [obexObjectReceiveBody, wp_bind, wp_get, wp_ite]
  refine ⟨fun _ hge => absurd hge hfail, fun _ => ?_⟩
  rw [wp_bind, wp_deref]
  refine ⟨fun o ho => ?_, fun _ => trivial⟩
  cases hbuf : rxBodyBuf C o len with
  | none => exact fun hge => absurd hge hfail
  | some b =>
    have hgathers {body₁ : Bytes} (hb : BodySoFar body₁ o.rxBody) : Gathers body₁ b :=
      gathers_rxBodyBuf hb hbuf
    obtain ⟨o', ho', -, -, hbody⟩ := h.lists
    cases ho.symm.trans ho'
    dsimp only
    rw [wp_bind]
    refine wp_conseq (h.update fun o _ => ⟨rfl, rfl, fun _ => hgathers hbody⟩) fun _ s₁ h₁ => ?_
    cases hgrow : growRxBody C b len with
    | none => exact fun hge => absurd hge hfail
    | some b₁ =>
      dsimp only
      rw [wp_bind]
      refine wp_peek (fun d hd => ?_) trivial
      rw [h.rxMsg] at hd
      obtain rfl := bufPeek_length hd
      rw [wp_bind, wp_require]
      refine ⟨fun b₂ hb₂ => ?_, fun _ => trivial⟩
      rw [wp_bind]
      refine wp_conseq (h₁.storeRxBody hhi ((hgathers hbody).add hlen hgrow hb₂)) fun _ s₂ h₂ _ => ?_
      exact ⟨d, hd, h₂⟩

end Reeling

/-- The header at the front is queued or kept for a body. -/
def HeldBack (room : Bool) (p : Ptr) (r : Reel HeaderElement) (body : Bytes) (s s' : Obex) : Prop :=
  ∃ h n, AtFront s.rxMsg h n ∧ (h.isBody = false ∨ ∃ o, s.objects p = some o ∧ o.sSrv = false) ∧
    Winds room r body [.arrives h] fun r' body' => Reeling p r' body' (bufRemoveBegin s.rxMsg n) s'

/-- It goes to the stream. -/
def GoesToStream (p : Ptr) (s s' : Obex) : Prop :=
  ∃ hi source len n o t s₁, Front s.rxMsg hi source len n ∧ (hi = obexHdrBody ∨ hi = obexHdrBodyEnd) ∧
    s.objects p = some o ∧ o.sSrv = true ∧ Calls p s t s₁ ∧ s' = s₁.setRxMsg (bufRemoveBegin s.rxMsg n)

/-- One round of the loop. -/
theorem Reeling.receiveHeader (hC : Visits C p) (h : Reeling p r body s.rxMsg s) :
    wp (receiveHeader C p) (fun err s' => err = false →
      HeldBack (C.malloc sizeofHeaderElement) p r body s s' ∨ GoesToStream p s s')
        (fun _ _ => True) s := by
  have hvalue {hi : UInt8} {source len n : Nat} (hfront : Front s.rxMsg hi source len n)
      (hbody : ¬ (hi = obexHdrBody ∨ hi = obexHdrBodyEnd)) :
      wp (OpenObex.receiveValue C p hi n len (some source) false) (fun err s' => err = false →
        HeldBack (C.malloc sizeofHeaderElement) p r body s s' ∨ GoesToStream p s s')
          (fun _ _ => True) s := by
    refine wp_conseq (h.receiveValue (C.malloc sizeofHeaderElement) hfront hbody)
      fun err s' h' herr => ?_
    obtain ⟨d, hpeek, hwinds⟩ := h' herr
    exact .inl ⟨_, n, ⟨source, len, hfront, hpeek⟩, .inl (decide_eq_false hbody), hwinds⟩
  have hplain {hi : UInt8} (hk : hiType hi ≠ .byteStream) :
      ¬ (hi = obexHdrBody ∨ hi = obexHdrBodyEnd) := by
    rintro (rfl | rfl)
    · exact hk rfl
    · exact hk rfl
  rw [OpenObex.receiveHeader, wp_bind, wp_get, wp_bind]
  refine wp_byteAt_reach (fun hi hfirst => ?_) fun _ => trivial
  cases hk : hiType hi with
  | unicode =>
    dsimp only
    rw [wp_bind]
    refine wp_byteAt_reach (fun a ha => ?_) fun _ => trivial
    rw [wp_bind]
    refine wp_byteAt_reach (fun b hb => ?_) fun _ => trivial
    exact hvalue (.sized hfirst (.inl hk) ha hb) (hplain (by rw [hk]; simp))
  | byte => exact hvalue (.byte hfirst hk) (hplain (by rw [hk]; simp))
  | int => exact hvalue (.int hfirst hk) (hplain (by rw [hk]; simp))
  | byteStream =>
    dsimp only
    rw [wp_bind]
    refine wp_byteAt_reach (fun a ha => ?_) fun _ => trivial
    rw [wp_bind]
    refine wp_byteAt_reach (fun b hb => ?_) fun _ => trivial
    have hfront : Front s.rxMsg hi 3 _ _ := .sized hfirst (.inr hk) ha hb
    rw [wp_ite]
    refine ⟨fun hbody => ?_, fun hbody => hvalue hfront hbody⟩
    rw [wp_bind, receiveBodyHeader, wp_bind, wp_deref]
    refine ⟨fun o ho => ?_, fun _ => trivial⟩
    rw [wp_ite]
    -- a fragment of a body is handed out at once when the object streams, and gathered otherwise
    refine ⟨fun hsrv => ?_, fun hsrv => ?_⟩
    · rw [wp_bind]
      refine wp_conseq (calls_receiveStream hC h.object hi _) ?_
      rintro _ s₁ ⟨t, ht⟩
      obtain ⟨-, -, hmsg⟩ := ht.reeled true h.toReeled
      rw [wp_pure]
      refine wp_conseq (receiveValue_none hi _ _) fun err s' h' herr => .inr ?_
      have hs' := h' herr
      rw [hmsg] at hs'
      exact ⟨hi, 3, _, _, o, t, s₁, hfront, hbody, ho, hsrv, ht, hs'⟩
    · rw [wp_bind]
      refine wp_conseq (h.receiveBody hbody hfront.len_cases) fun ret s₁ h₁ => ?_
      rw [wp_pure]
      by_cases hret : ret < 0
      · rw [decide_eq_true hret]
        refine wp_conseq (receiveValue_err hi _ _) fun err' s₂ herr' hf => ?_
        rw [herr'] at hf
        cases hf
      · rw [decide_eq_false hret]
        obtain ⟨d, hpeek, hwinds⟩ := h₁ (Int.not_lt.1 hret)
        refine wp_conseq (receiveValue_none hi _ _) fun err s' h' herr => .inl ?_
        obtain rfl := h' herr
        refine ⟨{ hi, value := d }, _, ⟨3, _, hfront, hpeek⟩,
          .inr ⟨o, ho, Bool.eq_false_iff.2 hsrv⟩, ?_⟩
        exact hwinds.imp fun _ _ h' => h'.removeBegin _

/-! ## The whole packet -/

/-- A loop that ends well goes over the headers of the packet. -/
theorem Reeling.receiveHeaders (hC : Visits C p) (h : Reeling p r body s.rxMsg s) (fuel : Nat) :
    wp (receiveHeaders C p fuel) (fun ret s' => 0 ≤ ret → ∃ t, Rounds C p s t s') (fun _ _ => True)
      s := by
  induction fuel generalizing r body s with
  | zero =>
    rw [OpenObex.receiveHeaders, wp_bind, wp_get, wp_ite]
    exact ⟨fun h0 _ => ⟨[], .done h0⟩, fun _ => trivial⟩
  | succ fuel ih =>
    rw [OpenObex.receiveHeaders, wp_bind, wp_get, wp_ite]
    refine ⟨fun h0 _ => ⟨[], .done h0⟩, fun h0 => ?_⟩
    rw [wp_bind]
    refine wp_mono (wp_and (h.receiveHeader hC) wp_self) ?_ fun _ _ _ => trivial
    rintro err s' ⟨hround, hrun⟩
    rw [wp_ite]
    refine ⟨fun _ hge => absurd hge (by decide), fun herr => ?_⟩
    rw [Bool.not_eq_true] at herr
    rw [herr] at hrun
    rcases hround herr with ⟨x, n, hfront, hplain, _, r', body', -, -, h'⟩ |
      ⟨hi, source, len, n, o, t, s₁, hfront, hhi, ho, hsrv, hcalls, rfl⟩
    · have hmsg := h'.rxMsg
      rw [← hmsg] at h'
      refine wp_conseq (ih h') fun ret s'' hrest hge => ?_
      obtain ⟨u, hu⟩ := hrest hge
      exact ⟨_, .round h0 hrun (.taken hfront hplain hmsg) hu⟩
    · obtain ⟨⟨_, r', body', -, -, h'⟩, hobj, -⟩ := hcalls.reeled true h.toReeled
      have h₁ : Reeling p r' body' (bufRemoveBegin s.rxMsg n)
        (s₁.setRxMsg (bufRemoveBegin s.rxMsg n)) :=
        ⟨⟨h'.lists, h'.sorted, h'.bound⟩, hobj.trans h.object, rfl⟩
      refine wp_conseq (ih h₁) fun ret s'' hrest hge => ?_
      obtain ⟨u, hu⟩ := hrest hge
      exact ⟨_, .round h0 hrun (.streamed hfront hhi ho hsrv hcalls) hu⟩

theorem bufRemoveBegin_none (b : Buf) : bufRemoveBegin b 0 = b := by
  obtain ⟨buffer, data, headAvail, dataAvail, tailAvail, dataSize, hdata, hsize⟩ := b
  unfold bufRemoveBegin
  by_cases h0 : 0 < dataSize
  · simp [h0, hdata]
  · obtain rfl : dataSize = 0 := Nat.eq_zero_of_not_pos h0
    simp [hdata]

theorem Reeling.receiveNonhdr (h : Reeling p r body m s) {o : ObexObject} (ho : s.objects p = some o) :
    wp (receiveNonhdr C p)
      (fun ok s' => ok = true → Reeling p r body (bufRemoveBegin m o.headeroffset) s')
      (fun _ _ => True) s := by
  rw [OpenObex.receiveNonhdr, wp_bind, wp_deref, ho]
  refine ⟨?_, by simp⟩
  rintro _ ⟨⟩
  rw [wp_ite]
  refine ⟨fun h0 _ => ?_, fun _ => ?_⟩
  · rw [h0, bufRemoveBegin_none]
    exact h
  split
  · rw [wp_bind]
    exact wp_conseq (h.update fun o _ => ⟨rfl, rfl, id⟩) fun _ s' _ hok => by cases hok
  · rw [wp_bind, wp_get, wp_bind]
    refine wp_peek (fun d _ => ?_) trivial
    rw [wp_bind, wp_require]
    refine ⟨fun b _ => ?_, fun _ => trivial⟩
    rw [wp_bind]
    refine wp_conseq (h.update fun o _ => ⟨rfl, rfl, id⟩) fun _ s' h' => ?_
    rw [wp_bind, wp_modify]
    exact fun _ => h'.removeBegin _

theorem Reeled.reeling (h : Reeled p r body s) (hobj : s.object = some p) :
    Reeling p r body (bufRemoveBegin s.rxMsg 3) (s.setRxMsg (bufRemoveBegin s.rxMsg 3)) :=
  ⟨⟨h.lists, h.sorted, h.bound⟩, hobj, rfl⟩

theorem wp_reception (hC : Visits C p) (h : Reeled p r body s) (hobj : s.object = some p) :
    wp (obexObjectReceive C) (fun ret s' => 0 ≤ ret → ∃ t, Reception C p s t s') (fun _ _ => True)
      s := by
  obtain ⟨o, ho, -⟩ := h.lists
  rw [obexObjectReceive, wp_bind, wp_modify, wp_bind, wp_selfObject, show
    (s.setRxMsg (bufRemoveBegin s.rxMsg 3)).object = some p from hobj]
  refine ⟨?_, by simp⟩
  rintro _ ⟨⟩
  rw [wp_bind]
  refine wp_mono (wp_and ((h.reeling hobj).receiveNonhdr ho) wp_self) ?_ fun _ _ _ => trivial
  rintro ok s₁ ⟨h₁, hrun⟩
  rw [wp_ite]
  refine ⟨fun hok => ?_, fun _ hge => absurd hge (by decide)⟩
  have h₁ := h₁ hok
  have hmsg := h₁.rxMsg
  rw [hok] at hrun
  rw [← hmsg] at h₁
  rw [wp_bind, wp_get]
  refine wp_conseq (h₁.receiveHeaders hC _) fun ret s' hrest hge => ?_
  obtain ⟨t, ht⟩ := hrest hge
  exact ⟨t, o, s₁, ho, hrun, hmsg, ht⟩

/-- The rounds play the reel. -/
theorem Rounds.reeled (hC : Visits C p) (hr : Rounds C p s t s') (h : Reeling p r body s.rxMsg s) :
    Winds (C.malloc sizeofHeaderElement) r body t fun r' body' => Reeled p r' body' s' := by
  induction hr generalizing r body with
  | done => exact .none h.toReeled
  | round _ hrun hhandled _ ih =>
    have hround := wp_ok (h.receiveHeader hC) hrun rfl
    cases hhandled with
    | taken hfront hplain hmsg =>
      rcases hround with ⟨x, n, hfront', -, hwinds⟩ | ⟨_, _, _, _, _, _, _, hfront', hhi, ho,
        hsrv, -, -⟩
      · obtain ⟨rfl, rfl⟩ := hfront.unique hfront'
        rw [← hmsg] at hwinds
        exact hwinds.append fun r₁ body₁ h₁ => ih h₁
      · -- the header is not streamed
        obtain ⟨_, _, hfront, -⟩ := hfront
        obtain ⟨he, -⟩ := hfront.unique hfront'
        rcases hplain with hplain | ⟨o, ho', hoff⟩
        · exact absurd hhi (he ▸ of_decide_eq_false hplain)
        · cases ho.symm.trans ho'
          rw [hsrv] at hoff
          cases hoff
    | @streamed hi source len n o t s₁ _ _ _ _ hcalls =>
      obtain ⟨hwinds, hobj, -⟩ := hcalls.reeled (C.malloc sizeofHeaderElement) h.toReeled
      have hstream : Winds (C.malloc sizeofHeaderElement) r body [.streams hi] fun r' body' =>
        r' = r ∧ body' = body := .still (.streams body hi) ⟨rfl, rfl⟩
      have hfirst := hstream.append fun r₁ body₁ ⟨hr, hb⟩ => by
        rw [hr, hb]
        exact hwinds
      exact hfirst.append fun r₁ body₁ h₁ =>
        ih ⟨⟨h₁.lists, h₁.sorted, h₁.bound⟩, hobj.trans h.object, rfl⟩

theorem Reception.reeled (hC : Visits C p) (hrec : Reception C p s t s') (h : Reeled p r body s)
    (hobj : s.object = some p) :
    Winds (C.malloc sizeofHeaderElement) r body t fun r' body' => Reeled p r' body' s' := by
  obtain ⟨o, s₁, ho, hrun, hmsg, hrounds⟩ := hrec
  have h₁ := wp_ok ((h.reeling hobj).receiveNonhdr ho) hrun rfl
  rw [← hmsg] at h₁
  exact hrounds.reeled hC h₁

theorem Session.reeled {s₀ : Obex} (hC : Visits C p) (hs : Session C p s₀ t s)
    (h : Reeled p r body s₀) :
    Winds (C.malloc sizeofHeaderElement) r body t fun r' body' => Reeled p r' body' s := by
  induction hs with
  | start => exact .none h
  | receive _ hobj _ _ hrec ih => exact ih.append fun r₁ body₁ h₁ => hrec.reeled hC h₁ hobj
  | visit _ hc ih => exact ih.append fun r₁ body₁ h₁ => (hc.reeled _ h₁).1
  | aside _ ha ih => exact ih.imp fun _ _ h₁ => h₁.aside ha

/-! ## An application that reads headers in its callback -/

/-- A call that reads the headers of `p`, or none of the calls that could move them. -/
def Call.ForHeaders (p : Ptr) : Call → Prop
  | .objectGetNextHeader object => object = p
  | .objectReParseHeaders object => object = p
  | .objectReadStream _ _ => True
  | .objectSetRsp _ _ _ => True
  | _ => False

theorem wp_api_forHeaders {c : Call} (hc : c.ForHeaders p) (hs : ∃ t, Calls p s t s') :
    wp (api C c) (fun _ s'' => ∃ t, Calls p s t s'') (fun _ _ => True) s' := by
  obtain ⟨t, ht⟩ := hs
  cases c with
  | objectGetNextHeader object =>
    obtain rfl : object = p := hc
    rw [api, wp_bind]
    exact wp_conseq wp_self fun out s'' hout => ⟨_, ht.next hout⟩
  | objectReParseHeaders object =>
    obtain rfl : object = p := hc
    exact wp_conseq wp_self fun ret s'' hret => ⟨_, ht.reparse hret⟩
  | objectReadStream object buf =>
    rw [api, obexObjectReadstream, wp_bind, wp_deref]
    refine ⟨fun o _ => ?_, fun _ => trivial⟩
    rw [wp_ite]
    refine ⟨fun _ => ⟨t, ht⟩, fun _ => ?_⟩
    exact wp_bind.2 (calls_update ⟨t, ht⟩ fun o => ⟨rfl, rfl, rfl⟩)
  | objectSetRsp object rsp lastrsp =>
    exact wp_bind.2 (calls_update ⟨t, ht⟩ fun o => ⟨rfl, rfl, rfl⟩)
  | _ => exact hc.elim

theorem visits_ctx {A : Env} {G : Guard} (h : ∀ log, ∀ c ∈ A.app log, c.ForHeaders p) (n : Nat) :
    Visits (A.ctx G n) p := by
  intro notice s
  refine wp_conseq (wp_eventcb (P := fun s' => ∃ t, Calls p s t s') (R := fun _ _ => True)
    (fun _ _ _ _ => trivial) ⟨[], .none⟩ fun m _ c hc s' hs' _ => ?_) fun _ s' h' => h'.1
  exact wp_api_forHeaders (h _ c hc) hs'

/-- What has come of a body. -/
def bodyBegun (o : ObexObject) : Bytes := (o.rxBody.map Buf.contents).getD []

theorem bodySoFar_begun {o : ObexObject} (h : ∀ b, o.rxBody = some b → b.data = 0) :
    BodySoFar (bodyBegun o) o.rxBody := by
  unfold bodyBegun
  generalize o.rxBody = x at *
  cases x with
  | none => rfl
  | some b => exact ⟨h b rfl, fun _ => rfl⟩

theorem map_hi_of_stocks {xs : List Item} {es : List HeaderElement} (h : List.Forall₂ Stocks xs es) :
    (xs.map fun x => x.head.hi) = es.map fun e => e.hi := by
  induction h with
  | nil => rfl
  | cons hx _ ih => rw [List.map_cons, List.map_cons, ih, hx.hi]

/-- What is handed out for the element at a place is the header there. -/
theorem shows_getElem {xs : List Item} {es : List HeaderElement}
    {out : Option (UInt8 × HeaderValue × Nat)} {i : Nat} (h : List.Forall₂ Stocks xs es)
    (hout : HandsOut out es[i]?) : Option.Rel (fun v x => Shows x v) out xs[i]? := by
  induction h generalizing i with
  | nil =>
    cases hout
    exact .none
  | cons hx _ ih =>
    cases i with
    | zero =>
      rw [List.getElem?_cons_zero] at hout ⊢
      cases hout with
      | some hv => exact .some (hv _ hx)
    | succ i => exact ih hout

/-- The headers of an object, from when none are queued. The two lists are what its history has queued,
each once, in order and with its value; `OBEX_ObjectGetNextHeader` hands out the first one that has not
been read, and a pass over them hands out all. Every reception that is accepted is part of such a
session, with all the headers of its packet. -/
theorem received_headers_kept {C : Ctx} {p : Ptr} {s₀ : Obex} {o₀ : ObexObject} (hC : Visits C p)
    (ho : s₀.objects p = some o₀) (hrm : o₀.rxHeaderqRm = []) (hq : o₀.rxHeaderq = [])
    (hbody : ∀ b, o₀.rxBody = some b → b.data = 0) :
    (∀ t s ret s', Session C p s₀ t s → s.object = some p → obexObjectReceive C s = .ok ret s' →
      0 ≤ ret → ∃ u, Reception C p s u s') ∧
    (∀ t s, Session C p s₀ t s → ∃ o, s.objects p = some o ∧
      List.Forall₂ Stocks (enqueued (C.malloc sizeofHeaderElement) (bodyBegun o₀) t)
        (o.rxHeaderqRm ++ o.rxHeaderq) ∧
      Distinct (o.rxHeaderqRm ++ o.rxHeaderq) ∧
      (∀ out s', obexObjectGetnextheader p s = .ok out s' → Option.Rel (fun v x => Shows x v) out
        (enqueued (C.malloc sizeofHeaderElement) (bodyBegun o₀) t)[o.rxHeaderqRm.length]?) ∧
      ∀ t₁ t₂ t₃, t = t₁ ++ .reparse true :: (t₂ ++ .next none :: t₃) → .reparse true ∉ t₂ →
        List.Forall₂ Shows (enqueued (C.malloc sizeofHeaderElement) (bodyBegun o₀) (t₁ ++ t₂))
          (handedOut t₂)) := by
  have h₀ : Reeled p Reel.empty (bodyBegun o₀) s₀ :=
    ⟨⟨o₀, ho, hrm, hq, bodySoFar_begun hbody⟩, List.Pairwise.nil, fun e he =>
      absurd he List.not_mem_nil⟩
  refine ⟨fun t s ret s' hs hobj hrun hge => ?_, fun t s hs => ?_⟩
  · obtain ⟨_, r, body, -, -, h⟩ := hs.reeled hC h₀
    exact wp_ok (wp_reception hC h hobj) hrun hge
  · obtain ⟨u, r, body, hrecount, hplay, h⟩ := hs.reeled hC h₀
    obtain ⟨o, ho, hseen, hleft, -⟩ := h.lists
    have hputs : r.contents = Reel.puts u := hplay.contents
    have hlists : o.rxHeaderqRm ++ o.rxHeaderq = r.contents := by rw [hseen, hleft, Reel.contents]
    have hqueued := hrecount.puts
    rw [← hputs, ← hlists] at hqueued
    refine ⟨o, ho, hqueued, ?_, fun out s' hout => ?_, ?_⟩
    · rw [hlists]
      exact distinct_of_sorted h.sorted
    · have hnext := (next_reeled h hout).2.2.2
      have hfirst : r.left.head? = (o.rxHeaderqRm ++ o.rxHeaderq)[o.rxHeaderqRm.length]? := by
        rw [List.getElem?_append_right (Nat.le_refl _), Nat.sub_self, hleft, List.head?_eq_getElem?]
      rw [hfirst] at hnext
      generalize o.rxHeaderqRm.length = i at hnext ⊢
      generalize o.rxHeaderqRm ++ o.rxHeaderq = es at hnext hqueued
      exact shows_getElem hqueued hnext
    · rintro t₁ t₂ t₃ rfl hpass
      exact hrecount.pass hplay hpass

/-- An application that reads a header whenever it is called. -/
def readingPeer : Env := { quietPeer with app := fun _ => [.objectGetNextHeader 0] }

/-- A header of one byte, and a body in two fragments. -/
def twoFragments : Bytes :=
  [0x82, 0x00, 0x0d, 0x97, 0x01, 0x48, 0x00, 0x04, 0x61, 0x49, 0x00, 0x04, 0x62]

theorem received_headers_kept_body :
    ∃ t s o, Session (readingPeer.ctx .all 2) 0 (receiving twoFragments) t s ∧
    s.objects 0 = some o ∧ List.Forall₂ Stocks (enqueued true [] t) (o.rxHeaderqRm ++ o.rxHeaderq) ∧
    (enqueued true [] t).map (fun x => x.head.hi) = [0x97, obexHdrBody] := by
  have hC : Visits (readingPeer.ctx .all 2) 0 := by
    refine visits_ctx (fun log c hc => ?_) 2
    rw [List.mem_singleton.1 hc]
    exact rfl
  obtain ⟨hall, hkept⟩ := received_headers_kept hC (receiving_objects twoFragments) rfl rfl fun b hb =>
    by cases hb
  have hret : returnsWith (obexObjectReceive (readingPeer.ctx .all 2)) (receiving twoFragments)
      (fun r => decide (0 ≤ r)) = true := by
    decide +kernel
  have hend : endsWith (obexObjectReceive (readingPeer.ctx .all 2)) (receiving twoFragments)
    (fun s => decide
      ((s.objects 0).map (fun o => (o.rxHeaderqRm ++ o.rxHeaderq).map fun e => e.hi) =
        some [0x97, obexHdrBody])) = true := by
    decide +kernel
  obtain ⟨ret, s, hrun, hhis⟩ := exists_ok_of_endsWith hend
  have hge : 0 ≤ ret := by
    rw [returnsWith, hrun] at hret
    exact of_decide_eq_true hret
  obtain ⟨u, hu⟩ := hall [] _ ret s .start rfl hrun hge
  have hs := Session.start.receive rfl hrun hge hu
  obtain ⟨o, ho, hlists, -⟩ := hkept _ s hs
  refine ⟨_, s, o, hs, ho, hlists, ?_⟩
  have hhis := of_decide_eq_true hhis
  rw [ho, Option.map_some, Option.some_inj] at hhis
  rw [← hhis]
  exact map_hi_of_stocks hlists

end OpenObex
