import OpenObex.Lib.Dialog
import OpenObex.Proof.Answer
import OpenObex.Proof.Transfer

/-!
# A conversation of two handles

The packets of a client and of a server are passed on one at a time (`Converse`), and `Story` is what
the log of a handle tells about it. Both applications leave the library alone except where they are told
(`ignored_event`), and a packet without headers is written and received with little ado.
-/

namespace OpenObex

open Mem Prog Trace

/-! ## What a log tells -/

/-- The packets written, the requests handed to the application and the requests that are done. -/
structure Story where
  written : List Bytes
  requested : List Notice
  done : List Notice

namespace Story

def wrote (w : Story) (d : Bytes) : Story := { w with written := w.written ++ [d] }

def handed (w : Story) (n : Notice) : Story := { w with requested := w.requested ++ [n] }

def finished (w : Story) (n : Notice) : Story := { w with done := w.done ++ [n] }

def step (w : Story) : Obs → Story
  | .write _ _ d => w.wrote d
  | .event n =>
    match n.event with
    | .req => w.handed n
    | .reqdone => w.finished n
    | _ => w
  | _ => w

end Story

def story (log : List Obs) : Story := after Story.step ⟨[], [], []⟩ log

@[simp] theorem story_append (log : List Obs) (x : Obs) : story (log ++ [x]) = (story log).step x :=
  after_append _ _ _ _

theorem story_answers {log xs : List Obs} (h : Answers xs) : story (log ++ xs) = story log := by
  induction xs generalizing log with
  | nil => rw [List.append_nil]
  | cons x xs ih =>
    obtain ⟨chunk, r, rfl⟩ := h x List.mem_cons_self
    have hxs : story (log ++ [.io chunk r] ++ xs) = story (log ++ [.io chunk r]) :=
      ih fun y hy => h y (List.mem_cons_of_mem _ hy)
    rw [List.append_assoc] at hxs
    exact hxs.trans (story_append _ _)

theorem story_event {log : List Obs} {n : Notice} (hreq : n.event ≠ .req) (hdone : n.event ≠ .reqdone) :
    story (log ++ [.event n]) = story log := by
  rw [story_append, Story.step]
  split <;> simp_all

theorem story_write {log xs : List Obs} (h : Answers xs) (q : Option Ptr) (k : PacketKind) (d : Bytes) :
    story (log ++ .write q k d :: xs) = (story log).wrote d := by
  have hxs : story (log ++ [.write q k d] ++ xs) = story (log ++ [.write q k d]) := story_answers h
  rw [List.append_assoc] at hxs
  exact hxs.trans (story_append _ _)

/-! ## One packet after the other -/

/-- The packets written since. -/
def since (s s' : Obex) : List Bytes := (story s'.log).written.drop (story s.log).written.length

theorem since_of_written {s s' : Obex} {ds : List Bytes}
    (h : (story s'.log).written = (story s.log).written ++ ds) : since s s' = ds := by
  rw [since, h, List.drop_left]

/-- The server at `s` takes the packet `d`, whatever lies behind it in `rx_msg`, and writes one
packet. -/
def serves (C : Ctx) : Dialog.Serve Obex Bytes := fun d s P => ∀ b : Buf, b.contents = d →
  wp (dispatch C (hasFinal d)) (fun _ s' => ∃ r, since s s' = [r] ∧ P r s') (fun _ _ => False)
    (s.setRxMsg b)

/-- A response that asks for the next packet. -/
def IsContinue (r : Bytes) : Prop := r.head? = some (obexRspContinue ||| obexFinal)

/-- The client at `c` takes the packet `r`, and writes one packet if it is a CONTINUE and none
otherwise. -/
def hears (C : Ctx) : Dialog.Hear Obex Bytes := fun r c P => ∀ b : Buf, b.contents = r →
  wp (dispatch C (hasFinal r))
    (fun _ c' => ∃ d : Option Bytes, since c c' = d.toList ∧ (d.isSome ↔ IsContinue r) ∧ P d c')
    (fun _ _ => False) (c.setRxMsg b)

theorem lawful_dispatch (C C' : Ctx) : Dialog.Lawful (serves C') (hears C) where
  serve := by
    intro d s P Q hPQ h b hb
    apply wp_conseq (h b hb)
    rintro _ s' ⟨r, hr, hP⟩
    exact ⟨r, hr, hPQ _ _ hP⟩
  hear := by
    intro r c P Q hPQ h b hb
    apply wp_conseq (h b hb)
    rintro _ c' ⟨d, hd, hcontinue, hP⟩
    exact ⟨d, hd, hcontinue, hPQ _ _ hP⟩

/-- `d` is on its way to the server at `s` and the client at `c` waits. Each packet is answered with one
CONTINUE until, after `n` packets at most, one is answered with another response and the client sends no
more; then `Q` holds of both. -/
def Converse (C C' : Ctx) (Q : Obex → Obex → Prop) (n : Nat) (d : Bytes) (c s : Obex) : Prop :=
  Dialog.Ends (serves C') (hears C) Q n d c s

/-! ## The state of a handle -/

theorem wp_deref_some {α : Type} {f : ObexObject → M α} {p : Ptr} {o : ObexObject} {Q : α → Obex → Prop}
    {R : Stop → Obex → Prop} {s : Obex} (ho : s.objects p = some o) (hf : wp (f o) Q R s) :
    wp (deref p >>= f) Q R s := by
  rw [wp_bind, wp_deref]
  refine ⟨fun o' ho' => ?_, fun hnone => ?_⟩
  · cases ho.symm.trans ho'
    exact hf
  · cases ho.symm.trans hnone

theorem wp_selfObject_some {α : Type} {f : Ptr → M α} {p : Ptr} {Q : α → Obex → Prop}
    {R : Stop → Obex → Prop} {s : Obex} (hp : s.object = some p) (hf : wp (f p) Q R s) :
    wp (selfObject >>= f) Q R s := by
  rw [wp_bind, wp_selfObject]
  refine ⟨fun q hq => ?_, fun hnone => ?_⟩
  · cases hp.symm.trans hq
    exact hf
  · cases hp.symm.trans hnone

theorem wp_currentOpcode_some {α : Type} {f : UInt8 → M α} {p : Ptr} {o : ObexObject}
    {Q : α → Obex → Prop} {R : Stop → Obex → Prop} {s : Obex} (hp : s.object = some p)
    (ho : s.objects p = some o) (hf : wp (f o.opcode) Q R s) : wp (currentOpcode >>= f) Q R s := by
  rw [currentOpcode, wp_bind]
  refine wp_selfObject_some hp ?_
  exact wp_deref_some ho hf

theorem wp_update_some {α : Type} {g : ObexObject → ObexObject} {f : Unit → M α} {p : Ptr}
    {o : ObexObject} {Q : α → Obex → Prop} {R : Stop → Obex → Prop} {s : Obex}
    (ho : s.objects p = some o) (hf : wp (f ()) Q R (s.setObject p (some (g o)))) :
    wp (update p g >>= f) Q R s := by
  rw [wp_bind, wp_update]
  refine ⟨fun o' ho' => ?_, fun hnone => ?_⟩
  · cases ho.symm.trans ho'
    exact hf
  · cases ho.symm.trans hnone

theorem wp_updateCurrent_some {α : Type} {g : ObexObject → ObexObject} {f : Unit → M α} {p : Ptr}
    {o : ObexObject} {Q : α → Obex → Prop} {R : Stop → Obex → Prop} {s : Obex} (hp : s.object = some p)
    (ho : s.objects p = some o) (hf : wp (f ()) Q R (s.setObject p (some (g o)))) :
    wp (updateCurrent g >>= f) Q R s := by
  have hupdate := wp_update_some (f := f) ho hf
  rw [wp_bind] at hupdate
  rw [updateCurrent, wp_bind]
  exact wp_selfObject_some hp hupdate

section
variable {E : Env} {G : Guard} {n : Nat} {s : Obex} {p : Ptr} {o : ObexObject}

theorem doWriteLoop_congr {C C' : Ctx} (h : C.write = C'.write) (mtu fuel : Nat) (a : Int) :
    doWriteLoop C mtu fuel a = doWriteLoop C' mtu fuel a := by
  induction fuel generalizing a with
  | zero => rfl
  | succ fuel ih => simp only [doWriteLoop, h, ih]

theorem transportWrite_congr {C C' : Ctx} (h : C.write = C'.write) :
    obexTransportWrite C = obexTransportWrite C' := by
  unfold obexTransportWrite doWrite
  simp only [h, doWriteLoop_congr h]

/-- A guard that lets every answer of the transport pass. -/
def Guard.writes (G : Guard) : Prop := G.write = fun _ _ => true

theorem ctx_write_of_writes (h : G.writes) : (E.ctx G n).write = (E.ctx .all n).write := by
  have hall : Guard.all.write = fun _ _ => true := rfl
  have hG : G.write = fun _ _ => true := h
  rw [ctx_write, ctx_write]
  funext chunk
  unfold Env.transportWrite
  simp only [hG, hall]

/-- What `wp_send_total` says of a guard that refuses nothing. -/
theorem wp_send_writes (hG : G.writes) (hm : ∀ k, E.malloc k = true)
    {allowfinalcmd forcefinalbit : Bool} (ho : s.objects p = some o)
    (hplain : ∀ e ∈ o.txHeaderq, e.stream = false) (hsuspend : o.suspend = false) {x : Filled}
    (hx : fill s.mtuTx n o.txHeaderq (initialTxLeft s) = some x)
    (hover : ¬ Overruns s.mtuTx n o.txHeaderq (initialTxLeft s)) (ha : Accepts E s) :
    wp (obexObjectSend (E.ctx G n) p allowfinalcmd forcefinalbit) (fun r t =>
        r = (if (chooseOpcode (sending o x.rest x.suspend) allowfinalcmd forcefinalbit).1 =
          .last then 1 else 0) ∧
        ∃ xs, Answers xs ∧ Transmitted (.write (some p)
            (chooseOpcode (sending o x.rest x.suspend) allowfinalcmd forcefinalbit).1
            (packet (chooseOpcode (sending o x.rest x.suspend) allowfinalcmd forcefinalbit).2
              (o.nonhdr ++ x.bytes)) :: xs)
          (s.setObject p (some (sending { o with txNonhdrData := none } x.rest x.suspend))) t)
      (fun _ _ => False) s := by
  have hm' : ∀ k, (E.ctx G n).malloc k = true := fun k => by rw [ctx_malloc]; exact hm k
  have hfuel : (E.ctx G n).fuel = n := by cases n <;> rfl
  have hsame (object : Option Ptr) (kind : PacketKind) (opcode : UInt8) :
      obexDataRequest (E.ctx G n) object kind opcode = obexDataRequest (E.ctx .all n) object kind
        opcode := by
    unfold obexDataRequest
    rw [ctx_malloc, ctx_malloc, transportWrite_congr (ctx_write_of_writes hG)]
  refine wp_send_fill ho hplain hsuspend (fun y m hy hmc => ?_) (fun m q hlong _ => ?_)
    fun e m d q b hno _ => ?_
  · rw [hfuel, hx] at hy
    cases hy
    rw [hsame]
    refine wp_mono (wp_dataRequest_total hm (some p) _ _ _) ?_ fun _ _ h => h
    rintro r t ⟨xs, hxs, ⟨m', rfl⟩, hret, -⟩
    have hr := hret ha
    rw [if_neg (by omega)]
    refine ⟨rfl, xs, hxs, m', ?_⟩
    rw [filling_txMsg, hmc]
    rfl
  · rw [hfuel] at hlong
    exact absurd hlong hover
  · rw [hfuel] at hno
    exact hno (.inl (by rw [hx]; simp)) hm'

end

/-! ## A packet is dispatched -/

section
variable {E : Env} {G : Guard} {n : Nat} {s : Obex} {Q : Obex → Prop} {R : Stop → Obex → Prop}
    {final : Bool}

theorem wp_recv_passes (hG : G.recv s = true) (hQ : Q (s.emit (.recv s.rxMsg.contents))) :
    wp ((E.ctx G n).recv) (fun _ => Q) R s := by
  rw [ctx_recv, packetReceived, wp_bind, wp_get, wp_bind, wp_emit, wp_allowed]
  exact ⟨fun _ => hQ, fun hf => by rw [hG] at hf; cases hf⟩

theorem dispatch_client (hG : G.recv s = true) (hm : s.mode = .cli)
    (h : wp (obexClient (E.ctx G n) true) (fun _ t => Q (t.setRxMsg (bufReuse t.rxMsg))) R
      (s.emit (.recv s.rxMsg.contents))) : wp (dispatch (E.ctx G n) final) (fun _ => Q) R s := by
  rw [dispatch, wp_bind]
  refine wp_recv_passes hG ?_
  rw [wp_bind, wp_get, show (s.emit (.recv s.rxMsg.contents)).mode = .cli from hm]
  dsimp only
  refine wp_seq h fun r t ht => ?_
  rw [wp_bind, wp_modify, wp_pure]
  exact ht

theorem dispatch_server (hG : G.recv s = true) (hm : s.mode = .srv)
    (h : wp (obexServer (E.ctx G n) final) (fun _ t => Q (t.setRxMsg (bufReuse t.rxMsg))) R
      (s.emit (.recv s.rxMsg.contents))) : wp (dispatch (E.ctx G n) final) (fun _ => Q) R s := by
  rw [dispatch, wp_bind]
  refine wp_recv_passes hG ?_
  rw [wp_bind, wp_get, show (s.emit (.recv s.rxMsg.contents)).mode = .srv from hm]
  dsimp only
  refine wp_seq h fun r t ht => ?_
  rw [wp_bind, wp_modify, wp_pure]
  exact ht

end

/-! ## Events that are not heeded -/

section
variable {E : Env} {G : Guard} {n : Nat} {s : Obex} {R : Stop → Obex → Prop} {Q : Unit → Obex → Prop}
  {e : Event} {cmd rsp : UInt8}

theorem ignored_eventcb {notice : Notice} (hn : 0 < n) (happ : E.app s.log = [])
    (hG : G.after notice s = true) (hQ : Q () s) : wp ((E.ctx G n).eventcb notice) Q R s := by
  obtain ⟨k, rfl⟩ : ∃ k, n = k + 1 := ⟨n - 1, by omega⟩
  rw [Env.ctx, wp_bind, wp_get, happ, wp_bind]
  show wp (do allowed (G.after notice (← get))) Q R s
  rw [wp_bind, wp_get, wp_allowed]
  exact ⟨fun _ => hQ, fun hf => by rw [hG] at hf; cases hf⟩

theorem ignored_event (hn : 0 < n) (happ : E.app (s.log ++ [.event (noticeOf s e cmd rsp)]) = [])
    (hG : G.after (noticeOf s e cmd rsp) (s.emit (.event (noticeOf s e cmd rsp))) = true)
    (hQ : Q () (s.emit (.event (noticeOf s e cmd rsp)))) :
    wp (obexDeliverEvent (E.ctx G n) e cmd rsp false) Q R s :=
  wp_deliverEvent (ignored_eventcb hn happ hG hQ)

theorem ignored_last {p : Ptr} {o : ObexObject} (hn : 0 < n) (hp : s.object = some p)
    (ho : s.objects p = some o) (happ : E.app (s.log ++ [.event (noticeOf s e cmd rsp)]) = [])
    (hG : G.after (noticeOf s e cmd rsp)
      (({ s with object := none } : Obex).emit (.event (noticeOf s e cmd rsp))) = true)
    (hQ : Q () ((({ s with object := none } : Obex).emit (.event (noticeOf s e cmd rsp))).setObject
      p none)) :
    wp (obexDeliverEvent (E.ctx G n) e cmd rsp true) Q (fun _ _ => False) s := by
  rw [obexDeliverEvent, wp_bind, wp_get, wp_bind, wp_set, wp_bind, wp_emit, wp_bind]
  refine ignored_eventcb (s := ({ s with object := none } : Obex).emit (.event (noticeOf s e cmd rsp)))
    hn happ hG ?_
  rw [hp, wp_when]
  refine ⟨fun _ => ?_, by simp⟩
  rw [wp_bind, obexObjectDelete, wp_bind, wp_deref]
  refine ⟨fun _ _ => hQ, fun hnone => ?_⟩
  cases ho.symm.trans hnone

end

end OpenObex
