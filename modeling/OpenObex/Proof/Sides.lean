import OpenObex.Proof.Party

/-!
# The two sides of an exchange

The client sends the headers of a request packet by packet and then asks, packet by packet, for those of
the response. The server takes the first, hands the request to its application, which may add headers
from inside the callback, and sends what was added. Each lemma here is about one packet that one side
receives.
-/

namespace OpenObex

open Mem Prog

/-- A request code without the final bit that changes no MTU. -/
structure Ordinary (cmd : UInt8) : Prop where
  plain : cmd &&& obexFinal = 0
  connect : cmd ≠ obexCmdConnect
  disconnect : cmd ≠ obexCmdDisconnect
  abort : cmd ≠ obexCmdAbort

instance (cmd : UInt8) : Decidable (Ordinary cmd) :=
  decidable_of_iff (cmd &&& obexFinal = 0 ∧ cmd ≠ obexCmdConnect ∧ cmd ≠ obexCmdDisconnect ∧
    cmd ≠ obexCmdAbort)
    ⟨fun ⟨h1, h2, h3, h4⟩ => ⟨h1, h2, h3, h4⟩, fun ⟨h1, h2, h3, h4⟩ => ⟨h1, h2, h3, h4⟩⟩

/-- How many bytes the server expects in front of the headers of a request. -/
def headOffset (cmd : UInt8) : Nat :=
  if cmd = obexCmdConnect then 4 else if cmd = obexCmdSetpath then 2 else 0

/-- What the library puts in front of the headers of a CONNECT and of its response. -/
def connectFront (cmd : UInt8) (mtuRx : Nat) : Bytes :=
  if cmd = obexCmdConnect then obexVersion :: 0x00 :: be16 mtuRx else []

/-- The MTU after a request. -/
def mtuAfter (cmd : UInt8) (mtu : Nat) : Nat := if cmd = obexCmdDisconnect then obexMinimumMtu else mtu

theorem mtuAfter_bounds (cmd : UInt8) {mtu : Nat} (h : 255 ≤ mtu ∧ mtu ≤ 65535) :
    255 ≤ mtuAfter cmd mtu ∧ mtuAfter cmd mtu ≤ 65535 := by
  unfold mtuAfter
  split
  · decide
  · exact h

theorem Ordinary.mtuAfter {cmd : UInt8} (h : Ordinary cmd) (mtu : Nat) : mtuAfter cmd mtu = mtu :=
  if_neg h.disconnect

/-- A handle without a request, on which packets of `mtu` bytes can be sent. -/
structure AtRest (mtu : Nat) (s : Obex) : Prop extends Standing none .srv .idle s where
  mtuTx : s.mtuTx = mtu
  bounds : 255 ≤ mtu ∧ mtu ≤ 65535
  direct : s.trans.type ≠ .irda
  link : CanWrite s

/-! ## Headers that arrive -/

/-- Headers that are accepted and delivered in packets of `mtu` bytes. -/
structure Sendable (mtu : Nat) (as : List Adding) : Prop where
  each : ∀ a ∈ as, a.Offered ∧ a.Valid ∧ a.fit = false ∧ a.suspend = false
  one : as.countP (fun a => decide (a.hi = obexHdrBody)) ≤ 1
  delivered : Deliverable mtu as

/-- The packets in which the parcels `xs` are sent, `k` at most, and what they make of the intake
`i`. -/
def Brings (room k : Nat) (xs : List Parcel) (i i' : Intake) : Prop :=
  ∃ pk, drain room k xs = some pk ∧ pk.flatten.foldlM Intake.step i = some i'

section
variable {mtu room k : Nat} {xs : List Parcel} {i i' : Intake} {as : List Adding}

theorem Sendable.packable (h : Sendable mtu as) (hmtu : mtu ≤ 65535) :
    Packable (mtu - 3) (as.map Adding.parcel) :=
  packable_of_fits (fun a ha => ⟨(h.each a ha).1, (h.each a ha).2.1⟩) hmtu h.one h.delivered.fits

/-- What is taken of the headers of a request or a response. -/
structure Brought (as : List Adding) (i : Intake) : Prop where
  whole : ∀ y ∈ i.queue, y.whole = true ∧ y.head.Typed
  read : (i.queue.map fun y => y.head.read) = as.map Adding.read

theorem Sendable.brings (h : Sendable mtu as) (hmtu : 255 ≤ mtu ∧ mtu ≤ 65535) :
    ∃ k i, Brings (mtu - 3) k (as.map Adding.parcel) noIntake i ∧ Brought as i := by
  have hp := h.packable hmtu.2
  have hroom : mtu - 3 < 65536 := by omega
  obtain ⟨k, pk, hdrain⟩ := drain_of_not_wedged (by omega) hp h.delivered.unwedged
  have hawaits : Awaits noIntake (as.map Adding.parcel) := by
    refine ⟨fun _ hg => (by cases hg), fun _ => h.delivered.modest, fun x hx _ => ?_⟩
    obtain ⟨a, ha, rfl⟩ := List.mem_map.1 hx
    exact (h.each a ha).2.1.length_value_lt
  obtain ⟨i, hfold, hqueue, hwhole⟩ := drain_intake hp hroom hdrain hawaits (by simp [noIntake])
  have hheads : i.queue.map Item.head = (as.map Adding.parcel).map Parcel.head := hqueue
  refine ⟨k, i, ⟨pk, hdrain, hfold⟩, fun y hy => ⟨hwhole y hy, ?_⟩, ?_⟩
  · have hmem : y.head ∈ (as.map Adding.parcel).map Parcel.head := by
      rw [← hheads]
      exact List.mem_map_of_mem hy
    obtain ⟨x, hx, heq⟩ := List.mem_map.1 hmem
    rw [← heq]
    exact Head.Valid.typed_of_parcel fun hb => (hp.fits x hx hb).1
  · have hread := congrArg (List.map Head.read) hheads
    rw [List.map_map, List.map_map, List.map_map] at hread
    refine hread.trans (List.map_congr_left fun a _ => ?_)
    exact a.read_eq.symm

theorem Brings.nil (h : Brings room k [] i i') : i' = i := by
  obtain ⟨pk, hdrain, hfold⟩ := h
  have hnil : pk = [] := by
    cases k with
    | zero => exact (Option.some.inj hdrain).symm
    | succ k => exact (Option.some.inj hdrain).symm
  rw [hnil] at hfold
  exact (Option.some.inj hfold).symm

/-- The first packet, and the rest. Behind headers that are left there is a packet less to come. -/
theorem Brings.first (h : Brings room k xs i i') : ∃ hs ys j i₁, pack room xs = some (hs, ys) ∧
    hs.foldlM Intake.step i = some i₁ ∧ Brings room j ys i₁ i' ∧ j ≤ k ∧ (xs ≠ [] → j < k) := by
  obtain ⟨pk, hdrain, hfold⟩ := h
  cases xs with
  | nil =>
    have hi := Brings.nil ⟨pk, hdrain, hfold⟩
    subst hi
    exact ⟨[], [], k, i', rfl, rfl, ⟨pk, hdrain, hfold⟩, Nat.le_refl _, fun hn => absurd rfl hn⟩
  | cons x xs =>
    cases k with
    | zero => cases hdrain
    | succ j =>
      rw [drain] at hdrain
      obtain ⟨⟨hs, ys⟩, hpack, hdrain⟩ := Option.bind_eq_some_iff.1 hdrain
      obtain ⟨pk', hpk, rfl⟩ := Option.map_eq_some_iff.1 hdrain
      rw [List.flatten_cons, List.foldlM_append] at hfold
      obtain ⟨i₁, hi₁, hrest⟩ := Option.bind_eq_some_iff.1 hfold
      exact ⟨hs, ys, j, i₁, hpack, hi₁, ⟨pk', hpk, hrest⟩, Nat.le_succ _, fun _ => Nat.lt_succ_self _⟩

end

/-! ## What the applications find -/

/-- Where an application hears of `e` for the `k`-th time it finds the headers `ls k` in the object; a
run in which it does not is stopped. -/
def finds (e : Event) (count : Story → Nat) (ls : Nat → List (UInt8 × HeaderValue × Nat)) : Guard where
  after n s := !decide (n.event = e) ||
    decide (found n.object ((ls (count (story s.log) - 1)).length + 1) s =
      some (ls (count (story s.log) - 1)))

theorem finds_writes (e : Event) (count : Story → Nat) (ls : Nat → List (UInt8 × HeaderValue × Nat)) :
    (finds e count ls).writes := rfl

theorem finds_other {e : Event} {count : Story → Nat} {ls : Nat → List (UInt8 × HeaderValue × Nat)}
    {n : Notice} {s : Obex} (h : n.event ≠ e) : (finds e count ls).after n s = true := by
  unfold finds
  dsimp only
  rw [decide_eq_false h]
  rfl

theorem finds_found {e : Event} {count : Story → Nat} {ls : Nat → List (UInt8 × HeaderValue × Nat)}
    {n : Notice} {s : Obex} {l : List (UInt8 × HeaderValue × Nat)}
    (hl : ls (count (story s.log) - 1) = l) (h : found n.object (l.length + 1) s = some l) :
    (finds e count ls).after n s = true := by
  unfold finds
  dsimp only
  rw [hl, decide_eq_true h, Bool.or_true]

/-! ## The connect header -/

/-- The connect header is put in front of what is sent for the object. -/
theorem wp_connectframe {C : Ctx} {p : Ptr} {o : ObexObject} {s : Obex} (hm : ∀ k, C.malloc k = true)
    (ho : s.objects p = some o) {Q : Int → Obex → Prop} {R : Stop → Obex → Prop}
    (hQ : ∀ b, b.contents = obexVersion :: 0x00 :: be16 s.mtuRx →
      Q 0 (s.setObject p (some { o with txNonhdrData := some b }))) : wp (obexInsertConnectframe C p)
        Q R s := by
  have hnew : bufNew C.malloc 4 = some (freshBuf 4) := if_pos (hm 4)
  rw [obexInsertConnectframe, hnew]
  dsimp only
  rw [wp_bind, wp_get, wp_bind]
  refine wp_reserveAndStore_fresh (d := obexVersion :: 0x00 :: be16 s.mtuRx) fun b hb _ => ?_
  refine wp_update_some ho ?_
  rw [wp_pure]
  exact hQ b hb

/-! ## The client -/

section
variable {E : Env} {count : Story → Nat} {ls : Nat → List (UInt8 × HeaderValue × Nat)} {n : Nat}
  {cmd : UInt8} {p : Ptr} {mtu : Nat} {f : Bytes} {xs ys : List Parcel} {i i' : Intake}
  {hs gs : List Head} {s t : Obex} {o : ObexObject}

/-- A packet of the request; the last one has the final bit. -/
def upPacket (cmd : UInt8) (f : Bytes) (hs : List Head) (ys : List Parcel) : Bytes :=
  packet (if ys = [] then cmd ||| obexFinal else cmd) (f ++ hs.flatMap Head.encode)

theorem sentOpcode_up (cmd : UInt8) (ys : List Parcel) :
    sentOpcode cmd (cmd ||| obexFinal) true false ys = if ys = [] then cmd ||| obexFinal else cmd := by
  unfold sentOpcode
  by_cases hys : ys = []
  · rw [if_pos hys, if_pos hys, if_pos rfl, UInt8.or_assoc]
    rfl
  · rw [if_neg hys, if_neg hys, if_neg (by simp)]

/-- What an application asks: the opcode, what goes in front of the headers, and the headers. -/
structure Request where
  cmd : UInt8
  front : Bytes
  headers : List Adding

/-- The application makes an object, adds the data and the headers and requests it. -/
def requestObject (C : Ctx) (x : Request) : M (List Int) := do
  match ← obexObjectNewRequest C x.cmd with
  | none => pure []
  | some p => do
    let ret ← (if x.front = [] then pure 1 else obexObjectSetNonHdrData C p x.front)
    let rets ← addHeaders C p x.headers
    let _ ← obexRequest C p
    pure (ret :: rets)

/-- A new object. -/
def blank (cmd op last : UInt8) (b : Option Buf) : ObexObject :=
  { zeroObject with cmd, opcode := op, lastopcode := last, txNonhdrData := b }

/-- It has nothing to send but what is in front, and has taken nothing. -/
theorem engaged_blank {op last : UInt8} {b : Option Buf} (ho : t.objects p = some (blank cmd op last b))
    (hmtu : t.mtuTx = mtu) (hbounds : 255 ≤ mtu ∧ mtu ≤ 65535) (hdirect : t.trans.type ≠ .irda)
    (hlink : CanWrite t) :
    Engaged op last p mtu ((b.map Buf.contents).getD []) [] noIntake t (blank cmd op last b) := by
  have hhint : i32 0 = 0 := by decide
  refine ⟨⟨ho, ?_, List.nodup_nil, ?_, by rw [hmtu]; exact hbounds⟩, .nil, rfl, hmtu, hdirect, rfl, rfl,
    rfl, ?_, ?_, hlink⟩
  · exact fun e he => (List.not_mem_nil he).elim
  · exact fun e he => (List.not_mem_nil he).elim
  · exact fun x hx => (List.not_mem_nil hx).elim
  · exact ⟨rfl, rfl, rfl, hhint.symm, Nat.zero_lt_succ _, .none, .nil, .nil,
      by simp [blank, zeroObject]⟩

theorem wp_newRequest {G : Guard} (hm : ∀ n, E.malloc n = true) (hrest : AtRest mtu s)
    {Q : Option Ptr → Obex → Prop}
    (hQ : ∀ t o, Engaged cmd (cmd ||| obexFinal) s.fresh mtu (connectFront cmd s.mtuRx)
      [] noIntake t o →
      (cmd ≠ obexCmdConnect → o.txNonhdrData = none) → Unaltered s t → t.log = s.log →
      Q (some s.fresh) t) :
    wp (obexObjectNewRequest (E.ctx G n) cmd) Q (fun _ _ => False) s := by
  have hm' : ∀ k, (E.ctx G n).malloc k = true := fun k => by rw [ctx_malloc]; exact hm k
  rw [obexObjectNewRequest, wp_bind, obexObjectNew, if_pos (hm' _), alloc, wp_bind, wp_bind, wp_get,
    wp_bind, wp_set, wp_pure, wp_bind, wp_modify, wp_pure]
  dsimp only
  refine wp_update_some (objects_setObject _ _ _) ?_
  by_cases hcmd : cmd = obexCmdConnect
  · rw [if_pos hcmd, wp_bind]
    apply wp_connectframe hm' (objects_setObject _ _ _)
    intro b hb
    have hfront : connectFront cmd s.mtuRx = ((some b).map Buf.contents).getD [] := by
      rw [connectFront, if_pos hcmd]
      exact hb.symm
    rw [if_neg (by decide), wp_pure]
    refine hQ _ (blank cmd cmd (cmd ||| obexFinal) (some b)) ?_ (fun hn => absurd hcmd hn)
      ⟨rfl, rfl, rfl, rfl, rfl⟩ rfl
    rw [hfront]
    exact engaged_blank (objects_setObject _ _ _) hrest.mtuTx hrest.bounds hrest.direct hrest.link
  · have hfront : connectFront cmd s.mtuRx = ((none : Option Buf).map Buf.contents).getD [] :=
      if_neg hcmd
    rw [if_neg hcmd, wp_pure]
    refine hQ _ (blank cmd cmd (cmd ||| obexFinal) none) ?_ (fun _ => rfl) ⟨rfl, rfl, rfl, rfl, rfl⟩ rfl
    rw [hfront]
    exact engaged_blank (objects_setObject _ _ _) hrest.mtuTx hrest.bounds hrest.direct hrest.link

namespace Engaged

/-- The application puts data in front of the headers. -/
theorem setNonHdrData {G : Guard} {op last : UInt8} (h : Engaged op last p mtu [] xs i s o)
    (hm : ∀ k, E.malloc k = true) (hnone : o.txNonhdrData = none) (f : Bytes) :
    wp (if f = [] then pure 1 else obexObjectSetNonHdrData (E.ctx G n) p f)
      (fun r t => r = 1 ∧ Unaltered s t ∧ t.log = s.log ∧
      ∃ o', Engaged op last p mtu f xs i t o') (fun _ _ => False) s := by
  obtain ⟨b, hb, -⟩ : ∃ b, bufInsertEnd (E.ctx G n).malloc (freshBuf f.length) f = some b ∧ _ :=
    bufInsertEnd_avail (Nat.le_add_left _ _)
  have hnew : bufNew (E.ctx G n).malloc f.length = some (freshBuf f.length) :=
    if_pos (by rw [ctx_malloc]; exact hm _)
  obtain ⟨hc, -⟩ := bufInsertEnd_some hb
  have hempty : (freshBuf f.length).contents = [] := contents_eq_nil rfl
  rw [hempty, List.nil_append] at hc
  rw [wp_ite]
  refine ⟨fun hnil => ⟨rfl, ⟨rfl, rfl, rfl, rfl, rfl⟩, rfl, o, by rw [hnil]; exact h⟩, fun _ => ?_⟩
  rw [obexObjectSetNonHdrData]
  refine wp_deref_some h.prepared.object ?_
  rw [hnone, if_neg (by simp), hnew]
  dsimp only
  rw [wp_bind, hb, wp_require]
  refine ⟨fun b' hb' => ?_, fun hno => by cases hno⟩
  cases hb'
  refine wp_update_some h.prepared.object ?_
  rw [wp_pure]
  refine ⟨rfl, ⟨rfl, rfl, rfl, rfl, rfl⟩, rfl, { o with txNonhdrData := some b }, ?_⟩
  exact ⟨⟨objects_setObject _ _ _, h.prepared.ready, h.prepared.distinct, h.prepared.bound,
    h.prepared.mtu⟩, h.letters, hc, h.mtuTx, h.direct, h.opcode, h.lastopcode, h.suspend, h.calm,
    h.took.kept ⟨rfl, rfl, rfl, rfl, rfl, rfl⟩ (Nat.le_refl _), h.link⟩

theorem addAll {G : Guard} {op last : UInt8} {as : List Adding} (h : Engaged op last p mtu f xs i s o)
    (hm : ∀ k, E.malloc k = true)
    (has : ∀ a ∈ as, a.Valid ∧ a.fit = false ∧ a.suspend = false ∧
      (a.hi ≠ obexHdrBody → a.size ≤ mtu - 3)) :
    wp (addHeaders (E.ctx G n) p as) (fun rets t => (∀ r ∈ rets, r = 1) ∧ Unaltered s t ∧
      t.log = s.log ∧
      ∃ o', Engaged op last p mtu f (xs ++ as.map Adding.parcel) i t o') (fun _ _ => False) s := by
  induction as generalizing xs s o with
  | nil => exact ⟨by simp, ⟨rfl, rfl, rfl, rfl, rfl⟩, rfl, o, by simpa using h⟩
  | cons a as ih =>
    obtain ⟨⟨ha, hfit, hsus, hsize⟩, has⟩ := List.forall_mem_cons.1 has
    apply wp_seq (h.add hm ha hfit hsus hsize)
    rintro r t ⟨rfl, hst, hlog, o', ho', -⟩
    apply wp_seq (ih ho' has)
    rintro rets t' ⟨hrets, hobj, hlog', o'', ho''⟩
    rw [wp_pure]
    refine ⟨List.forall_mem_cons.2 ⟨rfl, hrets⟩, hst.trans hobj, hlog'.trans hlog, o'', ?_⟩
    simpa using ho''

/-- `OBEX_Request` sends the first packet. -/
theorem request (h : Engaged cmd (cmd ||| obexFinal) p mtu f xs i s o) (hm : ∀ k, E.malloc k = true)
    (hw : ∀ log d, 0 ≤ E.write log d) (hquiet : ∀ log, E.app log = []) (hp : Packable (mtu - 3) xs)
    (hn : xs.length < n) (hpack : pack (mtu - 3) xs = some (hs, ys)) (hfree : s.object = none) :
    wp (obexRequest (E.ctx (finds .reqdone count ls) n) p) (fun _ t => Standing (some p) .cli .recv t ∧
        t.mtuTxMax = s.mtuTxMax ∧
        (∃ o', Engaged cmd (cmd ||| obexFinal) p mtu [] ys i t o') ∧
        story t.log = (story s.log).wrote (upPacket cmd f hs ys))
      (fun _ _ => False) s := by
  rw [obexRequest, wp_bind, wp_get, if_neg (by rw [hfree]; simp), wp_bind, wp_set, obexClient,
    wp_bind, wp_get, wp_bind, if_neg (by simp), wp_pure]
  dsimp only [Obex.emit]
  rw [clientStart, wp_bind, wp_get]
  dsimp only
  have hstart : Engaged cmd (cmd ||| obexFinal) p mtu f xs i ({ s with
      object := some p, mode := .cli, state := .start, log := s.log ++ [.request p] } : Obex) o :=
    h.moved h.prepared.object rfl rfl rfl
  refine wp_seq (hstart.send (finds_writes _ _ _) hm hw hp hn hpack true false) ?_
  rintro r t ⟨hr, ⟨hobj, -, -, -, hmax⟩, hstory, o', ho', -⟩
  have hr' : ¬ r < 0 := by
    rw [hr]
    split <;> decide
  rw [if_neg hr']
  refine wp_updateCurrent_some hobj ho'.prepared.object ?_
  refine wp_currentOpcode_some hobj (objects_setObject _ _ _) ?_
  rw [wp_bind]
  refine ignored_event (by omega) (hquiet _) (finds_other (by simp [noticeOf])) ?_
  rw [setState, wp_bind, wp_modify, wp_pure]
  refine ⟨⟨hobj, rfl, rfl⟩, hmax,
    ⟨_, (ho'.noted o'.continueReceived true o'.checked).moved (objects_setObject _ _ _) rfl
      rfl rfl⟩, ?_⟩
  refine (story_event (by simp [noticeOf]) (by simp [noticeOf])).trans ?_
  refine hstory.trans ?_
  rw [sentOpcode_up]
  exact congrArg (fun w => Story.wrote w (upPacket cmd f hs ys)) (story_append s.log (.request p))

end Engaged

theorem client_receives {C : Ctx} {Q : Int → Obex → Prop} {R : Stop → Obex → Prop} {op : UInt8}
    (hm : s.mode = .cli) (hs : s.state = .recv) (h0 : s.rxMsg.reach[0]? = some op)
    (h : wp (clientRec C (withoutFinal op)) Q R s) :
    wp (obexClient C true) Q R s := by
  rw [obexClient, wp_bind, wp_get, wp_bind, if_pos rfl]
  refine wp_byteAt_some h0 ?_
  rw [wp_pure, hm, hs]
  exact h

theorem enclosed_of_packet {b : Buf} {op : UInt8}
    (hb : b.contents = packet op (f ++ hs.flatMap Head.encode)) (hv : ∀ y ∈ hs, y.Valid) :
    Enclosed b f hs :=
  ⟨hv, _, by simp [length_be16], hb⟩

/-- What `clientRec` does with a response once the data in front of its headers is known. -/
def clientTaken (C : Ctx) (rsp : UInt8) : M Int := do
  let ret ← obexObjectReceive C
  if ret < 0 then do
    setState .srv .idle
    obexDeliverEvent C .parseerr (← currentOpcode) 0 true
    pure (-1)
  else if rsp = obexRspContinue then clientContinue C
  else clientDone C rsp

namespace Engaged

/-- The headers of a response are taken; unless it is a CONTINUE it ends the request. -/
theorem taken {op last : UInt8} (h : Engaged op last p mtu f xs i s o) (rsp : UInt8)
    (hm : ∀ k, E.malloc k = true) (hquiet : ∀ log, E.app log = [])
    (hst : Standing (some p) .cli .recv s) {k : Nat} {front : Bytes} (hk : k < 65536)
    (hlen : front.length = k) (hb : Enclosed s.rxMsg front gs)
    (hfold : gs.foldlM Intake.step i = some i') {Q : Int → Obex → Prop}
    (hQ : ∀ t o', Engaged op last p mtu f xs i' t o' → Standing (some p) .cli .recv t →
    story t.log = story s.log →
      wp (if rsp = obexRspContinue then clientContinue (E.ctx (finds .reqdone count ls) n)
          else clientDone (E.ctx (finds .reqdone count ls) n) rsp) Q (fun _ _ => False) t) :
    wp (clientTaken (E.ctx (finds .reqdone count ls) n) rsp) Q (fun _ _ => False)
      (s.setObject p (some { o with headeroffset := k })) := by
  obtain ⟨hobj, hmode, hstate⟩ := hst
  rw [clientTaken]
  apply wp_seq (h.receive hobj hm (fun log _ _ => hquiet _) hk hlen hb hfold)
  rintro _ t ⟨rfl, hst', hlog, o', ho', -⟩
  rw [if_neg (by decide)]
  exact hQ t o' ho' (hst'.standing ⟨hobj, hmode, hstate⟩) hlog

/-- A response to a request that is no CONNECT. -/
theorem hear (h : Engaged cmd (cmd ||| obexFinal) p mtu f xs i s o) (hcmd : Ordinary cmd)
    (hm : ∀ k, E.malloc k = true) (hquiet : ∀ log, E.app log = [])
    (hst : Standing (some p) .cli .recv s) {b : Buf} {op : UInt8}
    (hb : b.contents = packet op (gs.flatMap Head.encode)) (hv : ∀ y ∈ gs, y.Valid)
    (hfold : gs.foldlM Intake.step i = some i') (final : Bool) {Q : Obex → Prop}
    (hQ : ∀ t o', Engaged cmd (cmd ||| obexFinal) p mtu f xs i' t o' → Standing (some p) .cli .recv t →
      story t.log = story s.log →
      wp (if withoutFinal op = obexRspContinue then clientContinue (E.ctx (finds .reqdone count ls) n)
          else clientDone (E.ctx (finds .reqdone count ls) n) (withoutFinal op))
        (fun _ t => Q (t.setRxMsg (bufReuse t.rxMsg))) (fun _ _ => False) t) :
    wp (dispatch (E.ctx (finds .reqdone count ls) n) final) (fun _ => Q) (fun _ _ => False)
      (s.setRxMsg b) := by
  obtain ⟨h0, -, -⟩ := reach_of_packet hb
  obtain ⟨hobj, hmode, hstate⟩ := hst
  have hheard : Engaged cmd (cmd ||| obexFinal) p mtu f xs i
    { s with rxMsg := b, log := s.log ++ [.recv b.contents] } o :=
    h.moved h.prepared.object rfl rfl rfl
  have htaken := hheard.taken (withoutFinal op) (Q := fun _ t => Q (t.setRxMsg (bufReuse t.rxMsg)))
    hm hquiet
    ⟨hobj, hmode, hstate⟩ (Nat.zero_lt_succ _) List.length_nil (enclosed_of_packet hb hv) hfold
      fun t o' ho' hst' hlog =>
      hQ t o' ho' hst' (hlog.trans (story_append s.log (.recv b.contents)))
  have hsame : o.headeroffset = 0 := h.took.offset
  rw [← hsame, setObject_self hheard.prepared.object] at htaken
  refine dispatch_client rfl hmode ?_
  refine client_receives hmode hstate h0 ?_
  rw [clientRec, wp_bind, clientConnect]
  refine wp_currentOpcode_some hobj h.prepared.object ?_
  rw [h.opcode, if_neg hcmd.connect, wp_pure, if_pos rfl]
  refine wp_currentOpcode_some hobj h.prepared.object ?_
  rw [h.opcode, when, if_neg hcmd.disconnect, wp_bind, wp_pure]
  exact htaken

/-- A CONTINUE is answered with the next packet. -/
theorem next (h : Engaged cmd (cmd ||| obexFinal) p mtu f xs i s o) (hm : ∀ k, E.malloc k = true)
    (hw : ∀ log d, 0 ≤ E.write log d) (hquiet : ∀ log, E.app log = []) (hp : Packable (mtu - 3) xs)
    (hn : xs.length < n) (hpack : pack (mtu - 3) xs = some (hs, ys))
    (hst : Standing (some p) .cli .recv s) :
    wp (clientContinue (E.ctx (finds .reqdone count ls) n)) (fun _ t => Standing (some p) .cli .recv t ∧
        (∃ o', Engaged cmd (cmd ||| obexFinal) p mtu [] ys i t o') ∧
        story t.log = (story s.log).wrote (upPacket cmd f hs ys))
      (fun _ _ => False) s := by
  obtain ⟨hobj, hmode, hstate⟩ := hst
  rw [clientContinue]
  refine wp_updateCurrent_some hobj h.prepared.object ?_
  refine wp_selfObject_some hobj ?_
  refine wp_deref_some (objects_setObject _ _ _) ?_
  rw [if_neg (by simp [h.took.going]), if_neg (by simp [h.suspend])]
  refine wp_seq ((h.noted true o.firstPacketSent o.checked).send (finds_writes _ _ _) hm hw hp hn hpack
    true false) ?_
  rintro r t ⟨hr, ⟨hobj', hmode', hstate', -, -⟩, hstory, o', ho', -⟩
  have hr' : ¬ r < 0 := by
    rw [hr]
    split <;> decide
  have hobj₁ : t.object = some p := hobj'.trans hobj
  refine wp_currentOpcode_some hobj₁ ho'.prepared.object ?_
  rw [if_neg hr', wp_bind]
  refine ignored_event (by omega) (hquiet _) (finds_other (by simp [noticeOf])) ?_
  generalize ht : Obex.emit t _ = t₁
  have hagain : Standing (some p) .cli .recv t₁ ∧ Engaged cmd (cmd ||| obexFinal) p mtu [] ys i t₁ o' ∧
      story t₁.log = (story s.log).wrote (upPacket cmd f hs ys) := by
    rw [← ht]
    refine ⟨⟨hobj₁, hmode'.trans hmode, hstate'.trans hstate⟩, ho'.moved ho'.prepared.object rfl
      rfl rfl, ?_⟩
    refine (story_event (by simp [noticeOf]) (by simp [noticeOf])).trans ?_
    rw [hstory, sentOpcode_up]
    rfl
  obtain ⟨⟨hobj₂, hmode₂, hstate₂⟩, hup, hlog⟩ := hagain
  rw [wp_bind, wp_get, hobj₂]
  dsimp only
  refine wp_update_some hup.prepared.object ?_
  rw [wp_pure]
  exact ⟨⟨hobj₂, hmode₂, hstate₂⟩,
    ⟨_, (hup.noted false o'.firstPacketSent o'.checked).moved (objects_setObject _ _ _) rfl rfl
      rfl⟩, hlog⟩

/-- The last response is what the application hears of. -/
theorem finish {l : List (UInt8 × HeaderValue × Nat)} {rsp : UInt8}
    (h : Engaged cmd (cmd ||| obexFinal) p mtu f xs i s o) (hquiet : ∀ log, E.app log = []) (hn : 0 < n)
    (hst : Standing (some p) .cli .recv s) (hw : ∀ y ∈ i.queue, y.whole = true ∧ y.head.Typed)
    (hread : (i.queue.map fun y => y.head.read) = l)
    (hl : ∀ notice, ls (count ((story s.log).finished notice) - 1) = l) :
    wp (clientDone (E.ctx (finds .reqdone count ls) n) rsp) (fun _ t => AtRest mtu t ∧
        ∃ notice, notice.object = some p ∧ notice.cmd = cmd ∧ notice.rsp = rsp ∧
          story t.log = (story s.log).finished notice)
      (fun _ _ => False) s := by
  rw [clientDone, setState, wp_bind, wp_modify]
  refine wp_selfObject_some hst.object ?_
  refine wp_deref_some h.prepared.object ?_
  rw [if_neg (by simp [h.took.going]), wp_bind]
  have htold : story (s.log ++ [.event (noticeOf (s.setState .srv .idle) .reqdone o.opcode rsp)]) =
      (story s.log).finished (noticeOf (s.setState .srv .idle) .reqdone o.opcode rsp) :=
      story_append _ _
  have hlast : Engaged cmd (cmd ||| obexFinal) p mtu f xs i
      ((({ s.setState .srv .idle with object := none } : Obex)).emit
        (.event (noticeOf (s.setState .srv .idle) .reqdone o.opcode rsp))) o :=
    h.moved h.prepared.object rfl rfl rfl
  refine ignored_last hn hst.object h.prepared.object (hquiet _) (finds_found (l := l) ?_ ?_) ?_
  · refine Eq.trans ?_ (hl (noticeOf (s.setState .srv .idle) .reqdone o.opcode rsp))
    rw [← htold]
    rfl
  · have hnotice : (noticeOf (s.setState .srv .idle) .reqdone o.opcode rsp).object = some p :=
      hst.object
    rw [hnotice]
    exact hlast.found hw hread
  · have hbounds := h.prepared.mtu
    rw [h.mtuTx] at hbounds
    rw [wp_pure]
    exact ⟨⟨⟨rfl, rfl, rfl⟩, h.mtuTx, hbounds, h.direct, h.link⟩,
      noticeOf (s.setState .srv .idle) .reqdone o.opcode rsp, hst.object, h.opcode, rfl, htold⟩

end Engaged

end

/-! ## The server -/

/-- The call that adds the header. -/
def Adding.call (p : Ptr) (a : Adding) : Call :=
  .objectAddHeader p a.hi a.hv (UInt32.ofNat a.hvSize) a.flags

/-- What an application answers: the response code and headers. -/
structure Reply where
  rsp : UInt8
  headers : List Adding

/-- An application that gives the `k`-th request the `k`-th reply, and makes no other call. -/
structure Replier (E : Env) (replies : Nat → Reply) : Prop where
  hint : ∀ log n p, n.event = .reqhint → n.object = some p →
    E.app (log ++ [.event n]) =
      [.objectSetRsp p obexRspContinue (replies (story log).requested.length).rsp]
  request : ∀ log n p, n.event = .req → n.object = some p →
    E.app (log ++ [.event n]) = (replies (story log).requested.length).headers.map (Adding.call p)
  other : ∀ log n, n.event ≠ .reqhint → n.event ≠ .req → E.app (log ++ [.event n]) = []

/-- A packet of the response; behind all but the last the client is asked to go on. -/
def downPacket (rsp : UInt8) (f : Bytes) (hs : List Head) (ys : List Parcel) : Bytes :=
  packet ((if ys = [] then rsp else obexRspContinue) ||| obexFinal) (f ++ hs.flatMap Head.encode)

theorem sentOpcode_down (rsp : UInt8) (ys : List Parcel) :
    sentOpcode obexRspContinue rsp true true ys =
      (if ys = [] then rsp else obexRspContinue) ||| obexFinal := by
  unfold sentOpcode
  by_cases hys : ys = []
  · rw [if_pos hys, if_pos hys, if_pos rfl]
  · rw [if_neg hys, if_neg hys, if_pos rfl]

/-- The server takes the request `cmd` of the object `p`, and has taken `i` of it. -/
structure Gathering (cmd rsp : UInt8) (p : Ptr) (mtu : Nat) (i : Intake) (s : Obex) : Prop where
  standing : Standing (some p) .srv .recv s
  object : ∃ o, Engaged obexRspContinue rsp p mtu [] [] i s o ∧ o.cmd = cmd ∧ o.firstPacketSent = false

/-- The server has told `w` and has the headers `ys` still to send; without any it is done. -/
def Responded (cmd rsp : UInt8) (p : Ptr) (mtu : Nat) (ys : List Parcel) (i : Intake) (w : Story)
    (s : Obex) : Prop :=
  if ys = [] then AtRest (mtuAfter cmd mtu) s ∧ ∃ n, n.object = some p ∧ story s.log = w.finished n
  else Standing (some p) .srv .send s ∧ (∃ o, Engaged obexRspContinue rsp p mtu [] ys i s o) ∧
    story s.log = w

/-- What `serverRec` does with a request once its headers are taken. -/
def serverTaken (C : Ctx) (cmd : UInt8) (len : Nat) (final : Bool) : M Int := do
  let (final, deny) ← serverCheck C cmd final
  let p ← selfObject
  if ¬ final then do
    let ret ← obexObjectSend C p false true
    if ret < 0 then do
      obexDeliverEvent C .linkerr cmd 0 true
      pure (-1)
    else do
      obexDeliverEvent C .progress cmd 0 false
      pure 0
  else do
    let o ← deref p
    if ¬ o.firstPacketSent then do
      when (cmd = obexCmdConnect) do
        let _ ← obexInsertConnectframe C p
      when (¬ deny) (obexDeliverEvent C .req cmd 0 false)
      setState .srv .send
      serverSend C cmd 3
    else serverSend C cmd len

section
variable {E : Env} {replies : Nat → Reply} {count : Story → Nat}
  {ls : Nat → List (UInt8 × HeaderValue × Nat)} {n : Nat} {cmd rsp : UInt8} {p : Ptr} {mtu : Nat}
  {f : Bytes} {xs ys : List Parcel} {i i' : Intake} {hs : List Head} {as : List Adding} {s t : Obex}
  {o : ObexObject}

namespace Engaged

theorem addNested {G : Guard} {op last : UInt8} (h : Engaged op last p mtu f xs i s o)
    (hG : ∀ c s, G.nested c s = true) (hm : ∀ k, E.malloc k = true)
    (has : ∀ a ∈ as, a.Offered ∧ a.Valid ∧ a.fit = false ∧ a.suspend = false ∧
      (a.hi ≠ obexHdrBody → a.size ≤ mtu - 3)) :
    wp (iterate (nestedCall (E.ctx G n) G) (as.map (Adding.call p))) (fun _ t => Unaltered s t ∧
      t.log = s.log ∧ ∃ o', Engaged op last p mtu f (xs ++ as.map Adding.parcel) i t o' ∧ Akin o o')
      (fun _ _ => False) s := by
  induction as generalizing xs s o with
  | nil => exact ⟨⟨rfl, rfl, rfl, rfl, rfl⟩, rfl, o, by simpa using h, rfl, rfl⟩
  | cons a as ih =>
    obtain ⟨⟨hoff, ha, hfit, hsus, hsize⟩, has⟩ := List.forall_mem_cons.1 has
    have hlen : (UInt32.ofNat a.hvSize).toNat = a.hvSize := UInt32.toNat_ofNat_of_lt' hoff.size_lt
    rw [List.map_cons, iterate, wp_bind, nestedCall, wp_bind, wp_get, wp_bind, wp_allowed]
    refine ⟨fun _ => ?_, fun hf => by rw [hG] at hf; cases hf⟩
    rw [wp_bind, Adding.call, api, hlen]
    apply wp_conseq (h.add hm ha hfit hsus hsize)
    rintro r t ⟨-, hsame, hlog, o', ho', hakin⟩
    rw [wp_pure]
    apply wp_conseq (ih ho' has)
    rintro - t' ⟨hsame', hlog', o'', ho'', hakin'⟩
    refine ⟨hsame.trans hsame', hlog'.trans hlog, o'', ?_, hakin.trans hakin'⟩
    simpa using ho''

/-- The next response is written. -/
theorem respond (h : Engaged obexRspContinue rsp p mtu f xs i s o) (cmd : UInt8)
    (hm : ∀ k, E.malloc k = true) (hw : ∀ log d, 0 ≤ E.write log d) (happ : Replier E replies)
    (hp : Packable (mtu - 3) xs) (hn : xs.length < n) (hpack : pack (mtu - 3) xs = some (hs, ys))
    (hst : Standing (some p) .srv .send s) :
    wp (serverRespond (E.ctx (finds .req count ls) n) cmd)
      (fun _ => Responded cmd rsp p mtu ys i ((story s.log).wrote (downPacket rsp f hs ys)))
      (fun _ _ => False) s := by
  obtain ⟨hobj, hmode, hstate⟩ := hst
  rw [serverRespond]
  refine wp_updateCurrent_some hobj h.prepared.object ?_
  refine wp_selfObject_some hobj ?_
  refine wp_deref_some (objects_setObject _ _ _) ?_
  rw [if_neg (by simp [h.suspend])]
  refine wp_seq ((h.noted true o.firstPacketSent o.checked).send (finds_writes _ _ _) hm hw hp hn hpack
    true true) ?_
  rintro r t ⟨hr, ⟨hobj', hmode', hstate', -, -⟩, hstory, o', ho', -⟩
  have hobj₁ : t.object = some p := hobj'.trans hobj
  have hstory₁ : story t.log = (story s.log).wrote (downPacket rsp f hs ys) := by
    rw [hstory, sentOpcode_down]
    rfl
  unfold Responded
  by_cases hys : ys = []
  · rw [if_pos ⟨hys, rfl⟩] at hr
    rw [hr, if_neg (by decide), if_neg (by decide)]
    have hbounds := ho'.prepared.mtu
    rw [ho'.mtuTx] at hbounds
    -- only a DISCONNECT changes the size of the packets
    have hkept : wp
      (when (cmd = obexCmdDisconnect) (modify fun s => { s with mtuTx := obexMinimumMtu }))
        (fun _ t₁ => t₁ = { t with mtuTx := mtuAfter cmd mtu }) (fun _ _ => False) t := by
      rw [wp_when, wp_modify, mtuAfter]
      refine ⟨fun hc => by rw [if_pos hc], fun hc => ?_⟩
      rw [if_neg hc, ← ho'.mtuTx]
    apply wp_seq hkept
    rintro - t₁ rfl
    rw [setState, wp_bind, wp_modify, wp_bind]
    refine ignored_last (by omega) hobj₁ ho'.prepared.object
      (happ.other _ _ (by simp [noticeOf]) (by simp [noticeOf]))
      (finds_other (by simp [noticeOf])) ?_
    rw [wp_pure, if_pos hys]
    refine ⟨⟨⟨rfl, rfl, rfl⟩, rfl, mtuAfter_bounds cmd hbounds, ho'.direct, ho'.link⟩,
      noticeOf (({ t with mtuTx := mtuAfter cmd mtu } : Obex).setState .srv .idle) .reqdone cmd 0,
        hobj₁, ?_⟩
    refine (story_append _ _).trans ?_
    exact congrArg (fun w => Story.finished w _) hstory₁
  · rw [if_neg fun hc => hys hc.1] at hr
    rw [hr, if_pos rfl, wp_bind]
    refine ignored_event (by omega) (happ.other _ _ (by simp [noticeOf]) (by simp [noticeOf]))
      (finds_other (by simp [noticeOf])) ?_
    have hafter : Engaged obexRspContinue rsp p mtu [] ys i
      (t.emit (.event (noticeOf t .progress cmd 0))) o' :=
      ho'.moved ho'.prepared.object rfl rfl rfl
    refine wp_updateCurrent_some hobj₁ hafter.prepared.object ?_
    refine wp_updateCurrent_some hobj₁ (objects_setObject _ _ _) ?_
    rw [wp_pure, if_neg hys]
    refine ⟨⟨hobj₁, hmode'.trans hmode, hstate'.trans hstate⟩,
      ⟨_, (hafter.noted false true o'.checked).moved (objects_setObject _ _ _) rfl rfl rfl⟩, ?_⟩
    exact (story_event (by simp [noticeOf]) (by simp [noticeOf])).trans hstory₁

end Engaged

namespace Gathering

theorem moved (h : Gathering cmd rsp p mtu i s) (ho : t.objects = s.objects) (hf : t.fresh = s.fresh)
    (hs : Standing s.object s.mode s.state t) (hm : t.mtuTx = s.mtuTx) (ht : t.trans = s.trans) :
    Gathering cmd rsp p mtu i t := by
  obtain ⟨⟨hobj, hmode, hstate⟩, o, hup, hcmd, hfirst⟩ := h
  refine ⟨⟨hs.object.trans hobj, hs.mode.trans hmode, hs.state.trans hstate⟩, o, ?_, hcmd, hfirst⟩
  exact hup.moved (by rw [ho]; exact hup.prepared.object) hf hm ht

theorem event (h : Gathering cmd rsp p mtu i s) (happ : Replier E replies) (hn : 0 < n) {e : Event}
    (hhint : e ≠ .reqhint) (hreq : e ≠ .req) (hdone : e ≠ .reqdone) (c r : UInt8) :
    wp (obexDeliverEvent (E.ctx (finds .req count ls) n) e c r false)
      (fun _ t => Gathering cmd rsp p mtu i t ∧
      story t.log = story s.log) (fun _ _ => False) s := by
  refine ignored_event hn (happ.other _ _ hhint hreq) (finds_other hreq) ?_
  exact ⟨h.moved rfl rfl ⟨rfl, rfl, rfl⟩ rfl rfl, story_event hreq hdone⟩

/-- The headers of a packet of the request are taken, behind the `k` bytes that are expected in front of
them. -/
theorem takes (hst : Standing (some p) .srv .recv s) (h : Engaged obexRspContinue rsp p mtu [] [] i s o)
    (hocmd : o.cmd = cmd) (hfirst : o.firstPacketSent = false) (hcmd : cmd ≠ obexCmdAbort)
    (hm : ∀ k, E.malloc k = true) (happ : Replier E replies) {k : Nat} {front : Bytes} (hk : k < 65536)
    (hlen : front.length = k) (hb : Enclosed s.rxMsg front hs)
    (hfold : hs.foldlM Intake.step i = some i') {len : Nat} {final : Bool} {Q : Int → Obex → Prop}
    (hQ : ∀ t, Gathering cmd rsp p mtu i' t → t.mtuRx = s.mtuRx → story t.log = story s.log →
      wp (serverTaken (E.ctx (finds .req count ls) n) cmd len final) Q (fun _ _ => False) t) :
    wp (serverRec (E.ctx (finds .req count ls) n) cmd len final) Q (fun _ _ => False)
      (s.setObject p (some { o with headeroffset := k })) := by
  obtain ⟨hobj, hmode, hstate⟩ := hst
  have hbuffers : Buffers E := fun log notice hnotice =>
    happ.other log notice (by rw [hnotice]; decide) (by rw [hnotice]; decide)
  rw [serverRec, if_neg hcmd]
  refine wp_selfObject_some hobj ?_
  refine wp_deref_some (objects_setObject _ _ _) ?_
  rw [if_neg (by simp [hocmd])]
  apply wp_seq (h.receive hobj hm hbuffers hk hlen hb hfold)
  rintro _ t ⟨rfl, hsame, hlog, o', ho', hakin⟩
  rw [if_neg (by decide)]
  refine hQ t ⟨hsame.standing ⟨hobj, hmode, hstate⟩, o', ho', ?_, ?_⟩ hsame.mtuRx hlog
  · rw [hakin.cmd, hocmd]
  · rw [hakin.first, hfirst]

/-- The application may look at a request that is not complete, once. -/
theorem check (h : Gathering cmd rsp p mtu i s) (happ : Replier E replies) (hn : 0 < n) :
    wp (serverCheck (E.ctx (finds .req count ls) n) cmd false) (fun r t => r = (false, false) ∧
      Gathering cmd rsp p mtu i t ∧ story t.log = story s.log) (fun _ _ => False) s := by
  obtain ⟨o, hup, -, -⟩ := id h.object
  rw [serverCheck, if_neg (by simp)]
  refine wp_selfObject_some h.standing.object ?_
  refine wp_deref_some hup.prepared.object ?_
  have hevent : wp (when (¬ o.checked = true) do
      obexDeliverEvent (E.ctx (finds .req count ls) n) .reqcheck cmd 0 false
      updateCurrent fun o => { o with checked := true }) (fun _ t => Gathering cmd rsp p mtu i t ∧
        story t.log = story s.log) (fun _ _ => False) s := by
    rw [wp_when]
    refine ⟨fun _ => ?_, fun _ => ⟨h, rfl⟩⟩
    apply wp_seq (h.event happ hn (by simp) (by simp) (by simp) cmd 0)
    rintro - t ⟨⟨hst, o', ho', hcmd', hfirst'⟩, hlog⟩
    rw [updateCurrent]
    refine wp_selfObject_some hst.object ?_
    rw [wp_update]
    refine ⟨fun x hx => ?_, fun hnone => ?_⟩
    · cases ho'.prepared.object.symm.trans hx
      refine ⟨⟨⟨hst.object, hst.mode, hst.state⟩, _,
        ho'.noted o'.continueReceived o'.firstPacketSent true, hcmd', hfirst'⟩, hlog⟩
    · cases ho'.prepared.object.symm.trans hnone
  apply wp_seq hevent
  rintro - t ⟨ht, hlog⟩
  obtain ⟨o', ho', -, -⟩ := id ht.object
  refine wp_currentOpcode_some ht.standing.object ho'.prepared.object ?_
  rw [ho'.opcode, if_pos (by decide)]
  exact ⟨rfl, ht, hlog⟩

/-- A packet that is not the last is answered with a CONTINUE. -/
theorem part (h : Gathering cmd rsp p mtu i s) (hm : ∀ k, E.malloc k = true)
    (hw : ∀ log d, 0 ≤ E.write log d) (happ : Replier E replies) (hn : 0 < n) (len : Nat) :
    wp (serverTaken (E.ctx (finds .req count ls) n) cmd len false)
      (fun _ t => Gathering cmd rsp p mtu i t ∧
      story t.log = (story s.log).wrote (packet (obexRspContinue ||| obexFinal) []))
        (fun _ _ => False) s := by
  rw [serverTaken]
  apply wp_seq (h.check happ hn)
  rintro _ t₁ ⟨rfl, ht₁, hlog₁⟩
  obtain ⟨⟨hobj, hmode, hstate⟩, o₁, ho₁, hcmd₁, hfirst₁⟩ := ht₁
  dsimp only
  refine wp_selfObject_some hobj ?_
  rw [if_pos (by simp)]
  have hp : Packable (mtu - 3) [] := ⟨Nat.zero_le _, fun x hx => (List.not_mem_nil hx).elim⟩
  apply wp_seq (ho₁.send (finds_writes _ _ _) hm hw hp hn rfl false true)
  rintro _ t₂ ⟨rfl, hsame, hlog₂, o₂, ho₂, hakin⟩
  have ht₂ : Gathering cmd rsp p mtu i t₂ :=
    ⟨hsame.standing ⟨hobj, hmode, hstate⟩, o₂, ho₂, hakin.cmd.trans hcmd₁,
      hakin.first.trans hfirst₁⟩
  rw [if_neg (by simp)]
  apply wp_seq (ht₂.event happ hn (by simp) (by simp) (by simp) cmd 0)
  rintro - t₃ ⟨ht₃, hlog₃⟩
  rw [wp_pure]
  refine ⟨ht₃, hlog₃.trans (hlog₂.trans ?_)⟩
  rw [hlog₁]
  rfl

end Gathering

/-- The application is handed the request, finds its headers and adds those of the reply. -/
theorem Engaged.hand {bs : List Adding} {l : List (UInt8 × HeaderValue × Nat)}
    (h : Engaged obexRspContinue rsp p mtu f [] i s o) (hobj : s.object = some p)
    (hm : ∀ k, E.malloc k = true) (happ : Replier E replies) (hn : 0 < n)
    (hwhole : ∀ y ∈ i.queue, y.whole = true ∧ y.head.Typed)
    (hread : (i.queue.map fun y => y.head.read) = l)
    (hl : ∀ notice, ls (count ((story s.log).handed notice) - 1) = l)
    (hbs : (replies (story s.log).requested.length).headers = bs) (hsend : Sendable mtu bs) :
    wp (obexDeliverEvent (E.ctx (finds .req count ls) n) .req cmd 0 false)
      (fun _ t => t.object = some p ∧
        (∃ o, Engaged obexRspContinue rsp p mtu f (bs.map Adding.parcel) i t o) ∧
        ∃ notice, notice.object = some p ∧ notice.cmd = cmd ∧ story t.log = (story s.log).handed notice)
      (fun _ _ => False) s := by
  obtain ⟨k, rfl⟩ : ∃ k, n = k + 1 := ⟨n - 1, by omega⟩
  have hcalls : E.app (s.emit (.event (noticeOf s .req cmd 0))).log = bs.map (Adding.call p) := by
    rw [← hbs]
    exact happ.request _ _ _ rfl hobj
  have htold : story (s.emit (.event (noticeOf s .req cmd 0))).log = (story s.log).handed
    (noticeOf s .req cmd 0) :=
    story_append _ _
  have hhanded : Engaged obexRspContinue rsp p mtu f [] i (s.emit (.event (noticeOf s .req cmd 0))) o :=
    h.moved h.prepared.object rfl rfl rfl
  have hadds : ∀ a ∈ bs, a.Offered ∧ a.Valid ∧ a.fit = false ∧ a.suspend = false ∧
      (a.hi ≠ obexHdrBody → a.size ≤ mtu - 3) := fun a ha =>
    ⟨(hsend.each a ha).1, (hsend.each a ha).2.1, (hsend.each a ha).2.2.1, (hsend.each a ha).2.2.2,
      hsend.delivered.fits a ha⟩
  have hnested (c : Call) (t : Obex) : (finds .req count ls).nested c t = true := rfl
  apply wp_deliverEvent
  rw [Env.ctx, wp_bind, wp_get, hcalls, wp_bind]
  apply wp_conseq (hhanded.addNested hnested hm hadds)
  rintro - t ⟨⟨hobj', -, -, -, -⟩, hlog, o', ho', -⟩
  rw [List.nil_append] at ho'
  have hguard : (finds .req count ls).after (noticeOf s .req cmd 0) t = true := by
    have hnotice : (noticeOf s .req cmd 0).object = some p := hobj
    apply finds_found (l := l)
    · rw [hlog, htold]
      exact hl _
    · rw [hnotice]
      exact ho'.found hwhole hread
  rw [wp_bind, wp_get, wp_allowed]
  refine ⟨fun _ => ?_, fun hf => by rw [hguard] at hf; cases hf⟩
  refine ⟨hobj'.trans hobj, ⟨o', ho'⟩, noticeOf s .req cmd 0, hobj, rfl, ?_⟩
  rw [hlog]
  exact htold

/-- The connect header goes in front of the response to a CONNECT. -/
theorem Engaged.framed (h : Engaged obexRspContinue rsp p mtu [] [] i s o) (hm : ∀ k, E.malloc k = true)
    {G : Guard} (cmd : UInt8) :
    wp (when (cmd = obexCmdConnect) do
        let _ ← obexInsertConnectframe (E.ctx G n) p) (fun _ t => t.object = s.object ∧ t.log = s.log ∧
      ∃ o', Engaged obexRspContinue rsp p mtu (connectFront cmd s.mtuRx) [] i t o')
        (fun _ _ => False) s := by
  have hm' : ∀ k, (E.ctx G n).malloc k = true := fun k => by rw [ctx_malloc]; exact hm k
  rw [wp_when, connectFront]
  refine ⟨fun hc => ?_, fun hc => ⟨rfl, rfl, o, by rw [if_neg hc]; exact h⟩⟩
  rw [if_pos hc, wp_bind]
  apply wp_connectframe hm' h.prepared.object
  intro b hb
  refine ⟨rfl, rfl, { o with txNonhdrData := some b }, ?_⟩
  exact ⟨⟨objects_setObject _ _ _, h.prepared.ready, h.prepared.distinct, h.prepared.bound,
    h.prepared.mtu⟩, h.letters, hb, h.mtuTx, h.direct, h.opcode, h.lastopcode, h.suspend, h.calm,
    h.took.kept ⟨rfl, rfl, rfl, rfl, rfl, rfl⟩ (Nat.le_refl _), h.link⟩

/-- The last packet of the request is answered with the first of the response. -/
theorem Gathering.last {bs : List Adding} {gs : List Head} {l : List (UInt8 × HeaderValue × Nat)}
    (h : Gathering cmd rsp p mtu i s) (hcmd : cmd ≠ obexCmdAbort) (hm : ∀ k, E.malloc k = true)
    (hw : ∀ log d, 0 ≤ E.write log d) (happ : Replier E replies)
    (hwhole : ∀ y ∈ i.queue, y.whole = true ∧ y.head.Typed)
    (hread : (i.queue.map fun y => y.head.read) = l)
    (hl : ∀ notice, ls (count ((story s.log).handed notice) - 1) = l)
    (hbs : (replies (story s.log).requested.length).headers = bs) (hsend : Sendable mtu bs)
    (hn : bs.length < n) (hpack : pack (mtu - 3) (bs.map Adding.parcel) = some (gs, ys)) (len : Nat) :
    wp (serverTaken (E.ctx (finds .req count ls) n) cmd len true)
      (fun _ t => ∃ notice, notice.object = some p ∧
        notice.cmd = cmd ∧ Responded cmd rsp p mtu ys i
          (((story s.log).handed notice).wrote (downPacket rsp (connectFront cmd s.mtuRx) gs ys)) t)
      (fun _ _ => False) s := by
  obtain ⟨⟨hobj, -, -⟩, o, ho, -, hfirst⟩ := h
  rw [serverTaken, serverCheck, if_pos rfl, wp_bind, wp_pure]
  dsimp only
  refine wp_selfObject_some hobj ?_
  rw [if_neg (by simp)]
  refine wp_deref_some ho.prepared.object ?_
  rw [if_pos (by simp [hfirst])]
  apply wp_seq (ho.framed hm cmd)
  rintro - t ⟨hobj₁, hlog, o₁, ho₁⟩
  rw [wp_bind, when, if_pos (by simp)]
  rw [← hlog] at hl hbs ⊢
  apply wp_conseq (ho₁.hand (hobj₁.trans hobj) hm happ (by omega) hwhole hread hl hbs hsend)
  rintro - t₂ ⟨hobj₂, ⟨o₂, ho₂⟩, notice, hnotice, hcode, htold⟩
  have hbounds := ho₂.prepared.mtu
  rw [ho₂.mtuTx] at hbounds
  have hbegin : Engaged obexRspContinue rsp p mtu (connectFront cmd s.mtuRx) (bs.map Adding.parcel) i
      (t₂.setState .srv .send) o₂ := ho₂.moved ho₂.prepared.object rfl rfl rfl
  have hst : Standing (some p) .srv .send (t₂.setState .srv .send) := ⟨hobj₂, rfl, rfl⟩
  have hlen : (bs.map Adding.parcel).length < n := by rwa [List.length_map]
  rw [setState, wp_bind, wp_modify, serverSend, if_neg hcmd, if_neg (by decide)]
  apply wp_conseq (hbegin.respond cmd hm hw happ (hsend.packable hbounds.2) hlen hpack hst)
  intro r t₃ ht₃
  refine ⟨notice, hnotice, hcode, ?_⟩
  rw [← htold]
  exact ht₃

theorem wp_hint_replied (happ : Replier E replies) (hn : 0 < n) (hp : s.object = some p)
    (ho : s.objects p = some o) {Q : Unit → Obex → Prop} {R : Stop → Obex → Prop}
    (hQ : Q () ((s.emit (.event (noticeOf s .reqhint cmd 0))).setObject p
      (some (obexObjectSetrsp o obexRspContinue (replies (story s.log).requested.length).rsp)))) :
    wp (obexDeliverEvent (E.ctx (finds .req count ls) n) .reqhint cmd 0 false) Q R s := by
  obtain ⟨k, rfl⟩ : ∃ k, n = k + 1 := ⟨n - 1, by omega⟩
  have hcalls := happ.hint s.log (noticeOf s .reqhint cmd 0) p rfl hp
  have hguard (t : Obex) : (finds .req count ls).after (noticeOf s .reqhint cmd 0) t = true :=
    finds_other (by simp [noticeOf])
  apply wp_deliverEvent
  rw [Env.ctx, wp_bind, wp_get, Obex.emit, hcalls, wp_bind, iterate, wp_bind, nestedCall, wp_bind,
    wp_get, wp_bind, wp_allowed]
  refine ⟨fun _ => ?_, fun hf => by cases hf⟩
  rw [wp_bind, api]
  refine wp_update_some ho ?_
  rw [wp_pure, wp_pure, iterate, wp_pure, wp_bind, wp_get, wp_allowed]
  exact ⟨fun _ => hQ, fun hf => by rw [hguard] at hf; cases hf⟩

/-- The first packet of a request makes a new object, and the application accepts the request. -/
theorem accepts {Q : Int → Obex → Prop} {len : Nat} {final : Bool} (hm : ∀ k, E.malloc k = true)
    (happ : Replier E replies) (hn : 0 < n) (hrest : AtRest mtu s)
    (hrsp : (replies (story s.log).requested.length).rsp = rsp)
    (hQ : ∀ t o, Engaged obexRspContinue rsp s.fresh mtu [] [] noIntake t o → o.cmd = cmd →
      o.firstPacketSent = false →
      Standing (some s.fresh) .srv .idle t → t.rxMsg = s.rxMsg → t.mtuRx = s.mtuRx →
        t.mtuTxMax = s.mtuTxMax →
      story t.log = story s.log →
      wp (if cmd = obexCmdConnect then serverConnect (E.ctx (finds .req count ls) n) cmd len final
          else do
            when (cmd = obexCmdSetpath) (updateCurrent fun o => { o with headeroffset := 2 })
            setState .srv .recv
            serverRec (E.ctx (finds .req count ls) n) cmd len final) Q (fun _ _ => False) t) :
    wp (serverIdle (E.ctx (finds .req count ls) n) cmd len final) Q (fun _ _ => False) s := by
  have hsmall : (E.ctx (finds .req count ls) n).malloc sizeofObject = true := by
    rw [ctx_malloc, hm]
  subst hrsp
  rw [serverIdle, wp_bind, wp_get, if_neg (by rw [hrest.object]; simp), wp_bind, obexObjectNew,
    if_pos hsmall, alloc, wp_bind, wp_bind, wp_get, wp_bind, wp_set, wp_pure, wp_bind,
      wp_modify, wp_pure]
  dsimp only
  rw [wp_bind, wp_modify]
  refine wp_update_some (objects_setObject _ _ _) ?_
  rw [serverHint, wp_bind]
  refine wp_hint_replied happ hn rfl (objects_setObject _ _ _) ?_
  refine hQ _ (blank cmd obexRspContinue (replies (story s.log).requested.length).rsp none) ?_ rfl rfl
    ⟨rfl, hrest.mode, hrest.state⟩ rfl rfl rfl (story_event (by simp [noticeOf]) (by simp [noticeOf]))
  exact engaged_blank (b := none) (objects_setObject _ _ _) hrest.mtuTx hrest.bounds hrest.direct
    hrest.link

theorem receives_idle {C : Ctx} {Q : Int → Obex → Prop} {R : Stop → Obex → Prop} {op : UInt8}
    {body : Bytes} {final : Bool} (hs : s.state = .idle) (hb : s.rxMsg.contents = packet op body)
    (h : ∀ len, wp (serverIdle C (withoutFinal op) len final) Q R s) :
    wp (obexServer C final) Q R s := by
  obtain ⟨h0, ⟨x, h1⟩, ⟨y, h2⟩⟩ := reach_of_packet hb
  rw [obexServer, wp_bind, wp_get]
  refine wp_byteAt_some h0 (wp_byteAt_some h1 (wp_byteAt_some h2 ?_))
  rw [hs]
  exact h _

theorem receives_recv {C : Ctx} {Q : Int → Obex → Prop} {R : Stop → Obex → Prop} {op : UInt8}
    {body : Bytes} {final : Bool} (hs : s.state = .recv) (hb : s.rxMsg.contents = packet op body)
    (h : ∀ len, wp (serverRec C (withoutFinal op) len final) Q R s) :
    wp (obexServer C final) Q R s := by
  obtain ⟨h0, ⟨x, h1⟩, ⟨y, h2⟩⟩ := reach_of_packet hb
  rw [obexServer, wp_bind, wp_get]
  refine wp_byteAt_some h0 (wp_byteAt_some h1 (wp_byteAt_some h2 ?_))
  rw [hs]
  exact h _

/-- A packet without headers asks for more of the response. -/
theorem receives_send {C : Ctx} {Q : Int → Obex → Prop} {R : Stop → Obex → Prop} {op : UInt8}
    {final : Bool} (hs : s.state = .send) (hb : s.rxMsg.contents = packet op [])
    (hop : withoutFinal op ≠ obexCmdAbort) (h : wp (serverRespond C (withoutFinal op)) Q R s) :
    wp (obexServer C final) Q R s := by
  have hreach : s.rxMsg.reach = packet op [] ++ s.rxMsg.behind := by rw [Buf.reach, hb]
  have h0 : s.rxMsg.reach[0]? = some op := by rw [hreach]; rfl
  have h1 : s.rxMsg.reach[1]? = some 0 := by rw [hreach]; rfl
  have h2 : s.rxMsg.reach[2]? = some 3 := by rw [hreach]; rfl
  rw [obexServer, wp_bind, wp_get]
  refine wp_byteAt_some h0 (wp_byteAt_some h1 (wp_byteAt_some h2 ?_))
  rw [hs]
  dsimp only
  rw [serverSend, if_neg hop, if_neg (by decide)]
  exact h

/-- The server expects a new request, or more of the one it has taken `i` of; `f` is what goes in front
of the headers. -/
def Expecting (replies : Nat → Reply) (cmd rsp : UInt8) (p : Ptr) (mtu : Nat) (f : Bytes) (i : Intake)
    (s : Obex) :
    Prop :=
  AtRest mtu s ∧ i = noIntake ∧ p = s.fresh ∧ (replies (story s.log).requested.length).rsp = rsp ∧
      f.length = headOffset cmd ∨
    Gathering cmd rsp p mtu i s ∧ f = []

theorem withoutFinal_up (h : cmd &&& obexFinal = 0) (ys : List Parcel) :
    withoutFinal (if ys = [] then cmd ||| obexFinal else cmd) = cmd := by
  split
  · rw [withoutFinal_or, withoutFinal_plain h]
  · exact withoutFinal_plain h

theorem hasFinal_up (h : cmd &&& obexFinal = 0) (f : Bytes) (hs : List Head) (ys : List Parcel) :
    hasFinal (upPacket cmd f hs ys) = decide (ys = []) := by
  unfold upPacket
  rw [hasFinal_packet]
  by_cases hys : ys = []
  · rw [if_pos hys, decide_eq_true (or_final cmd), decide_eq_true hys]
  · rw [if_neg hys, decide_eq_false hys, decide_eq_false (by simp [h])]

/-- The first packet of a request that is no CONNECT. -/
theorem first_takes {len : Nat} {final : Bool} (hcmd : Ordinary cmd) (hm : ∀ k, E.malloc k = true)
    (happ : Replier E replies) (hn : 0 < n) (hrest : AtRest mtu s)
    (hrsp : (replies (story s.log).requested.length).rsp = rsp) (hlen : f.length = headOffset cmd)
    (hb : Enclosed s.rxMsg f hs) (hfold : hs.foldlM Intake.step noIntake = some i)
    {Q : Int → Obex → Prop} (hQ : ∀ t, Gathering cmd rsp s.fresh mtu i t → story t.log = story s.log →
      wp (serverTaken (E.ctx (finds .req count ls) n) cmd len final) Q (fun _ _ => False) t) :
    wp (serverIdle (E.ctx (finds .req count ls) n) cmd len final) Q (fun _ _ => False) s := by
  apply accepts hm happ hn hrest hrsp
  intro t o ho hocmd hfirst hst hrx _ _ hlog
  obtain ⟨hobj, hmode, hstate⟩ := hst
  have hbegun : Engaged obexRspContinue rsp s.fresh mtu [] [] noIntake (t.setState .srv .recv) o :=
    ho.moved ho.prepared.object rfl rfl rfl
  have hst : Standing (some s.fresh) .srv .recv (t.setState .srv .recv) := ⟨hobj, rfl, rfl⟩
  have hb' : Enclosed (t.setState .srv .recv).rxMsg f hs := by
    rw [← hrx] at hb
    exact hb
  have hrec (k : Nat) (hk : f.length = k) (hlt : k < 65536) :
      wp (serverRec (E.ctx (finds .req count ls) n) cmd len final) Q (fun _ _ => False)
        ((t.setState .srv .recv).setObject s.fresh (some { o with headeroffset := k })) :=
    Gathering.takes hst hbegun hocmd hfirst hcmd.abort hm happ hlt hk hb' hfold
      fun t' ht' _ hlog' => hQ t' ht' (hlog'.trans hlog)
  rw [if_neg hcmd.connect, when]
  rw [headOffset, if_neg hcmd.connect] at hlen
  by_cases hpath : cmd = obexCmdSetpath
  · rw [if_pos hpath] at hlen ⊢
    refine wp_updateCurrent_some hobj ho.prepared.object ?_
    rw [setState, wp_bind, wp_modify]
    exact hrec 2 hlen (by decide)
  · rw [if_neg hpath] at hlen ⊢
    have hzero := hrec 0 hlen (Nat.zero_lt_succ _)
    have hsame : o.headeroffset = 0 := ho.took.offset
    rw [← hsame, setObject_self hbegun.prepared.object] at hzero
    rw [wp_bind, wp_pure, setState, wp_bind, wp_modify]
    exact hzero

theorem Expecting.packet {b : Buf} {Q : Obex → Prop} (h : Expecting replies cmd rsp p mtu f i s)
    (hcmd : Ordinary cmd) (hm : ∀ k, E.malloc k = true) (happ : Replier E replies) (hn : 0 < n)
    (hb : b.contents = upPacket cmd f hs ys) (hv : ∀ y ∈ hs, y.Valid)
    (hfold : hs.foldlM Intake.step i = some i') (hQ : ∀ t len, Gathering cmd rsp p mtu i' t →
      story t.log = story s.log →
      wp (serverTaken (E.ctx (finds .req count ls) n) cmd len (decide (ys = [])))
        (fun _ t => Q (t.setRxMsg (bufReuse t.rxMsg))) (fun _ _ => False) t) :
    wp (dispatch (E.ctx (finds .req count ls) n) (hasFinal (upPacket cmd f hs ys))) (fun _ => Q)
      (fun _ _ => False)
      (s.setRxMsg b) := by
  have hop := withoutFinal_up hcmd.plain ys
  have hrecv : story (s.log ++ [.recv b.contents]) = story s.log := story_append _ _
  have henc := enclosed_of_packet hb hv
  rw [hasFinal_up hcmd.plain]
  rcases h with ⟨hrest, rfl, rfl, hrsp, hlen⟩ | ⟨hg, rfl⟩
  · refine dispatch_server rfl hrest.mode ?_
    refine receives_idle hrest.state hb fun len => ?_
    rw [hop]
    have hrest' : AtRest mtu { s with rxMsg := b, log := s.log ++ [.recv b.contents] } :=
      ⟨⟨hrest.object, hrest.mode, hrest.state⟩, hrest.mtuTx, hrest.bounds, hrest.direct, hrest.link⟩
    refine first_takes hcmd hm happ hn hrest' ?_ hlen henc hfold fun t ht hlog =>
      hQ t len ht (hlog.trans hrecv)
    show (replies (story (s.log ++ [.recv b.contents])).requested.length).rsp = rsp
    rw [hrecv]
    exact hrsp
  · obtain ⟨⟨hobj, hmode, hstate⟩, o, ho, hocmd, hfirst⟩ := hg
    have hheard : Engaged obexRspContinue rsp p mtu [] [] i
      { s with rxMsg := b, log := s.log ++ [.recv b.contents] } o :=
      ho.moved ho.prepared.object rfl rfl rfl
    have hst : Standing (some p) .srv .recv { s with rxMsg := b, log := s.log ++ [.recv b.contents] } :=
      ⟨hobj, hmode, hstate⟩
    refine dispatch_server rfl hmode ?_
    refine receives_recv hstate hb fun len => ?_
    rw [hop]
    have htaken := Gathering.takes (Q := fun _ t => Q (t.setRxMsg (bufReuse t.rxMsg))) hst hheard hocmd
      hfirst hcmd.abort hm happ (Nat.zero_lt_succ _) List.length_nil henc hfold
      fun t ht _ hlog => hQ t len ht (hlog.trans hrecv)
    have hsame : o.headeroffset = 0 := ho.took.offset
    rw [← hsame, setObject_self hheard.prepared.object] at htaken
    exact htaken

theorem Responded.reused {w : Story} (h : Responded cmd rsp p mtu ys i w s) (b : Buf) :
    Responded cmd rsp p mtu ys i w (s.setRxMsg b) := by
  unfold Responded at h ⊢
  split at h
  · next hys =>
    obtain ⟨hrest, hlog⟩ := h
    rw [if_pos hys]
    exact ⟨⟨⟨hrest.object, hrest.mode, hrest.state⟩, hrest.mtuTx, hrest.bounds, hrest.direct,
      hrest.link⟩, hlog⟩
  · next hys =>
    obtain ⟨hst, ⟨o, ho⟩, hlog⟩ := h
    rw [if_neg hys]
    exact ⟨⟨hst.object, hst.mode, hst.state⟩, ⟨o, ho.moved ho.prepared.object rfl rfl rfl⟩, hlog⟩

theorem Engaged.asked {b : Buf} (h : Engaged obexRspContinue rsp p mtu f xs i s o) (hcmd : Ordinary cmd)
    (hm : ∀ k, E.malloc k = true) (hw : ∀ log d, 0 ≤ E.write log d) (happ : Replier E replies)
    (hp : Packable (mtu - 3) xs) (hn : xs.length < n) (hpack : pack (mtu - 3) xs = some (hs, ys))
    (hst : Standing (some p) .srv .send s) (hb : b.contents = upPacket cmd [] [] []) (final : Bool) :
    wp (dispatch (E.ctx (finds .req count ls) n) final)
      (fun _ => Responded cmd rsp p mtu ys i ((story s.log).wrote (downPacket rsp f hs ys)))
      (fun _ _ => False) (s.setRxMsg b) := by
  have hbare : b.contents = packet (cmd ||| obexFinal) [] := hb
  have hop : withoutFinal (cmd ||| obexFinal) = cmd := withoutFinal_up hcmd.plain []
  have hrecv : story (s.log ++ [.recv b.contents]) = story s.log := story_append _ _
  have hheard : Engaged obexRspContinue rsp p mtu f xs i
    { s with rxMsg := b, log := s.log ++ [.recv b.contents] } o :=
    h.moved h.prepared.object rfl rfl rfl
  refine dispatch_server rfl hst.mode ?_
  refine receives_send hst.state hbare (by rw [hop]; exact hcmd.abort) ?_
  rw [hop]
  refine wp_conseq (hheard.respond cmd hm hw happ hp hn hpack ⟨hst.object, hst.mode, hst.state⟩) ?_
  intro r t ht
  rw [hrecv] at ht
  exact ht.reused _

end

end OpenObex
