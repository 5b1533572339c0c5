import OpenObex.Proof.Exchange

/-!
# Connecting and disconnecting

A CONNECT and its response tell each side the largest packet of the other; a DISCONNECT takes the MTU
back to the minimum. Neither has headers here. Between them lie exchanges in packets of the negotiated
sizes.
-/

namespace OpenObex

open Mem Prog

/-- The MTU once a packet with the connect header `m` is parsed. -/
def mtuHeard (cmd : UInt8) (m max mtu : Nat) : Nat := if cmd = obexCmdConnect then min m max else mtu

/-- The requests that change the MTU. -/
def Housekeeping (cmd : UInt8) : Prop := cmd = obexCmdConnect ∨ cmd = obexCmdDisconnect

section
variable {E : Env} {count : Story → Nat} {ls : Nat → List (UInt8 × HeaderValue × Nat)} {n m : Nat}
  {cmd : UInt8} {p : Ptr} {mtu mtu' : Nat} {f : Bytes} {xs : List Parcel} {i : Intake} {s t : Obex}
  {o : ObexObject}

/-- A connect header is parsed. -/
theorem wp_parse_connectFront {Q : Int → Obex → Prop} {R : Stop → Obex → Prop} {op : UInt8}
    (hop : op = obexRspSuccess ||| obexFinal ∨ op = obexCmdConnect ||| obexFinal) (hm : m < 65536)
    (hb : s.rxMsg.contents = packet op (connectFront obexCmdConnect m))
    (hQ : Q 1 { s with mtuTx := min m s.mtuTxMax }) : wp obexParseConnectHeader Q R s := by
  have hreach : s.rxMsg.reach = packet op (connectFront obexCmdConnect m) ++ s.rxMsg.behind :=
    by rw [Buf.reach, hb]
  obtain ⟨x, y, hxy, hback⟩ : ∃ x y, be16 m = [x, y] ∧ ofBe16 x y = m :=
    ⟨_, _, rfl, by rw [ofBe16_be16, Nat.mod_eq_of_lt hm]⟩
  have hfront : connectFront obexCmdConnect m = [obexVersion, 0, x, y] := by
    rw [connectFront, if_pos rfl, hxy]
  rw [hfront] at hreach hb
  have h0 : s.rxMsg.reach[0]? = some op := by rw [hreach]; rfl
  have h5 : s.rxMsg.reach[5]? = some x := by rw [hreach]; rfl
  have h6 : s.rxMsg.reach[6]? = some y := by rw [hreach]; rfl
  have hsize : 7 ≤ s.rxMsg.dataSize := by
    rw [← length_contents, hb]
    exact Nat.le_refl 7
  rw [obexParseConnectHeader, wp_bind, wp_get]
  refine wp_byteAt_some h0 ?_
  rw [if_neg (by tauto), if_pos hsize]
  refine wp_byteAt_some h5 (wp_byteAt_some h6 ?_)
  have hmin : min m s.mtuTxMax = if m < s.mtuTxMax then m else s.mtuTxMax := by
    rw [Nat.min_def]
    split <;> split <;> omega
  rw [wp_bind, wp_set, wp_pure, hback]
  rw [hmin] at hQ
  exact hQ

/-- No headers can be sent in packets of any size. -/
theorem sendable_nil (mtu : Nat) : Sendable mtu [] := by
  refine ⟨fun a ha => (List.not_mem_nil ha).elim, Nat.zero_le _, fun a ha =>
    (List.not_mem_nil ha).elim, ?_, ?_⟩
  · simp [Wedged]
  · simp [Modest]

theorem Engaged.retuned {op last : UInt8} (h : Engaged op last p mtu f xs i s o)
    (hb : 255 ≤ mtu' ∧ mtu' ≤ 65535) :
    Engaged op last p mtu' f xs i { s with mtuTx := mtu' } o :=
  ⟨⟨h.prepared.object, h.prepared.ready, h.prepared.distinct, h.prepared.bound, hb⟩, h.letters, h.front,
    rfl, h.direct, h.opcode, h.lastopcode, h.suspend, h.calm, h.took, h.link⟩

/-- The last response to a CONNECT or a DISCONNECT. -/
theorem Engaged.hear_bare (h : Engaged cmd (cmd ||| obexFinal) p mtu [] [] noIntake s o)
    (hcmd : Housekeeping cmd) (hgrant : ∀ k, E.malloc k = true) (hquiet : ∀ log, E.app log = [])
    (hst : Standing (some p) .cli .recv s) (hm : m < 65536)
    (hbounds : 255 ≤ mtuHeard cmd m s.mtuTxMax mtu ∧ mtuHeard cmd m s.mtuTxMax mtu ≤ 65535) {b : Buf}
    (hb : b.contents = packet (obexRspSuccess ||| obexFinal) (connectFront cmd m)) (final : Bool)
    {Q : Obex → Prop} (hQ : ∀ t o', Engaged cmd (cmd ||| obexFinal) p
    (mtuAfter cmd (mtuHeard cmd m s.mtuTxMax mtu)) [] [] noIntake t o' →
      Standing (some p) .cli .recv t → story t.log = story s.log →
      wp (clientDone (E.ctx (finds .reqdone count ls) n) obexRspSuccess)
        (fun _ t => Q (t.setRxMsg (bufReuse t.rxMsg))) (fun _ _ => False) t) :
    wp (dispatch (E.ctx (finds .reqdone count ls) n) final) (fun _ => Q) (fun _ _ => False)
      (s.setRxMsg b) := by
  obtain ⟨h0, -, -⟩ := reach_of_packet hb
  obtain ⟨hobj, hmode, hstate⟩ := hst
  have hafter := mtuAfter_bounds cmd hbounds
  have hsuccess : withoutFinal (obexRspSuccess ||| obexFinal) = obexRspSuccess := by decide
  have hlast : ¬ obexRspSuccess = obexRspContinue := by decide
  -- the handle once the front is parsed
  have hheard (x : Nat) (hx : 255 ≤ x ∧ x ≤ 65535) : Engaged cmd (cmd ||| obexFinal) p x [] [] noIntake
      { s with rxMsg := b, log := s.log ++ [.recv b.contents], mtuTx := x } o :=
    (h.retuned hx).moved h.prepared.object rfl rfl rfl
  have henc : Enclosed b (connectFront cmd m) [] := by
    have hpacket : b.contents = packet (obexRspSuccess ||| obexFinal)
      (connectFront cmd m ++ [].flatMap Head.encode) := by
      rw [hb, List.flatMap_nil, List.append_nil]
    exact enclosed_of_packet hpacket fun y hy => (List.not_mem_nil hy).elim
  have htaken (k : Nat) (hk : k < 65536) (hlen : (connectFront cmd m).length = k) :
      wp (clientTaken (E.ctx (finds .reqdone count ls) n) obexRspSuccess)
        (fun _ t => Q (t.setRxMsg (bufReuse t.rxMsg))) (fun _ _ => False)
        (Obex.setObject { s with
          rxMsg := b, log := s.log ++ [.recv b.contents], mtuTx :=
            mtuAfter cmd (mtuHeard cmd m s.mtuTxMax mtu) } p
          (some { o with headeroffset := k })) := by
    refine (hheard _ hafter).taken obexRspSuccess hgrant hquiet ⟨hobj, hmode, hstate⟩ hk hlen
      henc rfl ?_
    intro t o' ho' hst' hlog
    rw [if_neg hlast]
    exact hQ t o' ho' hst' (hlog.trans (story_append s.log (.recv b.contents)))
  refine dispatch_client rfl hmode ?_
  refine client_receives hmode hstate h0 ?_
  rw [hsuccess, clientRec, wp_bind, clientConnect]
  refine wp_currentOpcode_some hobj h.prepared.object ?_
  rw [h.opcode]
  rcases hcmd with rfl | rfl
  · rw [if_pos rfl, wp_bind]
    refine wp_parse_connectFront (.inl rfl) hm hb ?_
    rw [if_neg (by decide)]
    refine wp_updateCurrent_some hobj h.prepared.object ?_
    rw [wp_pure, if_pos rfl]
    refine wp_currentOpcode_some hobj (objects_setObject _ _ _) ?_
    have hfour := htaken 4 (by decide) rfl
    rw [mtuAfter, if_neg (by decide), mtuHeard, if_pos rfl] at hfour
    rw [when, if_neg (by rw [h.opcode]; decide), wp_bind, wp_pure]
    exact hfour
  · rw [if_neg (by decide), wp_pure, if_pos rfl]
    refine wp_currentOpcode_some hobj h.prepared.object ?_
    rw [h.opcode, when, if_pos rfl, wp_bind, wp_modify]
    have hzero := htaken 0 (Nat.zero_lt_succ _) rfl
    have hsame : o.headeroffset = 0 := h.took.offset
    rw [← hsame, setObject_self (hheard _ hafter).prepared.object] at hzero
    exact hzero

/-- A CONNECT or a DISCONNECT is handed to the application and answered. -/
theorem bare_packet {replies : Nat → Reply} {rsp : UInt8} {x : Nat} (h : AtRest mtu s)
    (hcmd : Housekeeping cmd) (hgrant : ∀ k, E.malloc k = true) (hw : ∀ log d, 0 ≤ E.write log d)
    (happ : Replier E replies) (hn : 0 < n) (hrsp : replies (story s.log).requested.length = ⟨rsp, []⟩)
    (hls : ∀ notice, ls (count ((story s.log).handed notice) - 1) = []) (hm : m < 65536)
    (hx : mtuHeard cmd m s.mtuTxMax mtu = x) (hbounds : 255 ≤ x ∧ x ≤ 65535) {b : Buf}
    (hb : b.contents = upPacket cmd (connectFront cmd m) [] []) :
    wp (dispatch (E.ctx (finds .req count ls) n) true)
      (fun _ t => ∃ notice, notice.object = some s.fresh ∧
        notice.cmd = cmd ∧ Responded cmd rsp s.fresh x [] noIntake
          (((story s.log).handed notice).wrote (downPacket rsp (connectFront cmd s.mtuRx) [] [])) t)
      (fun _ _ => False) (s.setRxMsg b) := by
  have hplain : cmd &&& obexFinal = 0 := by rcases hcmd with rfl | rfl <;> decide
  have habort : cmd ≠ obexCmdAbort := by rcases hcmd with rfl | rfl <;> decide
  have hop := withoutFinal_up hplain []
  have hrecv : story (s.log ++ [.recv b.contents]) = story s.log := story_append _ _
  have henc : Enclosed b (connectFront cmd m) [] := enclosed_of_packet hb fun y hy =>
    (List.not_mem_nil hy).elim
  have hrest : AtRest mtu { s with rxMsg := b, log := s.log ++ [.recv b.contents] } :=
    ⟨⟨h.object, h.mode, h.state⟩, h.mtuTx, h.bounds, h.direct, h.link⟩
  refine dispatch_server rfl h.mode ?_
  refine receives_idle h.state hb fun len => ?_
  rw [hop]
  have hrsp' : (replies (story (s.log ++ [.recv b.contents])).requested.length).rsp = rsp :=
    by rw [hrecv, hrsp]
  apply accepts hgrant happ hn hrest hrsp'
  intro t o ho hocmd hfirst hst hrx hmtuRx hmax hlog
  have hlog : story t.log = story s.log := hlog.trans hrecv
  have hmax : t.mtuTxMax = s.mtuTxMax := hmax
  have hmtuRx : t.mtuRx = s.mtuRx := hmtuRx
  have hrx : t.rxMsg = b := hrx
  obtain ⟨hobj, hmode, hstate⟩ := hst
  -- the handle once the front is parsed
  have hbegun : Engaged obexRspContinue rsp s.fresh x [] [] noIntake
      { t with mtuTx := x, mode := .srv, state := .recv } o :=
    (ho.retuned hbounds).moved ho.prepared.object rfl rfl rfl
  have hrec (k : Nat) (hk : k < 65536) (hlen : (connectFront cmd m).length = k) :
      wp (serverRec (E.ctx (finds .req count ls) n) cmd len true)
        (fun _ t => ∃ notice, notice.object = some s.fresh ∧
          notice.cmd = cmd ∧ Responded cmd rsp s.fresh x [] noIntake
            (((story s.log).handed notice).wrote (downPacket rsp (connectFront cmd s.mtuRx) [] []))
            (t.setRxMsg (bufReuse t.rxMsg)))
        (fun _ _ => False)
        (Obex.setObject { t with mtuTx := x, mode := .srv, state := .recv } s.fresh
          (some { o with headeroffset := k })) := by
    have hst : Standing (some s.fresh) .srv .recv { t with mtuTx := x, mode := .srv, state := .recv } :=
      ⟨hobj, rfl, rfl⟩
    refine Gathering.takes hst hbegun hocmd hfirst habort hgrant happ hk hlen
      (by rw [hrx]; exact henc) rfl ?_
    intro t' ht' hmtuRx' hlog'
    have hlog' : story t'.log = story s.log := hlog'.trans hlog
    have hmtuRx' : t'.mtuRx = s.mtuRx := hmtuRx'.trans hmtuRx
    have hsend : Sendable x [] := sendable_nil _
    have hreply : (replies (story t'.log).requested.length).headers = [] := by rw [hlog', hrsp]
    have hfinds : ∀ notice, ls (count ((story t'.log).handed notice) - 1) = [] := fun notice => by
      rw [hlog']
      exact hls notice
    apply wp_conseq (ht'.last habort hgrant hw happ (fun y hy => (List.not_mem_nil hy).elim) rfl hfinds
      hreply hsend hn
      rfl len)
    rintro - t'' ⟨notice, hnotice, hcode, ht''⟩
    rw [hlog', hmtuRx'] at ht''
    exact ⟨notice, hnotice, hcode, ht''.reused _⟩
  rcases hcmd with rfl | rfl
  · rw [if_pos rfl, serverConnect, wp_bind]
    refine wp_parse_connectFront (.inr rfl) hm (by rw [hrx]; exact hb) ?_
    rw [if_neg (by decide)]
    refine wp_updateCurrent_some hobj ho.prepared.object ?_
    rw [setState, wp_bind, wp_modify]
    have hmin : min m t.mtuTxMax = x := by
      rw [hmax, ← hx, mtuHeard, if_pos rfl]
    rw [hmin]
    exact hrec 4 (by decide) rfl
  · rw [if_neg (by decide), when, if_neg (by decide), wp_bind, wp_pure, setState, wp_bind, wp_modify]
    have hzero := hrec 0 (Nat.zero_lt_succ _) rfl
    have hsame : o.headeroffset = 0 := ho.took.offset
    have hmtu : t.mtuTx = x := by
      rw [← hx, mtuHeard, if_neg (by decide)]
      exact ho.mtuTx
    rw [← hsame, setObject_self hbegun.prepared.object, ← hmtu] at hzero
    exact hzero

end

/-! ## Sessions -/

/-- The sizes that a handle announces and admits. -/
def Bounded (s : Obex) : Prop := (255 ≤ s.mtuRx ∧ s.mtuRx ≤ 65535) ∧ 255 ≤ s.mtuTxMax ∧
    s.mtuTxMax ≤ 65535

theorem Bounded.negotiated {s t : Obex} (hs : Bounded s) (ht : Bounded t) :
    255 ≤ min s.mtuRx t.mtuTxMax ∧ min s.mtuRx t.mtuTxMax ≤ 65535 := by
  obtain ⟨⟨h1, h2⟩, -, -⟩ := hs
  obtain ⟨-, h3, h4⟩ := ht
  omega

section
variable {Ec Es : Env} {requests : Nat → Request} {replies : Nat → Reply} {nc ns k m : Nat}
  {cmd : UInt8} {mtu mtu' x x' : Nat} {c s : Obex}

theorem exists_announced (hcmd : Housekeeping cmd) (hb : cmd = obexCmdConnect → Bounded s) :
    ∃ m < 65536, connectFront cmd s.mtuRx = connectFront cmd m ∧
      ∀ max mtu, mtuHeard cmd s.mtuRx max mtu = mtuHeard cmd m max mtu := by
  rcases hcmd with rfl | rfl
  · obtain ⟨⟨-, hle⟩, -⟩ := hb rfl
    exact ⟨s.mtuRx, by omega, rfl, fun _ _ => rfl⟩
  · exact ⟨0, by omega, rfl, fun _ _ => rfl⟩

theorem Partners.bare (h : Partners Ec Es replies nc ns) (hc : AtRest mtu c) (hs : AtRest mtu' s)
    (hcmd : Housekeeping cmd) (hx : requests k = ⟨cmd, [], []⟩) (hy : replies k = ⟨obexRspSuccess, []⟩)
    (hdone : (story c.log).done.length = k) (hreq : (story s.log).requested.length = k)
    (hbc : cmd = obexCmdConnect → Bounded c) (hbs : cmd = obexCmdConnect → Bounded s)
    (hmtu : mtuHeard cmd s.mtuRx c.mtuTxMax mtu = x) (hmtu' : mtuHeard cmd c.mtuRx s.mtuTxMax mtu' = x')
    (hb : 255 ≤ x ∧ x ≤ 65535) (hb' : 255 ≤ x' ∧ x' ≤ 65535) :
    Asks (askingCtx Ec replies nc) (replyingCtx Es requests ns) (requests k)
      (Fulfilled (requests k) (replies k) (mtuAfter cmd x) (mtuAfter cmd x') c s) c s := by
  obtain ⟨mc, hmc, hfront, hheard⟩ := exists_announced hcmd hbc
  obtain ⟨ms, hms, hfront', hheard'⟩ := exists_announced hcmd hbs
  have hplain : cmd &&& obexFinal = 0 := by rcases hcmd with rfl | rfl <;> decide
  have hp : Packable (mtu - 3) [] := ⟨Nat.zero_le _, fun z hz => (List.not_mem_nil hz).elim⟩
  rw [hheard'] at hmtu
  rw [hheard] at hmtu'
  rw [hx, hy, Asks, requestObject, wp_bind]
  unfold askingCtx
  -- the client makes its request, which fits in one packet
  apply wp_newRequest h.granted.1 hc
  intro t o ho _ hsame hlog
  have ho : Engaged cmd (cmd ||| obexFinal) c.fresh mtu (connectFront cmd mc) [] noIntake t o := by
    rw [← hfront]
    exact ho
  dsimp only
  have hfree : t.object = none := hsame.object.trans hc.object
  rw [if_pos rfl, wp_bind, wp_pure, addHeaders, wp_bind, wp_pure]
  apply wp_seq (ho.request h.granted.1 h.written.1 h.quiet hp h.few.1 rfl hfree)
  rintro - c₁ ⟨hst, hmax, ⟨o₁, ho₁⟩, hstory⟩
  rw [hlog] at hstory
  have hmax : c₁.mtuTxMax = c.mtuTxMax := hmax.trans hsame.mtuTxMax
  rw [wp_pure]
  refine ⟨List.forall_mem_singleton.2 rfl, _, since_of_written (congrArg Story.written hstory), 1, ?_⟩
  intro b hbuf
  rw [hasFinal_up hplain, decide_eq_true rfl]
  have hls : ∀ notice, ((fun k => (requests k).headers.map Adding.read)
      (((story s.log).handed notice).requested.length - 1)) = [] := by
    intro notice
    rw [Story.handed, List.length_append, hreq]
    show (requests k).headers.map Adding.read = []
    rw [hx]
    rfl
  have hrsp : replies (story s.log).requested.length = ⟨obexRspSuccess, []⟩ := by
    rw [hreq, hy]
  -- the server answers it at once
  apply wp_conseq (bare_packet hs hcmd h.granted.2 h.written.2 h.replier h.few.2 hrsp hls hmc
    hmtu' hb' hbuf)
  rintro - s' ⟨notice, hnotice, hcode, hs'⟩
  refine ⟨_, since_of_written hs'.written, fun b' hbuf' => ?_⟩
  obtain ⟨hrest', n', hn', hlog'⟩ := hs'
  rw [downPacket, if_pos rfl, List.flatMap_nil, List.append_nil, hfront'] at hbuf'
  have hbounds : 255 ≤ mtuHeard cmd ms c₁.mtuTxMax mtu ∧ mtuHeard cmd ms c₁.mtuTxMax mtu ≤ 65535 := by
    rw [hmax, hmtu]
    exact hb
  -- the client hears a last response and finishes
  apply ho₁.hear_bare hcmd h.granted.1 h.quiet hst hms hbounds hbuf'
  intro t₁ o₂ ho₂ hst₁ hlog₁
  rw [hmax, hmtu] at ho₂
  have hcount : ∀ notice, ((fun k => (replies k).headers.map Adding.read)
      (((story t₁.log).finished notice).done.length - 1)) = [] := by
    intro notice
    rw [hlog₁, hstory, Story.finished, Story.wrote, List.length_append, hdone]
    show (replies k).headers.map Adding.read = []
    rw [hy]
    rfl
  apply wp_conseq (ho₂.finish h.quiet h.few.1 hst₁ (fun y hy => (List.not_mem_nil hy).elim) rfl hcount)
  rintro - c₂ ⟨hrest, nc', hnc, hcmd', hrsp', hlog₂⟩
  rw [hlog₁] at hlog₂
  have hwritten : (story c₂.log).written = (story c₁.log).written ++ [] := by
    rw [hlog₂, Story.finished, List.append_nil]
  have hlast := not_isContinue (by decide : withoutFinal obexRspSuccess ≠ obexRspContinue)
    (connectFront cmd s.mtuRx ++ [])
  refine ⟨none, since_of_written hwritten, iff_of_false Bool.false_ne_true hlast,
    ⟨⟨hrest.object, hrest.mode, hrest.state⟩, hrest.mtuTx, hrest.bounds, hrest.direct, hrest.link⟩,
    hrest', ⟨notice, hnotice, hcode, ?_⟩, ⟨n', hn', ?_⟩, nc', hnc, hcmd', hrsp', ?_⟩
  · rw [hlog']
    rfl
  · rw [hlog']
    rfl
  · refine (congrArg Story.done hlog₂).trans ?_
    rw [hstory]
    rfl

/-- From exchange `k` on: a CONNECT, `m` exchanges in packets of the sizes it leaves, and a
DISCONNECT. -/
def FullSession (C C' : Ctx) (requests : Nat → Request) (replies : Nat → Reply) (m k : Nat)
    (c s : Obex) : Prop :=
  Asks C C' (requests k) (fun c₁ s₁ =>
    Fulfilled (requests k) (replies k) (min s.mtuRx c.mtuTxMax) (min c.mtuRx s.mtuTxMax) c s c₁ s₁ ∧
      Exchanges C C' requests replies (min s.mtuRx c.mtuTxMax) (min c.mtuRx s.mtuTxMax)
        (fun c₂ s₂ => Asks C C' (requests (k + 1 + m))
          (Fulfilled (requests (k + 1 + m)) (replies (k + 1 + m)) obexMinimumMtu obexMinimumMtu c₂
            s₂) c₂ s₂)
        m (k + 1) c₁ s₁) c s

/-- Two handles at rest come through a whole session: the CONNECT negotiates the sizes of the packets,
every exchange is fulfilled in packets of these sizes, and the DISCONNECT leaves both at the minimum
again. -/
theorem whole_session (h : Partners Ec Es replies nc ns) (hc : AtRest mtu c) (hs : AtRest mtu' s)
    (hbc : Bounded c) (hbs : Bounded s) (hdone : (story c.log).done.length = k)
    (hreq : (story s.log).requested.length = k) (hfirst : requests k = ⟨obexCmdConnect, [], []⟩ ∧
    replies k = ⟨obexRspSuccess, []⟩) (hlast : requests (k + 1 + m) = ⟨obexCmdDisconnect, [], []⟩ ∧
      replies (k + 1 + m) = ⟨obexRspSuccess, []⟩)
    (hx : ∀ j, k + 1 ≤ j → j < k + 1 + m →
      Feasible (requests j) (replies j) (min s.mtuRx c.mtuTxMax) (min c.mtuRx s.mtuTxMax) nc ns) :
    FullSession (askingCtx Ec replies nc) (replyingCtx Es requests ns) requests replies m k c s := by
  have hb := hbs.negotiated hbc
  have hb' := hbc.negotiated hbs
  apply (h.bare hc hs (.inl rfl) hfirst.1 hfirst.2 hdone hreq (fun _ => hbc) (fun _ => hbs) rfl rfl
    hb hb').mono
  intro c₁ s₁ hful
  obtain ⟨n₁, -, -, hreq₁⟩ := hful.requested
  obtain ⟨n₂, -, -, -, hdone₁⟩ := hful.done
  refine ⟨hful, h.exchanges hful.client hful.server hx ?_ ?_ ?_⟩
  · rw [hdone₁, List.length_append, hdone]
    rfl
  · rw [hreq₁, List.length_append, hreq]
    rfl
  intro c₂ s₂ hc₂ hs₂ hdone₂ hreq₂
  have hno : obexCmdDisconnect = obexCmdConnect → False := by decide
  exact h.bare hc₂ hs₂ (.inr rfl) hlast.1 hlast.2 hdone₂ hreq₂ (fun hn => (hno hn).elim)
    (fun hn => (hno hn).elim)
    rfl rfl hb hb'

/-- Three requests between a CONNECT and a DISCONNECT. -/
def threeRequests (j : Nat) : Request :=
  if j = 0 then ⟨obexCmdConnect, [], []⟩
  else if j = 4 then ⟨obexCmdDisconnect, [], []⟩
  else announcedRequests j

def threeReplies (j : Nat) : Reply :=
  if j = 0 ∨ j = 4 then ⟨obexRspSuccess, []⟩ else announcedReplies j

theorem whole_session_three : ∃ c s : Obex, c = obexInit .inet ∧ s = obexInit .inet ∧
    FullSession (askingCtx willingPeer threeReplies 3)
      (replyingCtx (replyingPeer threeReplies) threeRequests 3)
      threeRequests threeReplies 3 0 c s := by
  obtain ⟨c, hinit, hc, hbc, hlog, hsize⟩ : ∃ c : Obex, c = obexInit .inet ∧ AtRest 255 c ∧ Bounded c ∧
    c.log = [] ∧
      min c.mtuRx c.mtuTxMax = 1024 :=
    ⟨obexInit .inet, rfl, ⟨⟨rfl, rfl, rfl⟩, rfl, by decide, by decide, fun hu => by cases hu⟩,
      ⟨⟨by decide, by decide⟩, by decide, by decide⟩, rfl, rfl⟩
  have hpartners : Partners willingPeer (replyingPeer threeReplies) threeReplies 3 3 :=
    { granted := ⟨fun _ => rfl, fun _ => rfl⟩
      written := ⟨fun _ d => Int.natCast_nonneg d.length, fun _ d => Int.natCast_nonneg d.length⟩
      quiet := fun _ => rfl
      replier := replier_replyingPeer _
      few := ⟨by decide, by decide⟩ }
  have hordinary : Ordinary 0x02 := by decide
  have hending : withoutFinal obexRspSuccess ≠ obexRspContinue := by decide
  have hfew : announcedBody.length < 3 := by decide
  have hsendable : Sendable 1024 announcedBody := sendable_announcedBody (by decide)
  have hfeasible (j : Nat) (hj : 0 + 1 ≤ j) (hlt : j < 0 + 1 + 3) :
    Feasible (threeRequests j) (threeReplies j)
      (min c.mtuRx c.mtuTxMax) (min c.mtuRx c.mtuTxMax) 3 3 := by
    rw [threeRequests, if_neg (by omega), if_neg (by omega), threeReplies, if_neg (by omega), hsize]
    exact ⟨hordinary, rfl, hending, ⟨hsendable, hfew⟩, hsendable, hfew⟩
  exact ⟨c, c, hinit, hinit, whole_session hpartners hc hc hbc hbc (by rw [hlog]; rfl)
    (by rw [hlog]; rfl) ⟨rfl, rfl⟩
    ⟨rfl, rfl⟩ hfeasible⟩

end

end OpenObex
