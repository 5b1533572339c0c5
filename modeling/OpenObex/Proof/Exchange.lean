import OpenObex.Proof.Sides

/-!
# A whole exchange

An application makes a request with headers, and the application on the other side accepts it and
answers it with headers of its own. The client sends its headers packet by packet, each answered with a
CONTINUE; then the server's application is handed the request with these headers, and what it adds is
sent packet by packet, each asked for by the client, until the client's application is told that the
request is done and finds what was added.
-/

namespace OpenObex

open Mem Prog

/-! ## One exchange -/

/-- The client hears the responses without a call of its own; the application of the server gives the
replies. -/
structure Partners (Ec Es : Env) (replies : Nat → Reply) (nc ns : Nat) : Prop where
  granted : (∀ k, Ec.malloc k = true) ∧ ∀ k, Es.malloc k = true
  written : (∀ log d, 0 ≤ Ec.write log d) ∧ ∀ log d, 0 ≤ Es.write log d
  quiet : ∀ log, Ec.app log = []
  replier : Replier Es replies
  few : 0 < nc ∧ 0 < ns

/-- The request and the reply can be sent, in packets of `mtu` and of `mtu'` bytes. -/
structure Feasible (x : Request) (y : Reply) (mtu mtu' nc ns : Nat) : Prop where
  ordinary : Ordinary x.cmd
  front : x.front.length = headOffset x.cmd
  ending : withoutFinal y.rsp ≠ obexRspContinue
  request : Sendable mtu x.headers ∧ x.headers.length < nc
  reply : Sendable mtu' y.headers ∧ y.headers.length < ns

/-- The client, whose application finds the headers of the `k`-th reply when its `k`-th request is
done. -/
def askingCtx (Ec : Env) (replies : Nat → Reply) (nc : Nat) : Ctx :=
  Ec.ctx (finds .reqdone (fun w => w.done.length) fun k => (replies k).headers.map Adding.read) nc

/-- The server, whose application finds the headers of the `k`-th request when it is handed it. -/
def replyingCtx (Es : Env) (requests : Nat → Request) (ns : Nat) : Ctx :=
  Es.ctx (finds .req (fun w => w.requested.length) fun k => (requests k).headers.map Adding.read) ns

/-- From `c` and `s` the request is handed to the one application and done for the other, each once, and
both handles are free again. -/
structure Fulfilled (x : Request) (y : Reply) (mtu mtu' : Nat) (c s c' s' : Obex) : Prop where
  client : AtRest mtu c'
  server : AtRest mtu' s'
  requested : ∃ n, n.object = some s.fresh ∧ n.cmd = x.cmd ∧ (story s'.log).requested =
    (story s.log).requested ++ [n]
  served : ∃ n, n.object = some s.fresh ∧ (story s'.log).done = (story s.log).done ++ [n]
  done : ∃ n, n.object = some c.fresh ∧ n.cmd = x.cmd ∧ n.rsp = withoutFinal y.rsp ∧
    (story c'.log).done = (story c.log).done ++ [n]

/-- Exchange `k` begins at `c` and `s`; `up` is what the server is to take, and `down`, in `packets`
packets at most, what the client is to take. -/
structure Plan where
  k : Nat
  c : Obex
  s : Obex
  up : Intake
  down : Intake
  packets : Nat

/-- The plan is for these requests and replies. -/
structure Plan.For (P : Plan) (requests : Nat → Request) (replies : Nat → Reply)
    (mtu mtu' nc ns : Nat) : Prop where
  feasible : Feasible (requests P.k) (replies P.k) mtu mtu' nc ns
  done : (story P.c.log).done.length = P.k
  requested : (story P.s.log).requested.length = P.k
  up : Brought (requests P.k).headers P.up
  down : Brought (replies P.k).headers P.down
  brings : Brings (mtu' - 3) P.packets ((replies P.k).headers.map Adding.parcel) noIntake P.down

/-- The client has the headers `xs` of the request to send and has taken `i` of the response. -/
structure Asking (x : Request) (P : Plan) (mtu : Nat) (xs : List Parcel) (i : Intake) (c : Obex) :
    Prop where
  standing : Standing (some P.c.fresh) .cli .recv c
  object : ∃ o, Engaged x.cmd (x.cmd ||| obexFinal) P.c.fresh mtu [] xs i c o
  done : (story c.log).done = (story P.c.log).done

/-- The packet `d` with headers of the request, and `f` in front of them, is on its way. -/
structure Upward (x : Request) (y : Reply) (replies : Nat → Reply) (P : Plan) (mtu mtu' nc n : Nat)
    (d : Bytes) (c s : Obex) (f : Bytes) (hs : List Head) (ys : List Parcel) (i : Intake) : Prop where
  packet : d = upPacket x.cmd f hs ys
  valid : ∀ h ∈ hs, h.Valid
  client : Asking x P mtu ys noIntake c
  server : Expecting replies x.cmd y.rsp P.s.fresh mtu' f i s
  told : (story s.log).requested = (story P.s.log).requested ∧ (story s.log).done = (story P.s.log).done
  packable : Packable (mtu - 3) ys
  few : ys.length < nc
  brings : ∃ i' j, hs.foldlM Intake.step i = some i' ∧ Brings (mtu - 3) j ys i' P.up ∧
    n = j + P.packets + 1

/-- The application of the server has been handed the request. -/
def Plan.Handed (P : Plan) (x : Request) (w : Story) : Prop :=
  (∃ n, n.object = some P.s.fresh ∧ n.cmd = x.cmd ∧ w.requested = (story P.s.log).requested ++ [n]) ∧
    w.done = (story P.s.log).done

/-- The client asks for more of the response, of which the server has the headers `xs`. -/
structure Downward (x : Request) (y : Reply) (P : Plan) (mtu mtu' ns n : Nat) (d : Bytes) (c s : Obex)
    (xs : List Parcel) (i : Intake) : Prop where
  packet : d = upPacket x.cmd [] [] []
  client : Asking x P mtu [] i c
  standing : Standing (some P.s.fresh) .srv .send s
  server : ∃ o, Engaged obexRspContinue y.rsp P.s.fresh mtu' [] xs P.up s o
  handed : P.Handed x (story s.log)
  packable : Packable (mtu' - 3) xs
  few : xs.length < ns
  left : xs ≠ []
  brings : Brings (mtu' - 3) n xs i P.down

/-- The exchange is under way with the packet `d`, and `n` bounds the number of those that follow it. -/
def Plan.Runs (P : Plan) (x : Request) (y : Reply) (replies : Nat → Reply) (mtu mtu' nc ns n : Nat)
    (d : Bytes) (c s : Obex) : Prop :=
  (∃ f hs ys i, Upward x y replies P mtu mtu' nc n d c s f hs ys i) ∨
    ∃ xs i, Downward x y P mtu mtu' ns n d c s xs i

section
variable {Ec Es : Env} {requests : Nat → Request} {replies : Nat → Reply} {mtu mtu' nc ns n j k : Nat}
  {P : Plan} {x : Request} {y : Reply} {f : Bytes} {xs ys : List Parcel} {i i' : Intake}
  {hs gs : List Head} {b : Buf} {d : Bytes} {w : Story} {c s : Obex}

theorem Responded.written {cmd rsp : UInt8} {p : Ptr} (h : Responded cmd rsp p mtu ys i w s) :
    (story s.log).written = w.written := by
  unfold Responded at h
  split at h
  · obtain ⟨-, notice, -, hlog⟩ := h
    rw [hlog]
    rfl
  · rw [h.2.2]

theorem not_isContinue {rsp : UInt8} (hrsp : withoutFinal rsp ≠ obexRspContinue) (body : Bytes) :
    ¬ IsContinue (packet (rsp ||| obexFinal) body) := by
  intro hcontinue
  have hop : rsp ||| obexFinal = obexRspContinue ||| obexFinal := Option.some_inj.1 hcontinue
  rw [← withoutFinal_or, hop] at hrsp
  exact hrsp (by decide)

/-- The application makes the request, with which one packet is written, and the conversation that
follows comes to its end, with `Q`. -/
def Asks (C C' : Ctx) (x : Request) (Q : Obex → Obex → Prop) (c s : Obex) : Prop :=
  wp (requestObject C x)
    (fun rets c₁ => (∀ r ∈ rets, r = 1) ∧ ∃ d, since c c₁ = [d] ∧ ∃ n, Converse C C' Q n d c₁ s)
    (fun _ _ => False) c

theorem Asks.mono {C C' : Ctx} {Q Q' : Obex → Obex → Prop} (h : Asks C C' x Q c s)
    (hQ : ∀ c s, Q c s → Q' c s) :
    Asks C C' x Q' c s := by
  apply wp_conseq h
  rintro rets c₁ ⟨hrets, d, hd, n, hends⟩
  exact ⟨hrets, d, hd, n, hends.mono (lawful_dispatch _ _) hQ (Nat.le_refl n)⟩

namespace Partners

theorem continues (h : Partners Ec Es replies nc ns) (hx : Ordinary x.cmd)
    (ha : Asking x P mtu xs i c) (hb : b.contents = packet (obexRspContinue ||| obexFinal)
    (gs.flatMap Head.encode)) (hv : ∀ g ∈ gs, g.Valid) (hfold : gs.foldlM Intake.step i = some i')
    (hp : Packable (mtu - 3) xs) (hfew : xs.length < nc) (hpack : pack (mtu - 3) xs = some (hs, ys))
    (final : Bool) :
    wp (dispatch (askingCtx Ec replies nc) final)
      (fun _ c' => Asking x P mtu ys i' c' ∧ since c c' = [upPacket x.cmd [] hs ys]) (fun _ _ => False)
      (c.setRxMsg b) := by
  obtain ⟨hst, ⟨o, ho⟩, hdone⟩ := ha
  unfold askingCtx
  apply ho.hear hx h.granted.1 h.quiet hst hb hv hfold
  intro t o' ho' hst' hlog
  rw [if_pos (by decide)]
  apply wp_conseq (ho'.next h.granted.1 h.written.1 h.quiet hp hfew hpack hst')
  rintro - t' ⟨⟨hobj, hmode, hstate⟩, ⟨o'', ho''⟩, hlog'⟩
  rw [hlog] at hlog'
  refine ⟨⟨⟨hobj, hmode, hstate⟩, ⟨o'', ho''.moved ho''.prepared.object rfl rfl rfl⟩, ?_⟩, ?_⟩
  · exact (congrArg Story.done hlog').trans hdone
  · exact since_of_written (congrArg Story.written hlog')

/-- The last response ends the request. -/
theorem concludes (h : Partners Ec Es replies nc ns) (hP : P.For requests replies mtu mtu' nc ns)
    (ha : Asking (requests P.k) P mtu [] i c)
    (hb : b.contents = packet ((replies P.k).rsp ||| obexFinal) (gs.flatMap Head.encode))
    (hv : ∀ g ∈ gs, g.Valid) (hfold : gs.foldlM Intake.step i = some P.down) (final : Bool) :
    wp (dispatch (askingCtx Ec replies nc) final) (fun _ c' => AtRest mtu c' ∧ since c c' = [] ∧
        ∃ notice, notice.object = some P.c.fresh ∧ notice.cmd = (requests P.k).cmd ∧
          notice.rsp = withoutFinal (replies P.k).rsp ∧ (story c'.log).done = (story P.c.log).done ++
            [notice])
      (fun _ _ => False) (c.setRxMsg b) := by
  obtain ⟨hst, ⟨o, ho⟩, hdone⟩ := ha
  unfold askingCtx
  apply ho.hear hP.feasible.ordinary h.granted.1 h.quiet hst hb hv hfold
  intro t o' ho' hst' hlog
  rw [withoutFinal_or, if_neg hP.feasible.ending]
  have hcount : ∀ notice, (((story t.log).finished notice).done.length - 1) = P.k := by
    intro notice
    rw [hlog, Story.finished, hdone, List.length_append, hP.done]
    rfl
  apply wp_conseq (ho'.finish h.quiet h.few.1 hst' hP.down.whole hP.down.read
    fun notice => congrArg (fun k => (replies k).headers.map Adding.read) (hcount notice))
  rintro - t' ⟨hrest, notice, hobj, hcmd, hrsp, hlog'⟩
  rw [hlog] at hlog'
  have hwritten : (story t'.log).written = (story c.log).written ++ [] := by
    rw [hlog', Story.finished, List.append_nil]
  refine ⟨⟨⟨hrest.object, hrest.mode, hrest.state⟩, hrest.mtuTx, hrest.bounds, hrest.direct,
    hrest.link⟩, since_of_written hwritten, notice, hobj, hcmd, hrsp, ?_⟩
  refine (congrArg Story.done hlog').trans ?_
  rw [Story.finished, hdone]

/-- What the client makes of a packet of the response. -/
theorem hears_response (h : Partners Ec Es replies nc ns) (hP : P.For requests replies mtu mtu' nc ns)
    (ha : Asking (requests P.k) P mtu [] i c) (hv : ∀ g ∈ gs, g.Valid)
    (hfold : gs.foldlM Intake.step i = some i') (hrest : Brings (mtu' - 3) j ys i' P.down)
    (hj : ys ≠ [] → j < n) (hp : Packable (mtu' - 3) ys) (hfew : ys.length < ns)
    (hs : Responded (requests P.k).cmd (replies P.k).rsp P.s.fresh mtu' ys P.up w s)
    (hw : P.Handed (requests P.k) w) :
    hears (askingCtx Ec replies nc) (downPacket (replies P.k).rsp [] gs ys) c fun d c' =>
      d.elim (Fulfilled (requests P.k) (replies P.k) mtu mtu' P.c P.s c' s) fun d =>
        ∃ k < n, P.Runs (requests P.k) (replies P.k) replies mtu mtu' nc ns k d c' s := by
  intro b hb
  obtain ⟨⟨nq, hq, hcode, hreq⟩, hserved⟩ := hw
  unfold Responded at hs
  unfold downPacket at hb
  by_cases hys : ys = []
  · subst hys
    have hi := Brings.nil hrest
    subst hi
    rw [if_pos rfl] at hs hb
    obtain ⟨hserver, ns', hn, hlog⟩ := hs
    rw [hP.feasible.ordinary.mtuAfter] at hserver
    apply wp_conseq (h.concludes hP ha hb hv hfold _)
    rintro - c' ⟨hclient, hsince, hdone⟩
    have hlast := not_isContinue hP.feasible.ending ([] ++ gs.flatMap Head.encode)
    refine ⟨none, hsince, iff_of_false Bool.false_ne_true hlast, hclient, hserver, ⟨nq, hq, hcode, ?_⟩,
      ⟨ns', hn, ?_⟩, hdone⟩
    · rw [hlog]
      exact hreq
    · rw [hlog, Story.finished, hserved]
  · rw [if_neg hys] at hs hb
    obtain ⟨hst, hobj, hlog⟩ := hs
    have hnone : Packable (mtu - 3) [] := ⟨Nat.zero_le _, fun z hz => (List.not_mem_nil hz).elim⟩
    apply wp_conseq (h.continues hP.feasible.ordinary ha hb hv hfold hnone h.few.1 rfl _)
    rintro - c' ⟨ha', hsince⟩
    have hcontinue : IsContinue (downPacket (replies P.k).rsp [] gs ys) := by
      unfold downPacket
      rw [if_neg hys]
      rfl
    refine ⟨some _, hsince, iff_of_true rfl hcontinue, j, hj hys,
      .inr ⟨ys, i', rfl, ha', hst, hobj, ?_, hp, hfew, hys, hrest⟩⟩
    rw [hlog]
    exact ⟨⟨nq, hq, hcode, hreq⟩, hserved⟩

/-- A packet of the request is answered, and followed by another packet. -/
theorem upward (h : Partners Ec Es replies nc ns) (hP : P.For requests replies mtu mtu' nc ns)
    (hup : Upward (requests P.k) (replies P.k) replies P mtu mtu' nc n d c s f hs ys i) :
    serves (replyingCtx Es requests ns) d s fun r s' => hears (askingCtx Ec replies nc) r c fun d' c' =>
      d'.elim (Fulfilled (requests P.k) (replies P.k) mtu mtu' P.c P.s c' s') fun d' =>
        ∃ k < n, P.Runs (requests P.k) (replies P.k) replies mtu mtu' nc ns k d' c' s' := by
  obtain ⟨hd, hv, hclient, hserver, ⟨hreq, hserved⟩, hp, hfew, i', j, hfold, hrest, hn⟩ := hup
  intro b hb
  rw [hd] at hb ⊢
  have hordinary := hP.feasible.ordinary
  apply hserver.packet hordinary h.granted.2 h.replier h.few.2 hb hv hfold
  intro t len ht hlog
  by_cases hys : ys = []
  · subst hys
    -- the last packet of the request: the server begins the response
    have hi := Brings.nil hrest
    subst hi
    obtain ⟨hsend, hshort⟩ := hP.feasible.reply
    have hbounds : mtu' ≤ 65535 := by
      obtain ⟨-, o, ho, -⟩ := ht
      have hmtu := ho.prepared.mtu
      rw [ho.mtuTx] at hmtu
      exact hmtu.2
    have hpack' := hsend.packable hbounds
    obtain ⟨gs, zs, j', i₁, hpack, hi₁, hrest', hle, -⟩ := hP.brings.first
    have hlen := pack_length hpack
    rw [List.length_map] at hlen
    have hcount : ∀ notice, ((story t.log).handed notice).requested.length - 1 = P.k := by
      intro notice
      rw [hlog, Story.handed, hreq, List.length_append, hP.requested]
      rfl
    have hindex : (story t.log).requested.length = P.k := by
      rw [hlog, hreq, hP.requested]
    rw [decide_eq_true rfl]
    apply wp_conseq (ht.last hordinary.abort h.granted.2 h.written.2 h.replier hP.up.whole hP.up.read
      (fun notice => congrArg (fun k => (requests k).headers.map Adding.read) (hcount notice))
      (congrArg (fun k => (replies k).headers) hindex) hsend hshort hpack len)
    rintro - s' ⟨notice, hobj, hcode, hs'⟩
    have hs' := hs'.reused (bufReuse s'.rxMsg)
    rw [hlog, connectFront, if_neg hordinary.connect] at hs'
    refine ⟨_, since_of_written hs'.written, ?_⟩
    refine h.hears_response hP hclient (pack_valid hpack' (by omega) hpack) hi₁ hrest' (by omega)
      (pack_packable hpack' hpack) (by omega) hs' ⟨⟨notice, hobj, hcode, ?_⟩, hserved⟩
    rw [Story.wrote, Story.handed, hreq]
  · -- more is to come: the server says CONTINUE and the client sends the next packet
    rw [decide_eq_false hys]
    apply wp_conseq (ht.part h.granted.2 h.written.2 h.replier h.few.2 len)
    rintro - s' ⟨hg, hlog'⟩
    rw [hlog] at hlog'
    have hs' : story (s'.setRxMsg (bufReuse s'.rxMsg)).log =
        (story s.log).wrote (packet (obexRspContinue ||| obexFinal) []) := hlog'
    refine ⟨_, since_of_written (congrArg Story.written hs'), fun b' hb' => ?_⟩
    obtain ⟨gs, zs, j', i₁, hpack, hi₁, hrest', -, hlt⟩ := hrest.first
    have hlen := pack_length hpack
    have hbounds : mtu ≤ 65535 := by
      obtain ⟨-, ⟨o, ho⟩, -⟩ := hclient
      have hmtu := ho.prepared.mtu
      rw [ho.mtuTx] at hmtu
      exact hmtu.2
    have hnone : ∀ g ∈ ([] : List Head), g.Valid := fun g hg => (List.not_mem_nil hg).elim
    apply wp_conseq (h.continues hordinary hclient hb' hnone rfl hp hfew hpack _)
    rintro - c' ⟨hclient', hsince⟩
    have hg' : Gathering (requests P.k).cmd (replies P.k).rsp P.s.fresh mtu' i'
      (s'.setRxMsg (bufReuse s'.rxMsg)) :=
      hg.moved rfl rfl ⟨rfl, rfl, rfl⟩ rfl rfl
    refine ⟨some _, hsince, iff_of_true rfl rfl, j' + P.packets + 1, ?_,
      .inl ⟨[], gs, zs, i', rfl, pack_valid hp (by omega) hpack, hclient', .inr ⟨hg', rfl⟩, ?_,
        pack_packable hp hpack, by omega, i₁, j', hi₁, hrest', rfl⟩⟩
    · have hless := hlt hys
      omega
    · rw [hs']
      exact ⟨hreq, hserved⟩

/-- A packet of the response is asked for and sent. -/
theorem downward (h : Partners Ec Es replies nc ns) (hP : P.For requests replies mtu mtu' nc ns)
    (hdown : Downward (requests P.k) (replies P.k) P mtu mtu' ns n d c s xs i) :
    serves (replyingCtx Es requests ns) d s fun r s' => hears (askingCtx Ec replies nc) r c fun d' c' =>
      d'.elim (Fulfilled (requests P.k) (replies P.k) mtu mtu' P.c P.s c' s') fun d' =>
        ∃ k < n, P.Runs (requests P.k) (replies P.k) replies mtu mtu' nc ns k d' c' s' := by
  obtain ⟨hd, hclient, hst, ⟨o, ho⟩, hhanded, hp, hfew, hleft, hrest⟩ := hdown
  intro b hb
  rw [hd] at hb ⊢
  have hmtu := ho.prepared.mtu
  rw [ho.mtuTx] at hmtu
  obtain ⟨gs, zs, j, i₁, hpack, hi₁, hrest', -, hlt⟩ := hrest.first
  have hlen := pack_length hpack
  apply wp_conseq (ho.asked hP.feasible.ordinary h.granted.2 h.written.2 h.replier hp hfew
    hpack hst hb _)
  rintro - s' hs'
  refine ⟨_, since_of_written hs'.written, ?_⟩
  exact h.hears_response hP hclient (pack_valid hp (by omega) hpack) hi₁ hrest' (fun _ => hlt hleft)
    (pack_packable hp hpack) (by omega) hs' hhanded

theorem step (h : Partners Ec Es replies nc ns) (hP : P.For requests replies mtu mtu' nc ns)
    (hruns : P.Runs (requests P.k) (replies P.k) replies mtu mtu' nc ns n d c s) :
    serves (replyingCtx Es requests ns) d s fun r s' => hears (askingCtx Ec replies nc) r c fun d' c' =>
      d'.elim (Fulfilled (requests P.k) (replies P.k) mtu mtu' P.c P.s c' s') fun d' =>
        ∃ k < n, P.Runs (requests P.k) (replies P.k) replies mtu mtu' nc ns k d' c' s' := by
  rcases hruns with ⟨f, hs, ys, i, hup⟩ | ⟨xs, i, hdown⟩
  · exact h.upward hP hup
  · exact h.downward hP hdown

/-- An exchange from handles at rest comes to its end. -/
theorem exchange (h : Partners Ec Es replies nc ns) (hc : AtRest mtu c) (hs : AtRest mtu' s)
    (hx : Feasible (requests k) (replies k) mtu mtu' nc ns) (hdone : (story c.log).done.length = k)
    (hreq : (story s.log).requested.length = k) :
    Asks (askingCtx Ec replies nc) (replyingCtx Es requests ns) (requests k)
      (Fulfilled (requests k) (replies k) mtu mtu' c s) c s := by
  have hordinary := hx.ordinary
  obtain ⟨hsend, hshort⟩ := hx.request
  obtain ⟨K, up, ⟨hup, hup'⟩⟩ := hsend.brings hc.bounds
  obtain ⟨K', down, hdown, hdown'⟩ := hx.reply.1.brings hs.bounds
  have hP : Plan.For ⟨k, c, s, up, down, K'⟩ requests replies mtu mtu' nc ns :=
    ⟨hx, hdone, hreq, hup', hdown', hdown⟩
  have hpackable := hsend.packable hc.bounds.2
  obtain ⟨hs', ys, j, i, hpack, hfold, hrest, -, -⟩ := hup.first
  have hadds : ∀ a ∈ (requests k).headers, a.Valid ∧ a.fit = false ∧ a.suspend = false ∧
      (a.hi ≠ obexHdrBody → a.size ≤ mtu - 3) := fun a ha =>
    ⟨(hsend.each a ha).2.1, (hsend.each a ha).2.2.1, (hsend.each a ha).2.2.2, hsend.delivered.fits a ha⟩
  have hlen := pack_length hpack
  rw [List.length_map] at hlen
  have hbounds := hc.bounds
  rw [Asks, requestObject, wp_bind]
  unfold askingCtx
  apply wp_newRequest h.granted.1 hc
  intro t o ho hfront hobj hlog
  rw [connectFront, if_neg hordinary.connect] at ho
  apply wp_seq (ho.setNonHdrData h.granted.1 (hfront hordinary.connect) _)
  rintro r t₀ ⟨hr, hobj₀, hlog₀, o₀, ho₀⟩
  apply wp_seq (ho₀.addAll h.granted.1 hadds)
  rintro rets t₁ ⟨hrets, hobj₁, hlog₁, o₁, ho₁⟩
  rw [List.nil_append] at ho₁
  have hfree : t₁.object = none := ((hobj.trans hobj₀).trans hobj₁).object.trans hc.object
  apply wp_seq (ho₁.request h.granted.1 h.written.1 h.quiet hpackable (by rwa [List.length_map])
    hpack hfree)
  rintro - c₁ ⟨hst, -, hobj₂, hstory⟩
  rw [hlog₁, hlog₀, hlog] at hstory
  have hasking : Asking (requests k) ⟨k, c, s, up, down, K'⟩ mtu ys noIntake c₁ :=
    ⟨hst, hobj₂, by rw [hstory, Story.wrote]⟩
  have hexpects : Expecting replies (requests k).cmd (replies k).rsp s.fresh mtu' (requests k).front
    noIntake s :=
    .inl ⟨hs, rfl, rfl, by rw [hreq], hx.front⟩
  rw [wp_pure]
  refine ⟨List.forall_mem_cons.2 ⟨hr, hrets⟩, _, since_of_written (congrArg Story.written hstory),
    j + K' + 1 + 1, ?_⟩
  exact Dialog.ends_of_rank (lawful_dispatch _ _) (fun _ _ _ _ hI => h.step hP hI)
    (.inl ⟨_, hs', ys, noIntake, rfl, pack_valid hpackable (by omega) hpack, hasking, hexpects,
      ⟨rfl, rfl⟩, pack_packable hpackable hpack, by omega, i, j, hfold, hrest, rfl⟩)

end Partners

end

/-! ## Any number of exchanges -/

/-- From exchange `k` on, `m` exchanges, each fulfilled, and then `Q`. -/
def Exchanges (C C' : Ctx) (requests : Nat → Request) (replies : Nat → Reply) (mtu mtu' : Nat)
    (Q : Obex → Obex → Prop) : Nat → Nat → Obex → Obex → Prop
  | 0, _, c, s => Q c s
  | m + 1, k, c, s => Asks C C' (requests k)
    (fun c' s' => Fulfilled (requests k) (replies k) mtu mtu' c s c' s' ∧
      Exchanges C C' requests replies mtu mtu' Q m (k + 1) c' s') c s

section
variable {Ec Es : Env} {requests : Nat → Request} {replies : Nat → Reply} {mtu mtu' nc ns k m : Nat}
    {c s : Obex}

theorem Partners.exchanges {Q : Obex → Obex → Prop} (h : Partners Ec Es replies nc ns)
    (hc : AtRest mtu c) (hs : AtRest mtu' s)
    (hx : ∀ j, k ≤ j → j < k + m → Feasible (requests j) (replies j) mtu mtu' nc ns)
    (hdone : (story c.log).done.length = k) (hreq : (story s.log).requested.length = k)
    (hQ : ∀ c s, AtRest mtu c → AtRest mtu' s → (story c.log).done.length = k + m →
      (story s.log).requested.length = k + m → Q c s) :
    Exchanges (askingCtx Ec replies nc) (replyingCtx Es requests ns) requests replies mtu mtu' Q m
      k c s := by
  induction m generalizing k c s with
  | zero => exact hQ c s hc hs hdone hreq
  | succ m ih =>
    apply (h.exchange hc hs (hx k (Nat.le_refl k) (by omega)) hdone hreq).mono
    intro c' s' hful
    obtain ⟨n₁, -, -, hreq'⟩ := hful.requested
    obtain ⟨n₂, -, -, -, hdone'⟩ := hful.done
    refine ⟨hful, ih hful.client hful.server (fun j hj hlt => hx j (by omega) (by omega)) ?_ ?_ ?_⟩
    · rw [hdone', List.length_append, hdone]
      rfl
    · rw [hreq', List.length_append, hreq]
      rfl
    · intro c'' s'' hc'' hs'' hdone'' hreq''
      exact hQ c'' s'' hc'' hs'' (by omega) (by omega)

/-- Every exchange comes to its end, and each request and each response arrives with its headers. -/
theorem every_exchange (h : Partners Ec Es replies nc ns) (hc : AtRest mtu c) (hs : AtRest mtu' s)
    (hx : ∀ j, k ≤ j → j < k + m → Feasible (requests j) (replies j) mtu mtu' nc ns)
    (hdone : (story c.log).done.length = k) (hreq : (story s.log).requested.length = k) :
    Exchanges (askingCtx Ec replies nc) (replyingCtx Es requests ns) requests replies mtu mtu'
      (fun c s => AtRest mtu c ∧ AtRest mtu' s) m k c s :=
  h.exchanges hc hs hx hdone hreq fun _ _ hc' hs' _ _ => ⟨hc', hs'⟩

end

/-- An application that gives these replies, with as much memory as it asks for. -/
def replyingPeer (replies : Nat → Reply) : Env where
  malloc _ := true
  app log := match log.getLast? with
    | some (.event n) =>
      if n.event = .reqhint then
        n.object.toList.map fun p => .objectSetRsp p obexRspContinue
          (replies (story log.dropLast).requested.length).rsp
      else if n.event = .req then
        n.object.toList.flatMap fun p => (replies (story log.dropLast).requested.length).headers.map
          (Adding.call p)
      else []
    | _ => []
  write _ d := d.length
  read _ _ := none

theorem replier_replyingPeer (replies : Nat → Reply) : Replier (replyingPeer replies) replies where
  hint log n p hn hp := by
    unfold replyingPeer
    dsimp only
    rw [List.getLast?_concat, List.dropLast_concat]
    dsimp only
    rw [if_pos hn, hp]
    rfl
  request log n p hn hp := by
    unfold replyingPeer
    dsimp only
    rw [List.getLast?_concat, List.dropLast_concat]
    dsimp only
    rw [if_neg (by rw [hn]; decide), if_pos hn, hp]
    exact List.append_nil _
  other log n hhint hreq := by
    unfold replyingPeer
    dsimp only
    rw [List.getLast?_concat]
    dsimp only
    rw [if_neg hhint, if_neg hreq]

/-- Each request has a body of three bytes, with its length in front. -/
def announcedRequests (_ : Nat) : Request := ⟨0x02, [], announcedBody⟩

/-- They are sent back. -/
def announcedReplies (_ : Nat) : Reply := ⟨obexRspSuccess, announcedBody⟩

theorem not_wedged_pair {room : Nat} {x y : Parcel} (hx : x.ofBody = false) (hpause : x.pause = false)
    (hroom : x.size + 3 ≤ room) : ¬ Wedged room room [x, y] := by
  have hle : x.size ≤ room := by omega
  have hleft : ¬ (x.pause = true ∨ room - x.size = 0) := by
    rw [hpause]
    simp
    omega
  rw [Wedged, if_neg (by simp [hx]), if_pos hle]
  dsimp only
  rw [if_neg hleft, Wedged]
  split
  · omega
  · exact not_false

theorem sendable_announcedBody {mtu : Nat} (hmtu : 255 ≤ mtu) : Sendable mtu announcedBody := by
  have hone : announcedBody.countP (fun a => decide (a.hi = obexHdrBody)) ≤ 1 := by decide
  refine ⟨?_, hone, ?_, ?_, ?_⟩
  · exact List.forall_mem_cons.2 ⟨⟨⟨by decide, by decide, by decide, fun hs => (by cases hs)⟩,
        ⟨by decide, fun hs => (by cases hs), fun hs => (by cases hs)⟩, rfl, rfl⟩,
      List.forall_mem_singleton.2 ⟨bodyOf_offered (by decide), bodyOf_valid (by decide), rfl, rfl⟩⟩
  · refine List.forall_mem_cons.2 ⟨fun _ => ?_, List.forall_mem_singleton.2 fun hb => absurd rfl hb⟩
    show 5 ≤ mtu - 3
    omega
  · exact not_wedged_pair rfl rfl (by show 5 + 3 ≤ mtu - 3; omega)
  · show 3 < 2147483648
    decide

theorem every_exchange_announced : ∃ c s : Obex, AtRest 255 c ∧ AtRest 255 s ∧
    Exchanges (askingCtx willingPeer announcedReplies 3)
      (replyingCtx (replyingPeer announcedReplies) announcedRequests 3)
      announcedRequests announcedReplies 255 255 (fun c s => AtRest 255 c ∧ AtRest 255 s) 4 0 c s := by
  obtain ⟨c, hc, hlog⟩ : ∃ c : Obex, AtRest 255 c ∧ c.log = [] :=
    ⟨obexInit .inet, ⟨⟨rfl, rfl, rfl⟩, rfl, by decide, by decide, fun hu => by cases hu⟩, rfl⟩
  obtain ⟨s, hs, hlog'⟩ : ∃ s : Obex, AtRest 255 s ∧ s.log = [] := ⟨c, hc, hlog⟩
  have hfew : announcedBody.length < 3 := by decide
  have hordinary : Ordinary 0x02 := by decide
  have hending : withoutFinal obexRspSuccess ≠ obexRspContinue := by decide
  have hpartners : Partners willingPeer (replyingPeer announcedReplies) announcedReplies 3 3 :=
    { granted := ⟨fun _ => rfl, fun _ => rfl⟩
      written := ⟨fun _ d => Int.natCast_nonneg d.length, fun _ d => Int.natCast_nonneg d.length⟩
      quiet := fun _ => rfl
      replier := replier_replyingPeer _
      few := ⟨by decide, by decide⟩ }
  have hfeasible (k : Nat) : Feasible (announcedRequests k) (announcedReplies k) 255 255 3 3 :=
    ⟨hordinary, rfl, hending, ⟨sendable_announcedBody (Nat.le_refl _), hfew⟩, sendable_announcedBody
      (Nat.le_refl _), hfew⟩
  exact ⟨c, s, hc, hs, every_exchange hpartners hc hs (fun k _ _ => hfeasible k) (by rw [hlog]; rfl)
    (by rw [hlog']; rfl)⟩

end OpenObex
