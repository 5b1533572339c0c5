import OpenObex.Proof.Framing

/-!
# Framing on sockets

`obex_transport_read` reserves the space for a read in `rx_msg` before the call, and gives what was not
filled back only after a positive count. A read that fails leaves the reserved bytes there, and if it
is the second one of a call nobody hears of it. As long as no read fails, `rx_msg` holds exactly the
bytes received since the last packet, and a packet is dispatched when its bytes are there
(`socket_framing`).
-/

namespace OpenObex

open Mem Prog

/-- The bytes the transport has delivered. -/
def received (log : List Obs) : Bytes :=
  (log.filterMap fun x => match x with
    | .read r => r
    | _ => none).flatten

/-- What has been received since `base` are whole packets, which have been dispatched, and the bytes
`held`. -/
def Account (base : List Obs) (held : Bytes) (log : List Obs) : Prop :=
  ∃ packets, dispatched log = dispatched base ++ packets ∧
    received log = received base ++ packets.flatten ++ held ∧
    ∀ d ∈ packets, frameSize d = d.length

/-- It has been so at every moment since `base`, and now the bytes `held` are left. -/
structure Accounted (base : List Obs) (held : Bytes) (log : List Obs) : Prop where
  now : Account base held log
  always : ∀ pre, base <+: pre → pre <+: log → ∃ held, Account base held pre

def TransportType.socket : TransportType → Bool
  | .irda | .inet | .bluetooth | .fd => true
  | .custom | .usb => false

/-- Every read returns a byte at least. -/
def readGuard : Guard where
  read _ r := match r with
    | some (_ :: _) => true
    | _ => false

/-! ## The log -/

theorem received_append (log : List Obs) (x : Obs) :
    received (log ++ [x]) = received log ++ match x with
      | .read r => r.getD []
      | _ => [] := by
  unfold received
  rw [List.filterMap_append, List.flatten_append]
  congr 1
  cases x with
  | read r => cases r <;> simp
  | _ => rfl

theorem Account.read {base log : List Obs} {held : Bytes} (h : Account base held log)
    (r : Option Bytes) : Account base (held ++ r.getD []) (log ++ [.read r]) := by
  obtain ⟨ds, h1, h2, h3⟩ := h
  refine ⟨ds, ?_, ?_, h3⟩
  · rw [dispatched_other log (by simp), h1]
  · rw [received_append, h2, List.append_assoc]

theorem Account.recv {base log : List Obs} {held : Bytes} (h : Account base held log)
    (hsize : frameSize held = held.length) : Account base [] (log ++ [.recv held]) := by
  obtain ⟨ds, h1, h2, h3⟩ := h
  refine ⟨ds ++ [held], ?_, ?_, ?_⟩
  · rw [dispatched_append, h1, List.append_assoc]
  · rw [received_append, h2]
    simp only [List.flatten_append, List.flatten_cons, List.flatten_nil, List.append_nil,
      List.append_assoc]
  · intro d hd
    rcases List.mem_append.1 hd with hd | hd
    · exact h3 d hd
    · rw [List.mem_singleton] at hd
      rw [hd]
      exact hsize

theorem Account.other {base log : List Obs} {held : Bytes} (h : Account base held log) {x : Obs}
    (hx : x.incoming = false) : Account base held (log ++ [x]) := by
  obtain ⟨ds, h1, h2, h3⟩ := h
  have hr : ∀ d, x ≠ .recv d := by
    rintro d rfl
    cases hx
  refine ⟨ds, by rw [dispatched_other log hr, h1], ?_, h3⟩
  rw [received_append, h2]
  cases x with
  | read r => cases hx
  | _ => rw [List.append_nil]

namespace Accounted

variable {base log : List Obs} {held : Bytes}

theorem append (h : Accounted base held log) {x : Obs} {held' : Bytes}
    (hx : Account base held' (log ++ [x])) : Accounted base held' (log ++ [x]) := by
  refine ⟨hx, fun pre hb hpre => ?_⟩
  rcases List.prefix_concat_iff.1 hpre with he | hp
  · rw [he]
    exact ⟨held', hx⟩
  · exact h.always pre hb hp

theorem refl (base : List Obs) : Accounted base [] base := by
  have h : Account base [] base := ⟨[], by simp, by simp, by simp⟩
  refine ⟨h, fun pre hb hp => ?_⟩
  rw [List.IsPrefix.eq_of_length_le hp hb.length_le]
  exact ⟨[], h⟩

end Accounted

/-! ## Reading -/

section
variable {E : Env} {n : Nat} (hread : ∀ log max bs, E.read log max = some bs → bs.length ≤ max)
include hread

/-- A read that returns has appended what was received; one that fails stops the run. -/
theorem wp_socketRead {max : Nat} {Q : Int → Obex → Prop} {R : Stop → Obex → Prop} {s : Obex}
    (h : ∀ bs b, bs ≠ [] → bs.length ≤ max → b.contents = s.rxMsg.contents ++ bs →
      Q (bs.length : Nat) ((s.emit (.read (some bs))).setRxMsg b))
    (he : ∀ r b, r.getD [] = [] → R .barred ((s.setRxMsg b).emit (.read r))) :
    wp (socketRead (E.ctx readGuard n) max) Q R s := by
  rw [socketRead, wp_bind, wp_get, ctx_malloc, ctx_read]
  cases hr : bufReserveEnd E.malloc s.rxMsg max with
  | none =>
    rw [wp_bind, Env.transportRead, wp_bind, wp_get, wp_bind, wp_emit, wp_bind, wp_allowed]
    exact ⟨fun hg => absurd hg (by simp [readGuard]), fun _ => he none s.rxMsg rfl⟩
  | some r =>
    obtain ⟨m, dest⟩ := r
    dsimp only
    rw [wp_bind, wp_set, wp_bind, Env.transportRead, wp_bind, wp_get, wp_bind, wp_emit, wp_bind,
      wp_allowed, if_pos rfl]
    have hlog : (s.setRxMsg m).log = s.log := rfl
    rw [hlog]
    refine ⟨fun hg => ?_, fun hg => ?_⟩
    · rw [wp_pure]
      cases hb : E.read s.log max with
      | none =>
        rw [hb] at hg
        cases hg
      | some bs =>
        have hle := hread s.log max bs hb
        have hne : bs ≠ [] := by
          rintro rfl
          rw [hb] at hg
          cases hg
        dsimp only
        rw [List.take_of_length_le hle, wp_bind, wp_require]
        obtain ⟨h1, h2, h3, -⟩ := bufReserveEnd_some hr
        have hend := m.end_le
        refine ⟨fun q hq => ?_, fun hnone => ?_⟩
        · rw [wp_bind, wp_modify, if_neg hne]
          exact h bs _ hne hle (contents_giveBack hr hle hq)
        · have hstore : ∃ q, bufPoke m dest bs = some q := bufPoke_of_le (by omega)
          obtain ⟨q, hq⟩ := hstore
          rw [hq] at hnone
          cases hnone
    · refine he _ m ?_
      cases hb : E.read s.log max with
      | none => rfl
      | some bs =>
        cases bs with
        | nil => rfl
        | cons x xs =>
          rw [hb] at hg
          cases hg

/-! ## One call of `OBEX_HandleInput` -/

omit hread in
theorem handling_steady (base : List Obs) :
    Steady fun s => s.trans.type.socket = true ∧ Accounted base [] s.log where
  state s t ht hl hs := by rw [ht, hl]; exact hs
  emit s x hx hs := ⟨hs.1, hs.2.append (hs.2.now.other hx)⟩

/-- The bytes in `rx_msg` are those received since the last packet. -/
structure InFrame (base : List Obs) (s : Obex) : Prop where
  socket : s.trans.type.socket = true
  log : Accounted base s.rxMsg.contents s.log

/-- They are not a whole packet. -/
structure Waiting (base : List Obs) (s : Obex) : Prop extends InFrame base s where
  part : s.rxMsg.dataSize < frameSize s.rxMsg.contents

/-- All that has been received is accounted for. -/
def Logged (base : List Obs) (_ : Stop) (s : Obex) : Prop := ∃ held, Accounted base held s.log

omit hread in
theorem wp_dispatch_socket {base : List Obs} {s : Obex} (hs : InFrame base s)
    (hsize : frameSize s.rxMsg.contents = s.rxMsg.contents.length) (final : Bool) :
    wp (dispatch (E.ctx readGuard n) final) (fun _ => Waiting base) (Logged base) s := by
  have hrecv : Accounted base [] (s.emit (.recv s.rxMsg.contents)).log :=
    hs.log.append (hs.log.now.recv hsize)
  rw [dispatch, ctx_recv, wp_bind]
  refine wp_packetReceived (fun _ => ?_) ⟨[], hrecv⟩
  have hmode : (s.emit (.recv s.rxMsg.contents)).mode = s.mode := rfl
  have hstop (e : Stop) (s' : Obex) (h : s'.trans.type.socket = true ∧ Accounted base [] s'.log) :
      Logged base e s' := ⟨[], h.2⟩
  rw [wp_bind, wp_get, hmode, wp_bind]
  refine wp_mono (Q := fun _ s' => s'.trans.type.socket = true ∧ Accounted base [] s'.log) ?_
    (fun ret s' hs' => ?_) hstop
  · cases s.mode with
    | srv => exact (handling_steady base).toLoose.server final _ ⟨hs.socket, hrecv⟩
    | cli => exact (handling_steady base).toLoose.client _ ⟨hs.socket, hrecv⟩
  have hc : (s'.setRxMsg (bufReuse s'.rxMsg)).rxMsg.contents = [] := contents_bufReuse _
  refine ⟨⟨hs'.1, ?_⟩, ?_⟩
  · rw [hc]
    exact hs'.2
  · rw [hc]
    exact Nat.zero_lt_succ _

omit hread in
theorem InFrame.read {base : List Obs} {s : Obex} (hs : InFrame base s) {bs : Bytes} {b : Buf}
    (hb : b.contents = s.rxMsg.contents ++ bs) :
    InFrame base ((s.emit (.read (some bs))).setRxMsg b) := by
  refine ⟨hs.socket, ?_⟩
  have hc : ((s.emit (.read (some bs))).setRxMsg b).rxMsg.contents = s.rxMsg.contents ++ bs := hb
  rw [hc]
  exact hs.log.append (hs.log.now.read (some bs))

omit hread in
theorem InFrame.failed {base : List Obs} {s : Obex} (hs : InFrame base s) {r : Option Bytes} (b : Buf)
    (e : Stop) : Logged base e ((s.setRxMsg b).emit (.read r)) :=
  ⟨_, hs.log.append (hs.log.now.read r)⟩

theorem wp_transportRead_socket {base : List Obs} {s : Obex} {max : Nat} {buf : Bytes} {buflen : Int}
    {Q : Int → Obex → Prop} (hs : InFrame base s)
    (h : ∀ (r : Int) bs s', 0 < r → 0 < bs.length → bs.length ≤ max → InFrame base s' →
      s'.rxMsg.contents = s.rxMsg.contents ++ bs → Q r s') :
    wp (obexTransportRead (E.ctx readGuard n) max buf buflen) Q (Logged base) s := by
  have hread' : wp (socketRead (E.ctx readGuard n) max) Q (Logged base) s := by
    refine wp_socketRead hread (fun bs b hne hle hb => ?_) fun r b _ => hs.failed b _
    have hpos : 0 < bs.length := List.length_pos_iff.2 hne
    exact h _ bs _ (by omega) hpos hle (hs.read hb) hb
  have hsock := hs.socket
  rw [obexTransportRead, wp_bind, wp_get]
  cases ht : s.trans.type with
  | custom => rw [ht] at hsock; cases hsock
  | usb => rw [ht] at hsock; cases hsock
  | irda => exact hread'
  | inet => exact hread'
  | bluetooth => exact hread'
  | fd => exact hread'

/-- The common header is there. -/
theorem wp_indicationRest_socket {base : List Obs} {s : Obex} {buf : Option Bytes} {buflen : Int}
    (hs : InFrame base s) (h3 : 3 ≤ s.rxMsg.dataSize)
    (hle : s.rxMsg.dataSize ≤ frameSize s.rxMsg.contents) :
    wp (indicationRest (E.ctx readGuard n) buf buflen) (fun _ => Waiting base) (Logged base) s := by
  have hlen : s.rxMsg.contents.length = s.rxMsg.dataSize := length_contents _
  have hstop : Logged base (.fault .outOfBounds) s := ⟨_, hs.log⟩
  obtain ⟨op, a, b, v, hc⟩ : ∃ op a b v, s.rxMsg.contents = op :: a :: b :: v := by
    match hc : s.rxMsg.contents with
    | [] | [_] | [_, _] => rw [hc] at hlen; simp at hlen; omega
    | op :: a :: b :: v => exact ⟨op, a, b, v, rfl⟩
  have ha : s.rxMsg.reach[1]? = some a := by rw [Buf.reach, hc]; rfl
  have hb : s.rxMsg.reach[2]? = some b := by rw [Buf.reach, hc]; rfl
  have hF : frameSize s.rxMsg.contents = max 3 (ofBe16 a b) := by rw [hc]; rfl
  -- what follows once the bytes are there
  have htail (s' : Obex) (hs' : InFrame base s') (h3 : 3 ≤ s'.rxMsg.dataSize)
      (hF : frameSize s'.rxMsg.contents = max 3 (ofBe16 a b))
      (hle : s'.rxMsg.dataSize ≤ max 3 (ofBe16 a b)) :
      wp (do
        let s' ← get
        if s'.rxMsg.dataSize < ofBe16 a b then pure (s'.rxMsg.dataSize : Int)
        else if s'.rxMsg.buffer.length ≠ s.rxMsg.buffer.length then fault .dangling
        else do
          let opcode ← byteAt s'.rxMsg 0
          dispatch (E.ctx readGuard n) (opcode &&& obexFinal ≠ 0))
        (fun _ => Waiting base) (Logged base) s' := by
    have hlen' : s'.rxMsg.contents.length = s'.rxMsg.dataSize := length_contents _
    rw [wp_bind, wp_get]
    refine wp_ite.2 ⟨fun hshort => ⟨hs', by rw [hF]; omega⟩, fun hwhole => ?_⟩
    refine wp_ite.2 ⟨fun _ => ⟨_, hs'.log⟩, fun _ => ?_⟩
    rw [wp_bind]
    refine wp_byteAt (fun op _ => ?_) ⟨_, hs'.log⟩
    exact wp_dispatch_socket hs' (by rw [hF, hlen']; omega) _
  rw [indicationRest, wp_bind, wp_get]
  refine wp_byteAt_some ha (wp_byteAt_some hb ?_)
  dsimp only
  by_cases hmore : s.rxMsg.dataSize < ofBe16 a b
  · rw [if_pos hmore, wp_bind, wp_bind]
    refine wp_transportRead_socket hread hs fun r bs s' hr hpos hmax hs' hc' => ?_
    have hlen' : s'.rxMsg.dataSize = s.rxMsg.dataSize + bs.length := by
      rw [← length_contents, hc', List.length_append, hlen]
    rw [wp_pure, if_neg (by omega)]
    refine htail s' hs' (by omega) ?_ (by omega)
    rw [hc', frameSize_append (by omega), hF]
  · rw [if_neg hmore, wp_bind, wp_pure]
    exact htail s hs h3 hF (by omega)

theorem wp_handleInput {base : List Obs} {s : Obex} (hs : Waiting base s) :
    wp (obexDataIndication (E.ctx readGuard n) none 0) (fun _ => Waiting base) (Logged base) s := by
  have hlen : s.rxMsg.contents.length = s.rxMsg.dataSize := length_contents _
  have hpart := hs.part
  rw [obexDataIndication, wp_bind, wp_get]
  refine wp_ite.2 ⟨fun hshort => ?_, fun h3 => ?_⟩
  · rw [wp_bind]
    refine wp_transportRead_socket hread hs.toInFrame fun r bs s' hr hpos hmax hs' hc' => ?_
    have hlen' : s'.rxMsg.dataSize = s.rxMsg.dataSize + bs.length := by
      rw [← length_contents, hc', List.length_append, hlen]
    refine wp_ite.2 ⟨fun h => absurd h.2.2 (by omega), fun _ => ?_⟩
    have hF := three_le_frameSize s'.rxMsg.contents
    rw [wp_bind, wp_get]
    refine wp_ite.2 ⟨fun h3 => ?_, fun h3 => ?_⟩
    · exact wp_indicationRest_socket hread hs' h3 (by omega)
    · exact ⟨hs', by omega⟩
  · exact wp_indicationRest_socket hread hs.toInFrame (by omega) (by omega)

/-- On a socket, in every run in which no read fails: at every moment the bytes received are those of
the packets dispatched, each complete, and a part of the next packet, which is what `rx_msg` holds
between the calls. -/
theorem socket_framing (k : Nat) {s : Obex} (hs : s.trans.type.socket = true)
    (hempty : s.rxMsg.dataSize = 0) :
    wp (run (E.ctx readGuard n) readGuard (List.replicate k .handleInput))
      (fun _ s' => Accounted s.log s'.rxMsg.contents s'.log ∧
        s'.rxMsg.dataSize < frameSize s'.rxMsg.contents)
      (fun _ s' => ∃ held, Accounted s.log held s'.log) s := by
  have hnil : s.rxMsg.contents = [] := contents_eq_nil hempty
  have hwait : Waiting s.log s := by
    refine ⟨⟨hs, ?_⟩, ?_⟩
    · rw [hnil]
      exact Accounted.refl s.log
    · rw [hnil, hempty]
      exact Nat.zero_lt_succ _
  have hstop : Stops (Waiting s.log) (Logged s.log) := fun e s' _ h => ⟨_, h.log⟩
  have hrun : wp (run (E.ctx readGuard n) readGuard (List.replicate k .handleInput))
      (fun _ => Waiting s.log) (Logged s.log) s := by
    refine wp_run hstop hwait fun op hop s' hs' _ => ?_
    rw [List.eq_of_mem_replicate hop, runOp, wp_bind, wp_get, wp_bind, wp_allowed]
    refine ⟨fun _ => ?_, fun _ => ⟨_, hs'.log⟩⟩
    refine wp_ite.2 ⟨fun _ => hs', fun _ => ?_⟩
    exact wp_seq (wp_handleInput hread hs') fun _ _ h => h
  exact wp_mono hrun (fun _ s' h => ⟨h.log, h.part⟩) fun _ s' h => h

end

/-- A peer that sends a packet byte by byte. -/
def slowPeer : Env := { quietPeer with
  read := fun log max => some ((([0x82, 0x00, 0x04, 0x97] : Bytes).drop (received log).length).take
    (min max 1)) }

theorem slowPeer_read (log : List Obs) (max : Nat) (bs : Bytes)
    (h : slowPeer.read log max = some bs) : bs.length ≤ max := by
  cases h
  rw [List.length_take]
  omega

/-- Three calls later the packet is dispatched. -/
theorem socket_framing_slow :
    endsWith (run (slowPeer.ctx readGuard 9) readGuard (List.replicate 3 .handleInput))
        (obexInit .inet) (fun s => decide (dispatched s.log = [[0x82, 0x00, 0x04, 0x97]])) = true ∧
      wp (run (slowPeer.ctx readGuard 9) readGuard (List.replicate 3 .handleInput))
        (fun _ s' => Accounted (obexInit .inet).log s'.rxMsg.contents s'.log ∧
          s'.rxMsg.dataSize < frameSize s'.rxMsg.contents)
        (fun _ s' => ∃ held, Accounted (obexInit .inet).log held s'.log) (obexInit .inet) :=
  ⟨by decide +kernel, socket_framing slowPeer_read 3 rfl rfl⟩

/-! ## A connection that breaks -/

/-- The common header of a packet of four bytes arrives, then the connection is closed. -/
def closingPeer : Env := { quietPeer with
  read := fun log max => if received log = [] then some (([0x02, 0x00, 0x04] : Bytes).take max)
    else some [] }

theorem closingPeer_read (log : List Obs) (max : Nat) (bs : Bytes)
    (h : closingPeer.read log max = some bs) : bs.length ≤ max := by
  simp only [closingPeer] at h
  split at h
  · cases h
    exact List.length_take_le _ _
  · cases h
    exact Nat.zero_le _

/-- The packet is dispatched with a byte that has not been received. -/
theorem unreceived_byte_dispatched :
    ¬ ∀ (E : Env) (n k : Nat) (s : Obex),
      (∀ log max bs, E.read log max = some bs → bs.length ≤ max) →
      s.trans.type.socket = true → s.rxMsg.dataSize = 0 →
      wp (run (E.ctx .all n) .all (List.replicate k .handleInput))
        (fun _ s' => Accounted s.log s'.rxMsg.contents s'.log ∧
          s'.rxMsg.dataSize < frameSize s'.rxMsg.contents)
        (fun _ s' => ∃ held, Accounted s.log held s'.log) s := by
  intro h
  have hrun := h closingPeer 9 1 (obexInit .inet) closingPeer_read rfl rfl
  have hend : endsWith (run (closingPeer.ctx .all 9) .all (List.replicate 1 .handleInput))
      (obexInit .inet) (fun s => decide (dispatched s.log = [[0x02, 0x00, 0x04, 0x00]] ∧
        received s.log = [0x02, 0x00, 0x04])) = true := by
    decide +kernel
  obtain ⟨-, s, hs, ⟨⟨ds, h1, h2, -⟩, -⟩, -⟩ := exists_of_endsWith hend hrun
  obtain ⟨hd, hr⟩ := of_decide_eq_true hs
  have hds : ds = [[0x02, 0x00, 0x04, 0x00]] := by
    rw [hd] at h1
    exact h1.symm
  have hlen := congrArg List.length h2
  rw [hr, hds] at hlen
  simp only [List.length_append, List.length_cons, List.length_nil, List.flatten_cons,
    List.flatten_nil, List.append_nil] at hlen
  omega

end OpenObex
