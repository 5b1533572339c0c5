import OpenObex.Proof.Send

/-!
# Writing packets, delivering events and the application's calls

The rules for what leaves the library: a packet handed to the transport (`wp_dataRequest`), an event
handed to the application (`wp_deliverEvent`, `wp_deliverLast`), and what the application does with
it when it makes no call that sends (`Call.passive`).
-/

namespace OpenObex

open Mem Prog

/-! ## Packets -/

/-- A packet: opcode, length and body. -/
def packet (opcode : UInt8) (body : Bytes) : Bytes := (opcode :: be16 (body.length + 3)) ++ body

/-- The transport's write function keeps `P`, and with `total` it never fails. -/
structure WriteFrame (C : Ctx) (P : Obex → Prop) (E : Stop → Obex → Prop) (total : Prop) : Prop where
  stop : Stops P E
  txMsg : ∀ s b, P s → P (s.setTxMsg b)
  write : ∀ chunk, Yields P E (fun r => total → 0 ≤ r) (C.write chunk)
  usb : total → ∀ s, P s → s.trans.type = .usb → s.trans.connected = true

namespace WriteFrame

variable {C : Ctx} {P : Obex → Prop} {E : Stop → Obex → Prop} {total : Prop}
  (F : WriteFrame C P E total)
include F

theorem doWriteLoop (mtu fuel : Nat) {actual : Int} {s : Obex} (hs : P s)
    (ha : total → 0 < s.txMsg.dataSize ∨ 0 ≤ actual) :
    wp (doWriteLoop C mtu fuel actual) (fun r s' => P s' ∧ (total → 0 ≤ r)) E s := by
  induction fuel generalizing actual s with
  | zero => exact F.stop _ _ (by simp) hs
  | succ fuel ih =>
    rw [OpenObex.doWriteLoop, wp_bind, wp_get]
    dsimp only
    split
    · exact ⟨hs, fun ht => (ha ht).resolve_left (by omega)⟩
    rw [wp_bind]
    refine wp_mono (F.write _ s hs) (fun r s' hr => ?_) fun _ _ he => he
    split
    · exact hr
    · rw [wp_bind, wp_modify]
      exact ih (F.txMsg s' _ hr.1) fun ht => .inr (hr.2 ht)

theorem transportWrite {s : Obex} (hs : P s) (h : 0 < s.txMsg.dataSize) :
    wp (obexTransportWrite C) (fun r s' => P s' ∧ (total → 0 ≤ r)) E s := by
  have hw (mtu fuel : Nat) : wp (OpenObex.doWriteLoop C mtu fuel (-1))
      (fun r s' => P s' ∧ (total → 0 ≤ r)) E s := F.doWriteLoop mtu fuel hs fun _ => .inl h
  rw [obexTransportWrite, wp_bind, wp_get]
  cases ht : s.trans.type with
  | usb =>
    dsimp only
    split
    · exact F.write _ s hs
    · exact ⟨hs, fun hT => absurd (F.usb hT s hs ht) ‹_›⟩
  | custom => exact F.write _ s hs
  | irda => exact hw _ _
  | inet => exact hw _ _
  | bluetooth => exact hw _ _
  | fd => exact hw _ _

end WriteFrame

/-- The packet is built from what is in `tx_msg` and handed to the transport. -/
theorem wp_packet {C : Ctx} {Q : Int → Obex → Prop} {E : Stop → Obex → Prop} {object : Option Ptr}
    {kind : PacketKind} {opcode : UInt8} {s : Obex} (hstop : ∀ e, e ≠ .fault .nullObject → E e s)
    (h : ∀ b, b.contents = packet opcode s.txMsg.contents →
      wp (obexTransportWrite C) Q E ((s.setTxMsg b).emit (.write object kind b.contents))) :
    wp (obexDataRequest C object kind opcode) Q E s := by
  rw [obexDataRequest, wp_bind, wp_get, wp_bind, wp_require]
  refine ⟨fun m hm => ?_, fun _ => hstop _ (by simp)⟩
  rw [wp_bind, wp_require]
  refine ⟨fun b hb => ?_, fun _ => hstop _ (by simp)⟩
  rw [wp_bind, wp_set, wp_bind, wp_emit]
  obtain ⟨h1, -⟩ := bufReserveBegin_some hm
  have hl : (opcode :: be16 m.dataSize).length = 3 := rfl
  refine h b ?_
  rw [contents_poke_begin (by rw [hl]; exact hm) hb, packet, length_contents, h1]

theorem wp_dataRequest {C : Ctx} {P' : Obex → Prop} {E : Stop → Obex → Prop} {total : Prop}
    {object : Option Ptr} {kind : PacketKind} {opcode : UInt8} {s : Obex}
    (F : WriteFrame C P' E total) (hstop : ∀ e, e ≠ .fault .nullObject → E e s)
    (hs : ∀ b, b.contents = packet opcode s.txMsg.contents →
      P' ((s.setTxMsg b).emit (.write object kind b.contents))) :
    wp (obexDataRequest C object kind opcode) (fun r s' => P' s' ∧ (total → 0 ≤ r)) E s := by
  refine wp_packet hstop fun b hb => F.transportWrite (hs b hb) ?_
  have hlen := congrArg List.length hb
  rw [length_contents, packet, List.length_append] at hlen
  change 0 < b.dataSize
  rw [hlen]
  exact Nat.add_pos_left (Nat.succ_pos _) _

/-! ## Events -/

/-- The notice `obex_deliver_event` hands to the callback. -/
def noticeOf (s : Obex) (event : Event) (cmd rsp : UInt8) : Notice :=
  { mode := s.mode, object := s.object, event, cmd, rsp
    data := if event = .streamavail then streamFragment s else none }

theorem wp_deliverEvent {C : Ctx} {event : Event} {cmd rsp : UInt8} {Q : Unit → Obex → Prop}
    {E : Stop → Obex → Prop} {s : Obex}
    (h : wp (C.eventcb (noticeOf s event cmd rsp)) Q E
      (s.emit (.event (noticeOf s event cmd rsp)))) :
    wp (obexDeliverEvent C event cmd rsp false) Q E s := by
  rw [obexDeliverEvent, wp_bind, wp_get, wp_bind, wp_set, wp_bind, wp_emit, wp_bind]
  refine wp_mono h (fun _ s' hs' => ?_) fun _ _ he => he
  rw [wp_when]
  exact ⟨by simp, fun _ => hs'⟩

/-- The last event of a request: the object is no longer the current one when it is delivered, and
is deleted after it. -/
theorem wp_deliverLast {C : Ctx} {event : Event} {cmd rsp : UInt8} {Q : Unit → Obex → Prop}
    {E : Stop → Obex → Prop} {s : Obex}
    (h : wp (C.eventcb (noticeOf s event cmd rsp))
      (fun _ s' => (∀ p, s.object = some p → Q () (s'.setObject p none) ∧ E (.fault .dangling) s') ∧
        (s.object = none → Q () s')) E
      (({ s with object := none } : Obex).emit (.event (noticeOf s event cmd rsp)))) :
    wp (obexDeliverEvent C event cmd rsp true) Q E s := by
  rw [obexDeliverEvent, wp_bind, wp_get, wp_bind, wp_set, wp_bind, wp_emit, wp_bind]
  refine wp_mono h (fun _ s' hs' => ?_) fun _ _ he => he
  obtain ⟨h1, h2⟩ := hs'
  rw [wp_when]
  refine ⟨fun _ => ?_, by simp⟩
  cases hp : s.object with
  | none =>
    rw [wp_bind]
    exact h2 hp
  | some p =>
    obtain ⟨hq, he⟩ := h1 p hp
    rw [wp_bind, obexObjectDelete, wp_bind, wp_deref]
    exact ⟨fun _ _ => hq, fun _ => he⟩

/-- A response without an object; whether it could be written does not matter. -/
theorem keeps_responseRequest {C : Ctx} {P : Obex → Prop} {E : Stop → Obex → Prop}
    (F : WriteFrame C P E False) {opcode : UInt8}
    (h : ∀ s b, P s → b.contents = packet (opcode ||| obexFinal) [] →
      P ((s.setTxMsg b).emit (.write none .response b.contents))) :
    Keeps P E (obexResponseRequest C opcode) := by
  intro s hs
  rw [obexResponseRequest, wp_bind, wp_modify, wp_bind]
  refine wp_mono (wp_dataRequest F (fun e he => F.stop e _ he (F.txMsg s _ hs)) fun b hb => ?_)
    (fun _ _ h => h.1) fun _ _ he => he
  exact h s b hs (by rwa [Obex.setTxMsg, contents_bufReuse] at hb)

/-! ## The connect header -/

/-- The current object. -/
def Obex.current (s : Obex) : Option ObexObject := s.object.bind s.objects

/-- The `mtu_tx` that `obex_parse_connect_header` leaves when it accepts `rx_msg`. -/
def announcedMtu (s : Obex) : Nat :=
  match s.rxMsg.contents with
  | op :: _ :: _ :: _ :: _ :: a :: b :: _ =>
    if op ≠ obexRspSuccess ||| obexFinal ∧ op ≠ obexCmdConnect ||| obexFinal then s.mtuTx
    else if ofBe16 a b < s.mtuTxMax then ofBe16 a b
    else s.mtuTxMax
  | _ => s.mtuTx

/-- A CONNECT is refused, or `mtu_tx` is the announced one. -/
theorem wp_parseConnectHeader {R : Stop → Obex → Prop} {Q : Int → Obex → Prop} {s : Obex}
    (hR : R (.fault .outOfBounds) s) (h1 : Q 1 { s with mtuTx := announcedMtu s })
    (h2 : Q (-1) s) : wp obexParseConnectHeader Q R s := by
  rw [obexParseConnectHeader, wp_bind, wp_get, wp_bind]
  refine wp_byteAt (fun op hop => ?_) hR
  have hlen := length_contents s.rxMsg
  split
  · have : announcedMtu s = s.mtuTx := by
      unfold announcedMtu
      split
      · rename_i hc
        rw [hc] at hop hlen
        simp only [List.length_cons] at hlen
        have hop := hop (by omega)
        simp only [List.getElem?_cons_zero, Option.some.injEq] at hop
        rw [if_pos (by rw [hop]; assumption)]
      · rfl
    rw [this] at h1
    exact h1
  split
  · rw [wp_bind]
    refine wp_byteAt (fun a ha => ?_) hR
    rw [wp_bind]
    refine wp_byteAt (fun b hb => ?_) hR
    rw [wp_bind, wp_set]
    have : announcedMtu s = if ofBe16 a b < s.mtuTxMax then ofBe16 a b else s.mtuTxMax := by
      have hop := hop (by omega)
      have ha := ha (by omega)
      have hb := hb (by omega)
      unfold announcedMtu
      split
      · rename_i hc
        simp only [hc, List.getElem?_cons_zero, List.getElem?_cons_succ, Option.some.injEq] at hop ha hb
        subst hop ha hb
        rw [if_neg ‹_›]
      · rename_i hc
        match hm : s.rxMsg.contents with
        | x0 :: x1 :: x2 :: x3 :: x4 :: x5 :: x6 :: xs => exact absurd hm (hc _ _ _ _ _ _ _ _)
        | [] | [_] | [_, _] | [_, _, _] | [_, _, _, _] | [_, _, _, _, _] | [_, _, _, _, _, _] =>
          rw [hm] at hlen
          simp only [List.length_cons, List.length_nil] at hlen
          omega
    rw [this] at h1
    exact h1
  · exact h2

/-! ## Calls that send nothing -/

section
variable {C : Ctx} {P : Obex → Prop} {E : Stop → Obex → Prop} (hE : Stops P E)
include hE

theorem keeps_reserveAndStore (b : Buf) (n : Nat) (d : Bytes) :
    Keeps P E (reserveAndStore C b n d) :=
  Keeps.bind (keeps_require hE (by simp) _) fun _ => keeps_require hE (by simp) _

theorem keeps_connectframe {p : Ptr} (h : ∀ s o d, P s → s.objects p = some o →
    P (s.setObject p (some { o with txNonhdrData := d }))) :
    Keeps P E (obexInsertConnectframe C p) := by
  unfold obexInsertConnectframe
  split
  · exact Keeps.bind (keeps_update hE fun s o hs ho => h s o _ hs ho) fun _ => Keeps.pure _
  refine Keeps.get_bind fun s _ => Keeps.bind (keeps_reserveAndStore hE _ _ _) fun b => ?_
  exact Keeps.bind (keeps_update hE fun s o hs ho => h s o _ hs ho) fun _ => Keeps.pure _

end

/-- The calls that neither send a packet nor deliver an event. -/
def Call.passive : Call → Bool
  | .request _ | .cancelRequest _ | .resumeRequest => false
  | _ => true

/-- What such calls leave alone in the handle. -/
structure Handle where
  object : Option Ptr
  mode : Mode
  state : State
  trans : Transport
  mtuTx : Nat
  log : List Obs

def Obex.handle (s : Obex) : Handle :=
  { object := s.object, mode := s.mode, state := s.state, trans := s.trans, mtuTx := s.mtuTx
    log := s.log }

/-- The call adds a header to the transmit queue of the object at `p`. -/
def Call.adds (c : Call) (p : Ptr) : Bool := match c with
  | .objectAddHeader q _ _ _ flags => decide (q = p) && !flags.streamData && !flags.streamDataend
  | _ => false

/-- The call sets the response codes of the object at `p`. -/
def Call.sets (c : Call) (p : Ptr) : Bool := match c with
  | .objectSetRsp q _ _ => decide (q = p)
  | _ => false

/-- The flags of an object that only the library changes. -/
def ObexObject.ownFlags (o : ObexObject) : Bool × Bool × Bool × Bool :=
  (o.abort, o.checked, o.continueReceived, o.firstPacketSent)

/-- The library's own flags stay. -/
def AppStep (o o' : ObexObject) : Prop := o'.ownFlags = o.ownFlags

/-- What such a call does to the object at `p`. -/
structure CallStep (c : Call) (p : Ptr) (o o' : ObexObject) : Prop where
  flags : AppStep o o'
  queue : c.adds p = false → o'.txHeaderq = o.txHeaderq
  codes : c.sets p = false → o'.lastopcode = o.lastopcode
  cmd : o'.cmd = o.cmd

/-- An invariant closed under what the call does, `OBEX_SetTransportMTU` apart. -/
structure AppBase (c : Call) (P : Obex → Prop) (E : Stop → Obex → Prop) : Prop where
  stop : Stops P E
  fresh : ∀ s, P s → P { s with fresh := s.fresh + 1 }
  object : ∀ s p o o', P s → s.objects p = some o → CallStep c p o o' → P (s.setObject p (some o'))
  new : ∀ s o, P s → AppStep zeroObject o → o.txHeaderq = [] →
    P (({ s with fresh := s.fresh + 1 } : Obex).setObject s.fresh (some o))
  delete : ∀ s p, P s → P (s.setObject p none)

theorem wp_objectNew {C : Ctx} {s : Obex} {Q : Option Ptr → Obex → Prop} {R : Stop → Obex → Prop}
    (hnone : Q none s)
    (hsome : Q (some s.fresh) (({ s with fresh := s.fresh + 1 } : Obex).setObject s.fresh
      (some (obexObjectSetrsp zeroObject obexRspNotImplemented obexRspNotImplemented)))) :
    wp (obexObjectNew C) Q R s := by
  unfold obexObjectNew
  split
  · exact hsome
  · exact hnone

namespace AppBase

variable {C : Ctx} {c : Call} {P : Obex → Prop} {E : Stop → Obex → Prop} (F : AppBase c P E)
include F

theorem update {p : Ptr} {f : ObexObject → ObexObject} (h : ∀ o, CallStep c p o (f o)) :
    Keeps P E (update p f) :=
  keeps_update F.stop fun s o hs ho => F.object s p o _ hs ho (h o)

theorem touch {p : Ptr} {f : ObexObject → ObexObject} (hf : ∀ o, AppStep o (f o) ∧ (f o).cmd = o.cmd)
    (hq : ∀ o, (f o).txHeaderq = o.txHeaderq) (hl : ∀ o, (f o).lastopcode = o.lastopcode) :
    Keeps P E (OpenObex.update p f) :=
      F.update fun o => ⟨(hf o).1, fun _ => hq o, fun _ => hl o, (hf o).2⟩

theorem alloc : Keeps P E alloc := keeps_alloc F.fresh

theorem objectDelete (object : Option Ptr) : Keeps P E (obexObjectDelete object) := by
  cases object with
  | none => exact Keeps.pure _
  | some p =>
    refine Keeps.bind (keeps_deref F.stop p) fun _ => Keeps.bind ?_ fun _ => Keeps.pure _
    exact Keeps.modify fun s hs => F.delete s p hs

theorem connectframe (p : Ptr) : Keeps P E (obexInsertConnectframe C p) :=
  keeps_connectframe F.stop fun s o _ hs ho =>
    F.object s p o _ hs ho ⟨rfl, fun _ => rfl, fun _ => rfl, rfl⟩

theorem insertHvHeader (b : Buf) (hi : UInt8) (text : Option Bytes) (size : Int)
    {failed : M (Buf × Int)} (hf : Keeps P E failed) :
    Keeps P E (insertHvHeader C b hi text size failed) := by
  refine Keeps.ite (fun _ => Keeps.pure _) fun _ => ?_
  split
  · exact hf
  refine Keeps.bind (keeps_copyFrom F.stop _ _ _) fun _ => ?_
  exact Keeps.bind (keeps_require F.stop (by simp) _) fun _ => Keeps.pure _

theorem encodeHeader (hi : UInt8) (hv : HeaderData) (n : Nat) :
    Keeps P E (encodeHeader C hi hv n) := by
  unfold OpenObex.encodeHeader
  cases hiType hi with
  | int =>
    dsimp only
    split
    · exact Keeps.pure _
    refine Keeps.bind (Keeps.bind (keeps_reserveAndStore F.stop _ _ _) fun _ => Keeps.pure _)
      fun _ => ?_
    exact Keeps.pure _
  | byte =>
    dsimp only
    split
    · exact Keeps.pure _
    refine Keeps.bind (Keeps.bind (keeps_reserveAndStore F.stop _ _ _) fun _ => Keeps.pure _)
      fun _ => ?_
    exact Keeps.pure _
  | byteStream =>
    dsimp only
    split
    · exact Keeps.pure _
    exact Keeps.bind (F.insertHvHeader _ _ _ _ (Keeps.pure _)) fun _ => Keeps.pure _
  | unicode =>
    dsimp only
    split
    · exact Keeps.pure _
    exact Keeps.bind (F.insertHvHeader _ _ _ _ (keeps_fault F.stop (by simp))) fun _ => Keeps.pure _

theorem addheader {p : Ptr} {hi : UInt8} {hv : HeaderData} {m : UInt32} {fl : Flags}
    (hc : c = .objectAddHeader p hi hv m fl) (n : Nat) :
    Keeps P E (obexObjectAddheader C p hi hv n fl) := by
  refine Keeps.get_bind fun s _ => Keeps.ite (fun _ => ?_) fun he => Keeps.ite (fun _ => ?_)
    fun hd => ?_
  · split
    · exact Keeps.pure _
    · exact Keeps.bind (F.touch (fun _ => ⟨rfl, rfl⟩) (fun _ => rfl) fun _ => rfl) fun _ => Keeps.pure _
  · split
    · exact Keeps.pure _
    · exact Keeps.bind (F.touch (fun _ => ⟨rfl, rfl⟩) (fun _ => rfl) fun _ => rfl) fun _ => Keeps.pure _
  have hadds : c.adds p = true := by simp [hc, Call.adds, he, hd]
  have hupdate {f : ObexObject → ObexObject} (hf : ∀ o, AppStep o (f o) ∧ (f o).cmd = o.cmd)
      (hl : ∀ o, (f o).lastopcode = o.lastopcode) : Keeps P E (OpenObex.update p f) :=
    F.update fun o => ⟨(hf o).1, fun h => by simp [hadds] at h, fun _ => hl o, (hf o).2⟩
  refine Keeps.bind (keeps_deref F.stop p) fun o => Keeps.ite (fun _ => ?_) fun _ => Keeps.pure _
  refine Keeps.bind F.alloc fun a => Keeps.ite (fun _ => ?_) fun _ => Keeps.ite (fun _ => ?_)
    fun _ => ?_
  · exact Keeps.bind (hupdate (fun _ => ⟨rfl, rfl⟩) fun _ => rfl) fun _ => Keeps.pure _
  · exact Keeps.bind (hupdate (fun _ => ⟨rfl, rfl⟩) fun _ => rfl) fun _ => Keeps.pure _
  refine Keeps.bind (F.encodeHeader hi hv n) fun r => Keeps.ite (fun _ => ?_) fun _ =>
    Keeps.ite (fun _ => Keeps.pure _) fun _ => Keeps.pure _
  exact Keeps.bind (hupdate (fun _ => ⟨rfl, rfl⟩) fun _ => rfl) fun _ => Keeps.pure _

theorem headerValue (h : HeaderElement) : Keeps P E (headerValue h) := by
  refine Keeps.bind (keeps_require F.stop (by simp) _) fun b => ?_
  have hbyte (n : Nat) := keeps_byteAt F.stop b n
  cases hiType h.hi with
  | byteStream => exact Keeps.bind (keeps_peek F.stop _ _ _) fun _ => Keeps.pure _
  | unicode => exact Keeps.bind (keeps_peek F.stop _ _ _) fun _ => Keeps.pure _
  | int =>
    exact Keeps.bind (hbyte 0) fun _ => Keeps.bind (hbyte 1) fun _ => Keeps.bind (hbyte 2) fun _ =>
      Keeps.bind (hbyte 3) fun _ => Keeps.pure _
  | byte => exact Keeps.bind (hbyte 0) fun _ => Keeps.pure _

theorem getnextheader (p : Ptr) : Keeps P E (obexObjectGetnextheader p) := by
  refine Keeps.bind (keeps_deref F.stop p) fun o => ?_
  split
  · exact Keeps.pure _
  refine Keeps.bind (F.touch (fun _ => ⟨rfl, rfl⟩) (fun _ => rfl) fun _ => rfl) fun _ => ?_
  exact Keeps.bind (F.headerValue _) fun _ => Keeps.pure _

theorem newRequest (cmd : UInt8) : Keeps P E (obexObjectNewRequest C cmd) := by
  intro s hs
  rw [obexObjectNewRequest, wp_bind]
  refine wp_objectNew hs ?_
  rw [wp_bind, wp_update]
  refine ⟨fun o ho => ?_, fun _ => F.stop _ _ (by simp) (F.new s _ hs rfl rfl)⟩
  rw [objects_setObject, Option.some.injEq] at ho
  subst ho
  rw [setObject_setObject]
  have hnew := F.new s (obexObjectSetcmd (obexObjectSetrsp zeroObject obexRspNotImplemented
    obexRspNotImplemented) cmd (cmd ||| obexFinal)) hs rfl rfl
  refine wp_ite.2 ⟨fun _ => ?_, fun _ => hnew⟩
  refine wp_seq (F.connectframe s.fresh _ hnew) fun ret s₁ hs₁ => ?_
  refine wp_ite.2 ⟨fun _ => ?_, fun _ => hs₁⟩
  exact wp_seq (F.objectDelete _ s₁ hs₁) fun _ _ hs => hs

theorem setNonHdrData (p : Ptr) (d : Bytes) : Keeps P E (obexObjectSetNonHdrData C p d) := by
  refine Keeps.bind (keeps_deref F.stop p) fun o => Keeps.ite (fun _ => Keeps.pure _) fun _ => ?_
  split
  · exact Keeps.pure _
  refine Keeps.bind (keeps_require F.stop (by simp) _) fun b => ?_
  exact Keeps.bind (F.touch (fun _ => ⟨rfl, rfl⟩) (fun _ => rfl) fun _ => rfl) fun _ => Keeps.pure _

theorem suspendRequest (object : Option Ptr) : Keeps P E (obexSuspendRequest object) := by
  refine Keeps.get_bind fun s _ => ?_
  split
  · exact Keeps.pure _
  · exact Keeps.bind (F.touch (fun _ => ⟨rfl, rfl⟩) (fun _ => rfl) fun _ => rfl) fun _ => Keeps.pure _
  · exact Keeps.bind (F.touch (fun _ => ⟨rfl, rfl⟩) (fun _ => rfl) fun _ => rfl) fun _ => Keeps.pure _

theorem passive (hc : c.passive = true)
    (hmtu : ∀ rx tx, c = .setTransportMtu rx tx → Keeps P E (api C c)) : Keeps P E (api C c) := by
  cases c with
  | request p => cases hc
  | cancelRequest nice => cases hc
  | resumeRequest => cases hc
  | objectNew cmd => exact Keeps.bind (F.newRequest cmd) fun _ => Keeps.pure _
  | objectDelete p => exact F.objectDelete (some p)
  | objectAddHeader p hi hv n fl => exact F.addheader rfl _
  | objectGetNextHeader p => exact Keeps.bind (F.getnextheader p) fun _ => Keeps.pure _
  | objectReParseHeaders p =>
    refine Keeps.bind (keeps_deref F.stop p) fun o => Keeps.ite (fun _ => Keeps.pure _) fun _ => ?_
    exact Keeps.bind (F.touch (fun _ => ⟨rfl, rfl⟩) (fun _ => rfl) fun _ => rfl) fun _ => Keeps.pure _
  | objectReadStream p b =>
    refine Keeps.bind (keeps_deref F.stop p) fun o => Keeps.ite (fun _ => Keeps.pure _) fun _ => ?_
    exact Keeps.bind (F.touch (fun _ => ⟨rfl, rfl⟩) (fun _ => rfl) fun _ => rfl) fun _ => Keeps.pure _
  | objectSetRsp p r l =>
    have hsets : (Call.objectSetRsp p r l).sets p = true := by simp [Call.sets]
    refine Keeps.bind (F.update fun o => ⟨rfl, fun _ => rfl, fun h => ?_, rfl⟩) fun _ => Keeps.pure _
    simp [hsets] at h
  | objectSetNonHdrData p d => exact F.setNonHdrData p d
  | objectSetHdrOffset p n =>
    exact Keeps.bind (F.touch (fun _ => ⟨rfl, rfl⟩) (fun _ => rfl) fun _ => rfl) fun _ => Keeps.pure _
  | setTransportMtu rx tx => exact hmtu rx tx rfl
  | suspendRequest p => exact F.suspendRequest p

end AppBase

/-- An invariant that `OBEX_SetTransportMTU` keeps too. -/
structure AppFrame (P : Obex → Prop) (E : Stop → Obex → Prop) : Prop where
  stop : Stops P E
  fresh : ∀ s, P s → P { s with fresh := s.fresh + 1 }
  object : ∀ s p o o', P s → s.objects p = some o → AppStep o o' → P (s.setObject p (some o'))
  new : ∀ s p, P s →
    P (s.setObject p (some (obexObjectSetrsp zeroObject obexRspNotImplemented obexRspNotImplemented)))
  delete : ∀ s p, P s → P (s.setObject p none)
  mtu : ∀ s rx tx b c, obexMinimumMtu ≤ rx → obexMinimumMtu ≤ tx → P s →
    P { s with mtuRx := rx, mtuTxMax := tx, rxMsg := b, txMsg := c }

namespace AppFrame

variable {C : Ctx} {P : Obex → Prop} {E : Stop → Obex → Prop} (F : AppFrame P E)
include F

theorem toBase (c : Call) : AppBase c P E where
  stop := F.stop
  fresh := F.fresh
  object s p o o' hs ho h := F.object s p o o' hs ho h.flags
  new s o hs ho _ := by
    have hnew := F.object _ s.fresh _ o (F.new _ s.fresh (F.fresh s hs)) (objects_setObject _ _ _) ho
    rwa [setObject_setObject] at hnew
  delete := F.delete

theorem setTransportMtu (rx tx : Nat) : Keeps P E (obexSetTransportMtu C rx tx) := by
  refine Keeps.get_bind fun s hs => Keeps.ite (fun _ => Keeps.pure _) fun _ => ?_
  refine Keeps.ite (fun _ => Keeps.pure _) fun hr => Keeps.ite (fun _ => Keeps.pure _) fun ht => ?_
  exact Keeps.bind (Keeps.set (F.mtu s _ _ _ _ (by omega) (by omega) hs)) fun _ => Keeps.pure _

theorem passive {c : Call} (hc : c.passive = true) : Keeps P E (api C c) :=
  (F.toBase c).passive hc fun _ _ h => h ▸ F.setTransportMtu _ _

end AppFrame

/-! ## Sending the ABORT -/

/-- An object with nothing to send: the packet is the bare command. -/
theorem wp_send_empty {C : Ctx} {R : Stop → Obex → Prop} {q : Ptr} {o : ObexObject} {s : Obex}
    {Q : Int → Obex → Prop} {forcefinalbit : Bool}
    (hR : ∀ e, e ≠ .fault .nullObject → R e (s.setTxMsg (bufReuse s.txMsg)))
    (ho : s.objects q = some o) (hq : o.txHeaderq = []) (hn : o.txNonhdrData = none)
    (hsus : o.suspend = false)
    (h : wp (obexDataRequest C (some q) .last (o.lastopcode ||| obexFinal))
      (fun r s' => Q (if r < 0 then r else 1) s') R (s.setTxMsg (bufReuse s.txMsg))) :
    wp (obexObjectSend C q true forcefinalbit) Q R s := by
  have deref {α : Type} {f : ObexObject → M α} {Q : α → Obex → Prop} {s' : Obex}
      (hs' : s'.objects q = some o) (hf : wp (f o) Q R s') : wp (deref q >>= f) Q R s' := by
    rw [wp_bind, wp_deref, hs']
    exact ⟨by rintro _ ⟨⟩; exact hf, by simp⟩
  refine deref ho ?_
  rw [hsus, if_neg (by simp), wp_bind, wp_get, wp_bind, wp_set, wp_bind]
  refine deref ho ?_
  rw [hn, wp_pure, wp_bind]
  cases hfuel : C.fuel with
  | zero => exact hR .timeout (by simp)
  | succ fuel =>
    refine deref ho ?_
    rw [hq, wp_pure, if_pos rfl]
    refine deref ho ?_
    have hop : chooseOpcode o true forcefinalbit = (.last, o.lastopcode ||| obexFinal) := by
      simp [chooseOpcode, hq]
    rw [hop]
    refine wp_seq h fun r s' hr => ?_
    split at hr
    · rwa [if_pos ‹_›]
    · rwa [if_neg ‹_›]

/-- The packet `OBEX_CancelRequest` sends. -/
def abortPacket : Bytes := packet (obexCmdAbort ||| obexFinal) []

/-- An invariant closed under what a cancellation with an ABORT does. -/
structure CancelFrame (C : Ctx) (P : Obex → Prop) (E : Stop → Obex → Prop) : Prop where
  write : WriteFrame C P E False
  current : ∀ s, P s → s.object ≠ none
  fresh : ∀ s, P s → P { s with fresh := s.fresh + 1 }
  object : ∀ s q o, P s → P (s.setObject q o)
  abort : ∀ s q, P s → P (s.emit (.write (some q) .last abortPacket))
  state : ∀ s, P s → P (s.setState .cli .recv)

namespace CancelFrame

variable {C : Ctx} {P : Obex → Prop} {E : Stop → Obex → Prop} (F : CancelFrame C P E)
include F

theorem objectDelete (q : Ptr) : Keeps P E (obexObjectDelete (some q)) := by
  refine Keeps.bind (keeps_deref F.write.stop q) fun _ => Keeps.bind ?_ fun _ => Keeps.pure _
  exact Keeps.modify fun s hs => F.object s q none hs

theorem send {q : Ptr} {o : ObexObject} {s : Obex} (hs : P s) (ho : s.objects q = some o)
    (hq : o.txHeaderq = []) (hn : o.txNonhdrData = none) (hsus : o.suspend = false)
    (hop : o.lastopcode = obexCmdAbort) :
    wp (obexObjectSend C q true true) (fun _ => P) E s := by
  have htx {s : Obex} (hs : P s) (b : Buf) : P (s.setTxMsg b) := F.write.txMsg s b hs
  refine wp_send_empty (fun e he => F.write.stop e _ he (htx hs _)) ho hq hn hsus ?_
  refine wp_conseq (wp_dataRequest F.write (fun e he => F.write.stop e _ he (htx hs _)) fun b hb => ?_)
    fun _ _ h => h.1
  have hc : b.contents = abortPacket := by
    rw [hb, hop, Obex.setTxMsg, contents_bufReuse]
    rfl
  rw [hc]
  exact F.abort _ q (htx (htx hs _) b)

/-- `OBEX_CancelRequest` with an ABORT. -/
theorem cancel {s : Obex} (hs : P s) :
    wp (obexCancelrequest C true) (fun _ => P) E s := by
  rw [obexCancelrequest, wp_bind, wp_get, if_neg (by simpa using F.current s hs), if_neg (by simp),
    wp_bind]
  refine wp_objectNew hs ?_
  rw [wp_bind, wp_update]
  have hnew := F.object _ s.fresh (some (obexObjectSetrsp zeroObject obexRspNotImplemented
    obexRspNotImplemented)) (F.fresh s hs)
  refine ⟨fun o ho => ?_, fun _ => F.write.stop _ _ (by simp) hnew⟩
  simp only [Obex.setObject, if_true, Option.some.injEq] at ho
  subst ho
  refine wp_seq (F.send (F.object _ s.fresh _ hnew) (if_pos rfl) rfl rfl rfl rfl) fun ret s hs => ?_
  split
  · exact wp_seq (F.objectDelete _ s hs) fun _ _ hs => hs
  refine wp_seq (F.objectDelete _ s hs) fun _ s hs => ?_
  refine wp_seq (keeps_updateCurrent F.write.stop F.current (fun s p _ hs _ => F.object s p _ hs) s hs)
    fun _ s hs => ?_
  rw [wp_bind, setState, wp_modify]
  exact F.state s hs

end CancelFrame

end OpenObex
