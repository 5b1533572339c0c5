import OpenObex.Model.Main

/-!
# Objects (`obex_object.c`)

Building the transmit queue, sending one packet from it, parsing a received packet into the receive
queue, and suspending and resuming a transfer. `object` is a pointer; its fields are read again after
every event, since the callback may have changed or deleted the object.
-/

namespace OpenObex

open Mem

/-! ## Building the transmit queue -/

/-- The space for one more header, as an unsigned number. -/
def maxlen (s : Obex) (o : ObexObject) (flags : Flags) : Nat :=
  if flags.fitOnePacket then u32 (s.mtuTx - o.totallen - 3) else u32 (s.mtuTx - 3)

def obexObjectGetspace (s : Obex) (o : ObexObject) (flags : Flags) : Int :=
  if flags.fitOnePacket then i32 (s.mtuTx - o.totallen - 3) else i32 (s.mtuTx - 3)

/-- The encoded header and its length, by the type of the identifier; `none` for the buffer is a
failed allocation. -/
def encodeHeader (C : Ctx) (hi : UInt8) (hv : HeaderData) (hvSize : Nat) :
    M (Option Buf × Nat × Int) :=
  match hiType hi with
  | .int =>
    match bufNew C.malloc 5 with
    | none => pure (none, 0, -1)
    | some b => do
      let (b, ret) ← insertUintHeader C b hi hv.bq4
      pure (some b, 5, ret)
  | .byte =>
    match bufNew C.malloc 2 with
    | none => pure (none, 0, -1)
    | some b => do
      let (b, ret) ← insertUbyteHeader C b hi hv.bq1
      pure (some b, 2, ret)
  | .byteStream =>
    match bufNew C.malloc (hvSize + 3) with
    | none => pure (none, 0, -1)
    | some b => do
      let (b, ret) ← insertByteStreamHeader C b hi hv.bs (i32 hvSize)
      pure (some b, u32 (hvSize + 3), ret)
  | .unicode =>
    match bufNew C.malloc (hvSize + 3) with
    | none => pure (none, 0, -1)
    | some b => do
      let (b, ret) ← insertUnicodeHeader C b hi hv.bs (i32 hvSize)
      pure (some b, u32 (hvSize + 3), ret)

def obexObjectAddheader (C : Ctx) (object : Ptr) (hi : UInt8) (hv : HeaderData) (hvSize : Nat)
    (flags : Flags) : M Int := do
  let s ← get
  if flags.streamDataend then
    match s.object with
    | none => pure (-1)
    | some p => do
      update p fun o => { o with sStop := true, sBuf := hv.bs, sLen := hvSize }
      pure 1
  else if flags.streamData then
    match s.object with
    | none => pure (-1)
    | some p => do
      update p fun o => { o with sBuf := hv.bs, sLen := hvSize }
      pure 1
  else do
    let o ← deref object
    let maxlen := maxlen s o flags
    if C.malloc sizeofHeaderElement then do
      let addr ← alloc
      let element : HeaderElement :=
        { addr, buf := none, hi, flags, length := 0, bodyTouched := false, stream := false }
      if flags.streamStart then do
        update object fun o =>
          { o with txHeaderq := slistAppend o.txHeaderq { element with stream := true } }
        pure 1
      else if hi = obexHdrEmpty then do
        update object fun o => { o with txHeaderq := slistAppend o.txHeaderq element }
        pure 1
      else do
        let (buf, length, ret) ← encodeHeader C hi hv hvSize
        let tooBig := (hi ≠ obexHdrBody ∨ flags.fitOnePacket) ∧ maxlen < length
        if 0 < ret ∧ ¬ tooBig then do
          update object fun o => { o with
            totallen := i32 (o.totallen + ret)
            txHeaderq := slistAppend o.txHeaderq { element with buf, length } }
          pure 1
        else if tooBig then pure (-1)
        else pure ret
    else pure (-1)

/-! ## Sending -/

/-- How `send_stream` leaves a round of its loop. -/
inductive StreamRound
  | data
  | stop
  | failed
  deriving DecidableEq, Repr

/-- The question for more data at the top of the loop of `send_stream`. -/
def askForData (C : Ctx) (object : Ptr) : M StreamRound := do
  let o ← deref object
  if o.sLen = 0 then do
    update object fun o => { o with sOffset := 0, sBuf := none }
    obexDeliverEvent C .streamempty 0 0 false
    let o ← deref object
    if o.sStop then pure .stop
    else if o.suspend ∧ o.sBuf = none then pure .stop
    else if o.sBuf = none then pure .failed
    else pure .data
  else pure .data

/-- The loop of `send_stream`: `some actual` falls out of the loop, `none` returns the error. -/
def sendStreamLoop (C : Ctx) (object : Ptr) : Nat → Nat → Nat → M (Option Nat)
  | 0, _, _ => throw .timeout
  | fuel + 1, txLeft, actual => do
    match ← askForData C object with
    | .failed => pure none
    | .stop => pure (some actual)
    | .data => do
      let o ← deref object
      if txLeft < o.sLen then do
        let bs ← copyFrom o.sBuf o.sOffset txLeft
        txInsertEnd C bs
        update object fun o => { o with sLen := o.sLen - txLeft, sOffset := o.sOffset + txLeft }
        pure (some (actual + txLeft))
      else do
        let bs ← copyFrom o.sBuf o.sOffset o.sLen
        txInsertEnd C bs
        update object fun o => { o with sLen := 0, sOffset := o.sOffset + o.sLen }
        let txLeft := if o.suspend then 0 else txLeft - o.sLen
        if 0 < txLeft then sendStreamLoop C object fuel txLeft (actual + o.sLen)
        else pure (some (actual + o.sLen))

/-- `none` is the return value -1. The header is stored through the pointer taken before the loop,
which is dangling if the buffer has been reallocated in between. -/
def sendStream (C : Ctx) (h : HeaderElement) (txLeft : Nat) : M (Option Nat) := do
  let object ← selfObject
  let s ← get
  let (msg, bodyTxh) ← require .nullDeref (bufReserveEnd C.malloc s.txMsg 3)
  set (s.setTxMsg msg)
  match ← sendStreamLoop C object C.fuel (u32 (txLeft - 3)) 3 with
  | none => pure none
  | some actual => do
    let o ← deref object
    let done := o.sStop ∧ o.sLen = 0
    if done ∧ addr h ∉ o.txHeaderq.map addr then fault .dangling
    else do
      when done (update object fun o => { o with txHeaderq := slistRemove o.txHeaderq h })
      let s ← get
      if s.txMsg.buffer.length ≠ msg.buffer.length then fault .dangling
      else do
        let hi := if done then obexHdrBodyEnd else obexHdrBody
        let msg ← require .outOfBounds (bufPoke s.txMsg bodyTxh (hi :: be16 (u16 actual)))
        set (s.setTxMsg msg)
        pure (some actual)

/-- The number returned is what `obex_object_send` subtracts from the space left. -/
def sendBody (C : Ctx) (object : Ptr) (h : HeaderElement) (txLeft : Nat) : M Nat := do
  let s ← get
  let (msg, bodyTxh) ← require .nullDeref (bufReserveEnd C.malloc s.txMsg 3)
  let hbuf ← require .nullDeref h.buf
  let hbuf := if h.bodyTouched then hbuf else bufRemoveBegin hbuf 3
  if txLeft < hbuf.dataSize + 3 then do
    let n := sizeT (txLeft - 3)
    let data ← peek hbuf 0 n
    let msg ← require .outOfBounds (bufPoke msg bodyTxh (obexHdrBody :: be16 (u16 txLeft)))
    set (s.setTxMsg msg)
    txInsertEnd C data
    let h' := { h with buf := some (bufRemoveBegin hbuf n), bodyTouched := true }
    update object fun o =>
      { o with txHeaderq := o.txHeaderq.map fun e => if addr e = addr h then h' else e }
    pure txLeft
  else do
    let msg ← require .outOfBounds
      (bufPoke msg bodyTxh (obexHdrBodyEnd :: be16 (u16 (hbuf.dataSize + 3))))
    set (s.setTxMsg msg)
    txInsertEnd C hbuf.contents
    update object fun o => { o with txHeaderq := slistRemove o.txHeaderq h }
    pure hbuf.dataSize

/-- `if (h->flags & OBEX_FL_SUSPEND) object->suspend = 1` -/
def suspendAfter (object : Ptr) (h : HeaderElement) : M Unit :=
  when h.flags.suspend (update object fun o => { o with suspend := true })

/-- One header of the queue: the space left behind it and whether more may be added, or `none` if
`obex_object_send` returns -1. -/
def sendHeader (C : Ctx) (object : Ptr) (h : HeaderElement) (txLeft : Nat) :
    M (Option (Nat × Bool)) := do
  let s ← get
  if h.stream then do
    suspendAfter object h
    match ← sendStream C h txLeft with
    | none => pure none
    | some actual => pure (some (u16 (txLeft - actual), true))
  else if h.hi = obexHdrBody then do
    suspendAfter object h
    let actual ← sendBody C object h txLeft
    pure (some (u16 (txLeft - actual), true))
  else if h.hi = obexHdrEmpty then do
    suspendAfter object h
    update object fun o => { o with txHeaderq := slistRemove o.txHeaderq h }
    pure (some (txLeft, true))
  else if h.length ≤ txLeft then do
    let hbuf ← require .nullDeref h.buf
    let data ← peek hbuf 0 h.length
    txInsertEnd C data
    suspendAfter object h
    update object fun o => { o with txHeaderq := slistRemove o.txHeaderq h }
    pure (some (txLeft - h.length, true))
  else if s.mtuTx < h.length then pure none
  else pure (some (txLeft, false))

/-- The loop over the queue; `false` is the error exit. -/
def sendHeaders (C : Ctx) (object : Ptr) : Nat → Nat → M Bool
  | 0, _ => throw .timeout
  | fuel + 1, txLeft => do
    let o ← deref object
    match o.txHeaderq with
    | [] => pure true
    | h :: _ => do
      match ← sendHeader C object h txLeft with
      | none => pure false
      | some (txLeft, addmore) => do
        let o ← deref object
        if addmore ∧ ¬ o.suspend ∧ txLeft ≠ 0 then sendHeaders C object fuel txLeft
        else pure true

/-- The space for headers in a packet; on IrDA the packet ends with a link frame. -/
def initialTxLeft (s : Obex) : Nat :=
  match s.trans.type with
  | .irda =>
    if 0 < s.trans.mtu ∧ s.trans.mtu < s.mtuTx then u16 (s.mtuTx - 3 - s.mtuTx % s.trans.mtu)
    else u16 (s.mtuTx - 3)
  | _ => u16 (s.mtuTx - 3)

/-- The opcode of the packet: the code's three branches. -/
def chooseOpcode (o : ObexObject) (allowfinalcmd forcefinalbit : Bool) : PacketKind × UInt8 :=
  if o.txHeaderq ≠ [] then
    (.more, if forcefinalbit then o.opcode ||| obexFinal else o.opcode)
  else if ¬ allowfinalcmd then (.pending, o.opcode ||| obexFinal)
  else (.last, o.lastopcode ||| obexFinal)

/-- The data in front of the headers, sent once. -/
def sendNonhdr (C : Ctx) (object : Ptr) : M Unit := do
  let o ← deref object
  match o.txNonhdrData with
  | none => pure ()
  | some d => do
    txInsertEnd C d.contents
    update object fun o => { o with txNonhdrData := none }

/-- Returns 1 when the object is done, 0 on progress and a negative number on error. -/
def obexObjectSend (C : Ctx) (object : Ptr) (allowfinalcmd forcefinalbit : Bool) : M Int := do
  let o ← deref object
  if o.suspend then pure 0
  else do
    let s ← get
    let txLeft := initialTxLeft s
    set (s.setTxMsg (bufReuse s.txMsg))
    sendNonhdr C object
    if ← sendHeaders C object C.fuel txLeft then do
      let o ← deref object
      let (kind, realOpcode) := chooseOpcode o allowfinalcmd forcefinalbit
      let actual ← obexDataRequest C (some object) kind realOpcode
      if actual < 0 then pure actual
      else pure (if kind = .last then 1 else 0)
    else pure (-1)

/-! ## Reading the received headers -/

inductive HeaderValue
  | bs (data : Bytes)
  | bq4 (value : Nat)
  | bq1 (value : UInt8)
  deriving DecidableEq, Repr

/-- What `OBEX_ObjectGetNextHeader` hands out for a queued element. -/
def headerValue (h : HeaderElement) : M (UInt8 × HeaderValue × Nat) := do
  let buf ← require .nullDeref h.buf
  match hiType h.hi with
  | .byteStream | .unicode => do
    pure (h.hi, .bs (← peek buf 0 h.length), h.length)
  | .int => do
    pure (h.hi, .bq4 (ofBe32 (← byteAt buf 0) (← byteAt buf 1) (← byteAt buf 2) (← byteAt buf 3)),
      h.length)
  | .byte => do
    pure (h.hi, .bq1 (← byteAt buf 0), h.length)

/-- `none` when there are no more headers. -/
def obexObjectGetnextheader (object : Ptr) : M (Option (UInt8 × HeaderValue × Nat)) := do
  let o ← deref object
  match o.rxHeaderq with
  | [] => pure none
  | h :: _ => do
    update object fun o => { o with
      rxHeaderq := slistRemove o.rxHeaderq h
      rxHeaderqRm := slistAppend o.rxHeaderqRm h }
    pure (some (← headerValue h))

def obexObjectReparseheaders (object : Ptr) : M Int := do
  let o ← deref object
  if o.rxHeaderq ≠ [] then pure 0
  else do
    update object fun o => { o with rxHeaderq := o.rxHeaderqRm, rxHeaderqRm := [] }
    pure 1

/-! ## Receiving -/

/-- The body header starts at `data`, its value at `data + 3`. -/
def obexObjectReceiveStream (C : Ctx) (hi : UInt8) (len : Nat) : M Unit := do
  let object ← selfObject
  if hi = obexHdrBody ∧ len = 0 then pure ()
  else do
    let s ← get
    let source := some (slice s.rxMsg.buffer (s.rxMsg.data + 3) len)
    update object fun o => { o with sBuf := source, sLen := len }
    let o ← deref object
    if o.abort then pure ()
    else do
      obexDeliverEvent C .streamavail 0 0 false
      when (hi = obexHdrBodyEnd ∧ len ≠ 0) do
        update object fun o => { o with sBuf := source, sLen := 0 }
        obexDeliverEvent C .streamavail 0 0 false

/-- Grow the body buffer if `len` more bytes do not fit; `none` if it cannot be grown. -/
def growRxBody (C : Ctx) (b : Buf) (len : Nat) : Option Buf :=
  if b.dataAvail + b.tailAvail < len then
    let t := i32 (bufTotalSize b)
    let size := u32 (t + obexObjectAllocationtreshold + len)
    let b := bufResize C.malloc b size
    if bufTotalSize b = size then some b else none
  else some b

/-- The size of the first body buffer: the hinted length if there is one. -/
def rxBodyAlloclen (o : ObexObject) (len : Nat) : Nat :=
  sizeT (if o.hintedBodyLen ≠ 0 then o.hintedBodyLen else i32 (obexObjectAllocationtreshold + len))

/-- The body buffer, a new one for the first fragment; `none` if there is no memory for it. -/
def rxBodyBuf (C : Ctx) (o : ObexObject) (len : Nat) : Option Buf :=
  match o.rxBody with
  | some b => some b
  | none => bufNew C.malloc (rxBodyAlloclen o len)

/-- The body behind its newest fragment: the last one moves it to the queue. -/
def storeRxBody (C : Ctx) (object : Ptr) (hi : UInt8) (b : Buf) : M Unit :=
  if hi = obexHdrBodyEnd then
    if C.malloc sizeofHeaderElement then do
      let addr ← alloc
      let element : HeaderElement :=
        { addr, buf := some b, hi := obexHdrBody, flags := {}, length := u32 b.dataSize
          bodyTouched := false, stream := false }
      update object fun o =>
        { o with rxHeaderq := slistAppend o.rxHeaderq element, rxBody := none }
    else update object fun o => { o with rxBody := none }
  else update object fun o => { o with rxBody := some b }

def obexObjectReceiveBody (C : Ctx) (object : Ptr) (hi : UInt8) (len : Nat) : M Int := do
  let s ← get
  if s.rxMsg.dataSize < len then pure (-1)
  else do
    let o ← deref object
    match rxBodyBuf C o len with
    | none => pure (-1)
    | some b => do
      update object fun o => { o with rxBody := some b }
      match growRxBody C b len with
      | none => pure (-1)
      | some b => do
        let data ← peek s.rxMsg 3 len
        let b ← require .assertion (bufInsertEnd C.malloc b data)
        storeRxBody C object hi b
        pure 1

/-- Queue the value of `len` bytes at `data + source`; `false` if memory runs out. -/
def queueElement (C : Ctx) (object : Ptr) (hi : UInt8) (source len : Nat) : M Bool := do
  let s ← get
  if C.malloc sizeofHeaderElement then do
    let addr ← alloc
    match bufNew C.malloc (if len = 0 then 1 else len) with
    | none => pure false
    | some b => do
      let data ← peek s.rxMsg source len
      let b ← (if len = 0 then pure b else require .assertion (bufInsertEnd C.malloc b data))
      let element : HeaderElement :=
        { addr, buf := some b, hi, flags := {}, length := len, bodyTouched := false
          stream := false }
      update object fun o => { o with rxHeaderq := slistAppend o.rxHeaderq element }
      pure true
  else pure false

/-- A LENGTH header announces the size of the body. -/
def hintBodyLen (object : Ptr) (msg : Buf) : M Unit := do
  let hv := ofBe32 (← byteAt msg 1) (← byteAt msg 2) (← byteAt msg 3) (← byteAt msg 4)
  update object fun o => { o with hintedBodyLen := i32 hv }

/-- The part of the loop of `obex_object_receive` that all header types share: `source` is the
offset of a value still to be queued. Returns the error flag. -/
def receiveValue (C : Ctx) (object : Ptr) (hi : UInt8) (hlen len : Nat) (source : Option Nat)
    (err : Bool) : M Bool := do
  let s ← get
  if s.rxMsg.dataSize < len then pure true
  else do
    let err ← (match source with
      | none => pure err
      | some source => do
        when (hi = obexHdrLength) (hintBodyLen object s.rxMsg)
        let queued ← queueElement C object hi source len
        pure (err || !queued))
    if err then pure true
    else do
      modify fun s => s.setRxMsg (bufRemoveBegin s.rxMsg hlen)
      pure false

/-- A body header goes to the stream or to the body buffer. Returns the error flag. -/
def receiveBodyHeader (C : Ctx) (object : Ptr) (hi : UInt8) (len : Nat) : M Bool := do
  let o ← deref object
  if o.sSrv then do
    obexObjectReceiveStream C hi len
    pure false
  else do
    let ret ← obexObjectReceiveBody C object hi len
    pure (decide (ret < 0))

/-- One round of the loop: the header at `data`. Returns the error flag. -/
def receiveHeader (C : Ctx) (object : Ptr) : M Bool := do
  let msg := (← get).rxMsg
  let hi ← byteAt msg 0
  match hiType hi with
  | .unicode => do
    let hlen := ofBe16 (← byteAt msg 1) (← byteAt msg 2)
    receiveValue C object hi hlen (u32 (hlen - 3)) (some 3) false
  | .byteStream => do
    let hlen := ofBe16 (← byteAt msg 1) (← byteAt msg 2)
    let len := u32 (hlen - 3)
    if hi = obexHdrBody ∨ hi = obexHdrBodyEnd then do
      let err ← receiveBodyHeader C object hi len
      receiveValue C object hi hlen len none err
    else receiveValue C object hi hlen len (some 3) false
  | .byte => receiveValue C object hi 2 1 (some 1) false
  | .int => receiveValue C object hi 5 4 (some 1) false

/-- The loop of `obex_object_receive`. A round that goes on removes a byte at least, so `fuel`
never ends it when it starts at the message's size. -/
def receiveHeaders (C : Ctx) (object : Ptr) : Nat → M Int
  | 0 => do
    let s ← get
    if s.rxMsg.dataSize = 0 then pure 1 else throw .timeout
  | fuel + 1 => do
    let s ← get
    if s.rxMsg.dataSize = 0 then pure 1
    else do
      if ← receiveHeader C object then pure (-1) else receiveHeaders C object fuel

/-- Copy the data in front of the headers; `false` if memory runs out. -/
def receiveNonhdr (C : Ctx) (object : Ptr) : M Bool := do
  let o ← deref object
  if o.headeroffset = 0 then pure true
  else
    match bufNew C.malloc o.headeroffset with
    | none => do
      update object fun o => { o with rxNonhdrData := none }
      pure false
    | some b => do
      let s ← get
      let data ← peek s.rxMsg 0 o.headeroffset
      let b ← require .assertion (bufInsertEnd C.malloc b data)
      update object fun o => { o with rxNonhdrData := some b, headeroffset := 0 }
      modify fun s => s.setRxMsg (bufRemoveBegin s.rxMsg o.headeroffset)
      pure true

/-- `msg` is `rx_msg`. -/
def obexObjectReceive (C : Ctx) : M Int := do
  modify fun s => s.setRxMsg (bufRemoveBegin s.rxMsg 3)
  let object ← selfObject
  if ← receiveNonhdr C object then do
    let s ← get
    receiveHeaders C object s.rxMsg.dataSize
  else pure (-1)

/-- The current fragment of the stream; with no buffer to fill, streaming is switched on. -/
def obexObjectReadstream (object : Ptr) (buf : Bool) : M Int := do
  let o ← deref object
  if buf then pure o.sLen
  else do
    update object fun o => { o with sSrv := true }
    pure 0

/-! ## Suspend and resume -/

def obexObjectSuspend (object : Ptr) : M Int := do
  update object fun o => { o with suspend := true }
  pure 0

/-- `opcode & ~OBEX_FINAL` -/
def withoutFinal (opcode : UInt8) : UInt8 := opcode &&& 0x7f

def obexObjectResume (C : Ctx) (object : Ptr) : M Int := do
  let o ← deref object
  if ¬ o.suspend then pure 0
  else do
    update object fun o => { o with suspend := false }
    if o.firstPacketSent ∧ ¬ o.continueReceived then pure 0
    else do
      let ret ← obexObjectSend C object true false
      let o ← deref object
      if ret < 0 then do
        obexDeliverEvent C .linkerr (withoutFinal o.opcode) 0 true
        pure (-1)
      else if ret = 0 then do
        obexDeliverEvent C .progress (withoutFinal o.opcode) 0 false
        update object fun o => { o with firstPacketSent := true, continueReceived := false }
        modify fun s => s.setState s.mode .recv
        pure 0
      else do
        let s ← get
        if s.mode = .srv then do
          obexDeliverEvent C .reqdone (withoutFinal o.opcode) 0 true
          modify fun s => s.setState .srv .idle
          pure 0
        else do
          modify fun s => s.setState s.mode .recv
          pure 0

end OpenObex
