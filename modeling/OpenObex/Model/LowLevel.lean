import OpenObex.Model.State

/-!
# The transfers of the low-level glib client (`obex-lowlevel.c`)

The data buffer of `obex_context_t` between the application, which writes to it or reads from it at any
time, and the library's body stream. The library is written down again for this, as far as a transfer
sees it: the stream of the current object, as `send_stream` and `obex_object_receive_stream` drive it,
its flags, and the exits that delete it. Nothing here is derived from `Model.Object` and `Model.Client`.
Offsets and lengths in the buffer are C's `int`.
-/

namespace OpenObex

open Mem

def obexLowlevelBufSize : Nat := 32767

def cmdPut : UInt8 := 0x02
def cmdGet : UInt8 := 0x03

/-- `sizeof(obex_ev_t)` -/
def sizeofObexEv : Nat := 4

/-- `obex_context_t` -/
structure ObexContext where
  buf : Bytes
  dataStart : Int
  dataLength : Int
  txMax : Int
  close : Bool
  events : List Event

/-- A stretch of `context->buf` given to the library, with the bytes it had then. -/
structure Chunk where
  start : Int
  size : Int
  bytes : Bytes
  deriving DecidableEq, Repr

/-- The current object. `sBuf` points into `context->buf`. -/
structure StreamObject where
  cmd : UInt8
  suspend : Bool
  firstPacketSent : Bool
  continueReceived : Bool
  sBuf : Option Chunk
  sLen : Nat
  sOffset : Nat
  sStop : Bool

/-- `malloc` by size, and what each call of `obex_object_send` returns. -/
structure LowLevelEnv where
  malloc : Nat → Bool
  send : Nat → Int

/-- `sends` counts the calls of `obex_object_send`, and the peer has been `asked` if a packet it has not
answered was sent. The last fields are what has gone through the buffer: what `obex_write` has reported,
the chunks the library was given and the bytes it has put in packets; the body bytes received and what
`obex_read` has returned. -/
structure LowLevel where
  context : ObexContext
  object : Option StreamObject
  sends : Nat
  asked : Bool
  written : Bytes
  chunks : List Chunk
  sent : Bytes
  received : Bytes
  obtained : Bytes

abbrev LowLevelM := EStateM Stop LowLevel

def modifyContext (f : ObexContext → ObexContext) : LowLevelM Unit :=
  modify fun s => { s with context := f s.context }

def modifyObject (f : StreamObject → StreamObject) : LowLevelM Unit :=
  modify fun s => { s with object := s.object.map f }

/-- `memcpy` to `&context->buf[off]` -/
def copyToBuf (off : Int) (data : Bytes) : LowLevelM Unit := do
  let s ← get
  if 0 ≤ off ∧ off + data.length ≤ s.context.buf.length then
    modifyContext fun c => { c with buf := write c.buf off.toNat data }
  else throw (.fault .outOfBounds)

/-- `memcpy` of `n` bytes from `&context->buf[off]` -/
def copyFromBuf (off : Int) (n : Nat) : LowLevelM Bytes := do
  let s ← get
  if 0 ≤ off ∧ off + n ≤ s.context.buf.length then pure (slice s.context.buf off.toNat n)
  else throw (.fault .outOfBounds)

/-! ## The library -/

/-- `OBEX_ObjectGetCommand` of the current object, or -1 -/
def currentCommand : LowLevelM Int := do
  let s ← get
  pure (match s.object with
    | some o => o.cmd.toNat
    | none => -1)

def suspendRequest : LowLevelM Unit := modifyObject fun o => { o with suspend := true }

/-- `OBEX_ObjectAddHeader` with `OBEX_FL_STREAM_DATA` -/
def addStreamData (start size : Int) : LowLevelM Unit := do
  let s ← get
  let chunk : Chunk := { start, size, bytes := slice s.context.buf start.toNat size.toNat }
  modifyObject fun o => { o with sBuf := some chunk, sLen := u32 size }
  modify fun s => { s with chunks := s.chunks ++ [chunk] }

/-- `OBEX_ObjectAddHeader` with `OBEX_FL_STREAM_DATAEND` -/
def addStreamDataend : LowLevelM Unit :=
  modifyObject fun o => { o with sStop := true, sBuf := none, sLen := 0 }

section
variable (W : LowLevelEnv)

def queueEvent (e : Event) : LowLevelM Unit :=
  if W.malloc sizeofObexEv then modifyContext fun c => { c with events := c.events ++ [e] } else pure ()

/-- `obex_object_send`. What it takes from the stream are the steps `streamEmpty` and `streamTake`. -/
def objectSend : LowLevelM Int := do
  let ret := W.send (← get).sends
  modify fun s => { s with sends := s.sends + 1, asked := s.asked || decide (0 ≤ ret) }
  pure ret

/-- `obex_deliver_event` with `del` set: the object is no longer current when `obex_event` hears of it.
An error makes it disconnect the transport, and it queues nothing. -/
def deliverEnd (event : Event) : LowLevelM Unit := do
  modify fun s => { s with object := none }
  if event = .reqdone then queueEvent W .reqdone else pure ()

/-- `obex_object_resume` of a client -/
def resumeRequest : LowLevelM Unit := do
  match (← get).object with
  | none => pure ()
  | some o =>
    if ¬ o.suspend then pure ()
    else do
      modifyObject fun o => { o with suspend := false }
      if o.firstPacketSent ∧ ¬ o.continueReceived then pure ()
      else do
        let ret ← objectSend W
        if ret < 0 then deliverEnd W .linkerr
        else if ret = 0 then modifyObject fun o =>
          { o with firstPacketSent := true, continueReceived := false }
        else pure ()

/-! ## The client -/

/-- `nonhdr` is what `OBEX_ObjectGetNonHdrData` yields; the MTU is in its last two bytes. -/
def obexConnectDone (response : UInt8) (nonhdr : Bytes) : LowLevelM Unit :=
  if response ≠ obexRspSuccess then pure ()
  else match nonhdr with
    | [_, _, hi, lo] =>
      let newSize : Int := ofBe16 hi lo - 200
      modifyContext fun c => if newSize < c.txMax then { c with txMax := newSize } else c
    | _ => pure ()

def obexReadstream (fragment : Bytes) : LowLevelM Unit := do
  let actual : Int := fragment.length
  if actual ≤ 0 then pure ()
  else do
    let c := (← get).context
    let freeSpace := i32 (obexLowlevelBufSize - (c.dataStart + c.dataLength))
    if freeSpace < actual then pure ()
    else do
      copyToBuf c.dataStart fragment
      modifyContext fun c => { c with dataLength := c.dataLength + actual }
      suspendRequest
      queueEvent W .streamavail

def obexWritestream : LowLevelM Unit := do
  let c := (← get).context
  if 0 < c.dataLength then do
    let sendSize := if c.txMax < c.dataLength then c.txMax else c.dataLength
    addStreamData c.dataStart sendSize
    let dataLength := c.dataLength - sendSize
    modifyContext fun c => { c with
      dataLength
      dataStart := if dataLength = 0 then 0 else c.dataStart + sendSize }
    if ¬ c.close ∧ dataLength = 0 then do
      suspendRequest
      queueEvent W .streamempty
    else pure ()
  else addStreamDataend

/-- `-EINVAL` is -22 and `-EAGAIN` -11. What is returned first is `*bytes_read`, with the bytes. -/
def obexRead (count : Nat) : LowLevelM (Bytes × Int) := do
  if (← currentCommand) ≠ cmdGet.toNat then pure ([], -22)
  else do
    let c := (← get).context
    if c.dataLength = 0 then pure ([], -11)
    else do
      let bytesRead := if count < sizeT c.dataLength then count else sizeT c.dataLength
      let data ← copyFromBuf c.dataStart bytesRead
      let dataLength := i32 (c.dataLength - bytesRead)
      modify fun s => { s with obtained := s.obtained ++ data }
      (if dataLength ≠ 0 then
        modifyContext fun c => { c with dataLength, dataStart := i32 (c.dataStart + bytesRead) }
      else do
        modifyContext fun c => { c with dataLength, dataStart := 0 }
        resumeRequest W)
      pure (data, 0)

/-- What is returned first is `*bytes_written`. -/
def obexWrite (buf : Bytes) : LowLevelM (Nat × Int) := do
  if (← currentCommand) ≠ cmdPut.toNat then pure (0, -22)
  else do
    let c := (← get).context
    let freeSpace := i32 (obexLowlevelBufSize - (c.dataStart + c.dataLength))
    let bytesWritten := if sizeT freeSpace < buf.length then sizeT freeSpace else buf.length
    copyToBuf (c.dataStart + c.dataLength) (buf.take bytesWritten)
    let dataLength := i32 (c.dataLength + bytesWritten)
    modifyContext fun c => { c with dataLength }
    modify fun s => { s with written := s.written ++ buf.take bytesWritten }
    (if c.txMax ≤ dataLength ∨ bytesWritten = sizeT freeSpace then resumeRequest W else pure ())
    pure (bytesWritten, 0)

def obexFlush : LowLevelM Int := do
  if (← currentCommand) ≠ cmdPut.toNat then pure (-22)
  else do
    let c := (← get).context
    (if c.dataLength ≠ 0 then resumeRequest W else pure ())
    pure 0

def obexCloseTransfer : LowLevelM Int := do
  let cmd ← currentCommand
  if cmd ≠ cmdPut.toNat ∧ cmd ≠ cmdGet.toNat then pure (-22)
  else do
    modifyContext fun c => { c with close := true }
    resumeRequest W
    pure 0

/-! ## The stream of the library -/

/-- `send_stream` asks for more. -/
def streamEmpty : LowLevelM Unit := do
  modifyObject fun o => { o with sOffset := 0, sBuf := none }
  obexWritestream W

/-- `send_stream` puts `n` bytes of the chunk in a packet. -/
def streamTake (n : Nat) : LowLevelM Unit := do
  match (← get).object with
  | none => throw (.fault .nullObject)
  | some o =>
    match o.sBuf with
    | none => throw (.fault .nullDeref)
    | some chunk => do
      let data ← copyFromBuf (chunk.start + o.sOffset) n
      modifyObject fun o => { o with sLen := o.sLen - n, sOffset := o.sOffset + n }
      modify fun s => { s with sent := s.sent ++ data }

/-- `obex_object_receive_stream` for a body header, the last of the body if `bodyEnd` is set. -/
def receiveStream (bodyEnd : Bool) (source : Bytes) : LowLevelM Unit :=
  if ¬ bodyEnd ∧ source = [] then pure ()
  else do
    modify fun s => { s with received := s.received ++ source }
    obexReadstream W source
    if bodyEnd ∧ source ≠ [] then obexReadstream W [] else pure ()

/-- What `obex_client` makes of the end of a response. -/
inductive ResponseEnd
  | rspContinue
  /-- any other response -/
  | done
  /-- `obex_object_receive` fails, at a header behind the bodies. -/
  | parseerr

def handleContinue : LowLevelM Unit := do
  modifyObject fun o => { o with continueReceived := true }
  if (← get).object.any StreamObject.suspend then pure ()
  else do
    let ret ← objectSend W
    (if ret < 0 then deliverEnd W .linkerr else pure ())
    modifyObject fun o => { o with continueReceived := false }

/-- `obex_client` with a response to a GET in `STATE_REC`. -/
def handleResponse (bodies : List (Bool × Bytes)) (ending : ResponseEnd) : LowLevelM Unit := do
  modify fun s => { s with asked := false }
  Prog.iterate (fun body => receiveStream W body.1 body.2) bodies
  match ending with
  | .parseerr => deliverEnd W .parseerr
  | .done => deliverEnd W .reqdone
  | .rspContinue => handleContinue W

end

/-! ## Runs -/

/-- What the application calls, at any time. -/
inductive LowLevelCall
  | write (buf : Bytes)
  | read (count : Nat)
  | flush
  | closeTransfer

inductive LowLevelOp
  | call (c : LowLevelCall)
  /-- `obex_do_callback`, with what the application calls when it hears of an event. -/
  | doCallback (commandInd : Event → List LowLevelCall)
  | connectDone (response : UInt8) (nonhdr : Bytes)
  | streamEmpty
  | streamTake (n : Nat)
  | handleResponse (bodies : List (Bool × Bytes)) (ending : ResponseEnd)
  /-- `obex_data_indication` finds the link broken. -/
  | linkErr

section
variable (W : LowLevelEnv)

def lowLevelCall : LowLevelCall → LowLevelM Unit
  | .write buf => do
    let _ ← obexWrite W buf
  | .read count => do
    let _ ← obexRead W count
  | .flush => do
    let _ ← obexFlush W
  | .closeTransfer => do
    let _ ← obexCloseTransfer W

end

/-- Which steps a run is about. -/
structure LowLevelGuard where
  op : LowLevelOp → LowLevel → Bool := fun _ _ => true
  call : LowLevelCall → LowLevel → Bool := fun _ _ => true

def LowLevelGuard.and (G H : LowLevelGuard) : LowLevelGuard where
  op x s := G.op x s && H.op x s
  call c s := G.call c s && H.call c s

def admitted (ok : Bool) : LowLevelM Unit := if ok then pure () else throw .barred

section
variable (W : LowLevelEnv)

def guardedCall (G : LowLevelGuard) (c : LowLevelCall) : LowLevelM Unit := do
  admitted (G.call c (← get))
  lowLevelCall W c

def obexDoCallback (G : LowLevelGuard) (commandInd : Event → List LowLevelCall) : LowLevelM Unit := do
  let s ← get
  Prog.iterate (fun e => Prog.iterate (guardedCall W G) (commandInd e)) s.context.events
  modifyContext fun c => { c with events := [] }

variable (G : LowLevelGuard)

def lowLevelOp (op : LowLevelOp) : LowLevelM Unit := do
  admitted (G.op op (← get))
  match op with
  | .call c => guardedCall W G c
  | .doCallback commandInd => obexDoCallback W G commandInd
  | .connectDone response nonhdr => obexConnectDone response nonhdr
  | .streamEmpty => streamEmpty W
  | .streamTake n => streamTake n
  | .handleResponse bodies ending => handleResponse W bodies ending
  | .linkErr => deliverEnd W .linkerr

def lowLevelRun (ops : List LowLevelOp) : LowLevelM Unit := Prog.iterate (lowLevelOp W G) ops

end

/-- What `obex_put` and `obex_get` leave, with any bytes in the buffer: a GET has been sent, a PUT is
suspended before its first packet. -/
def obexTransfer (cmd : UInt8) (buf : Bytes) : LowLevel where
  context := {
    buf, dataStart := 0, dataLength := 0, txMax := obexLowlevelBufSize, close := false, events := [] }
  object := some {
    cmd, suspend := decide (cmd = cmdPut), firstPacketSent := true, continueReceived := false
    sBuf := none, sLen := 0, sOffset := 0, sStop := false }
  sends := 0
  asked := decide (cmd = cmdGet)
  written := []
  chunks := []
  sent := []
  received := []
  obtained := []

/-- A PUT: the library asks for more when the chunk before has been consumed, and the application does
nothing else. -/
def uploading : LowLevelGuard where
  op x s := match x with
    | .streamEmpty => s.object.any fun o => o.sLen = 0
    | .streamTake n => s.object.any fun o => o.sBuf.isSome ∧ n ≤ o.sLen
    | .handleResponse _ _ => false
    | _ => true

/-- A GET: while there is one, responses come with body headers that fit in the buffer, and the
application reads. -/
def downloading : LowLevelGuard where
  op x s := match x with
    | .handleResponse bodies _ => s.object.isSome ∧ ∀ b ∈ bodies, b.2.length ≤ obexLowlevelBufSize
    | .streamEmpty | .streamTake _ => false
    | _ => true
  call c _ := match c with
    | .read _ => true
    | _ => false

end OpenObex
