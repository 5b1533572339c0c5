import OpenObex.Model.Indication

/-!
# The library's interface (`obex.c`) and its runs

`Call` is a call the application can make at any time, `Op` what happens between library calls: such
a call, or incoming data. An environment `Env` decides everything outside the library: from the log of
the run so far, what the application calls when the event callback runs and what the transport answers;
and, for the whole run, allocations of which sizes succeed. `Env.ctx` ties the knot: inside the callback
the library is called again, `n` levels deep at most.

A `Guard` says which steps of the environment a run is about; a step it refuses stops the run with
`barred`. `Guard.all` refuses nothing.
-/

namespace OpenObex

open Mem

inductive Call
  | objectNew (cmd : UInt8)
  | objectDelete (object : Ptr)
  | objectAddHeader (object : Ptr) (hi : UInt8) (hv : HeaderData) (hvSize : UInt32) (flags : Flags)
  | objectGetNextHeader (object : Ptr)
  | objectReParseHeaders (object : Ptr)
  | objectReadStream (object : Ptr) (buf : Bool)
  | objectSetRsp (object : Ptr) (rsp lastrsp : UInt8)
  | objectSetNonHdrData (object : Ptr) (buffer : Bytes)
  | objectSetHdrOffset (object : Ptr) (offset : UInt32)
  | setTransportMtu (mtuRx mtuTxMax : UInt16)
  | request (object : Ptr)
  | cancelRequest (nice : Bool)
  | suspendRequest (object : Option Ptr)
  | resumeRequest
  deriving DecidableEq, Repr

/-! ## The functions of `obex.c` -/

/-- `none` is the null pointer. -/
def obexObjectNewRequest (C : Ctx) (cmd : UInt8) : M (Option Ptr) := do
  match ← obexObjectNew C with
  | none => pure none
  | some p => do
    update p fun o => obexObjectSetcmd o cmd (cmd ||| obexFinal)
    if cmd = obexCmdConnect then do
      let ret ← obexInsertConnectframe C p
      if ret < 0 then do
        let _ ← obexObjectDelete (some p)
        pure none
      else pure (some p)
    else pure (some p)

def obexObjectSetNonHdrData (C : Ctx) (object : Ptr) (buffer : Bytes) : M Int := do
  let o ← deref object
  if o.txNonhdrData.isSome then pure (-1)
  else
    match bufNew C.malloc buffer.length with
    | none => pure (-1)
    | some b => do
      let b ← require .assertion (bufInsertEnd C.malloc b buffer)
      update object fun o => { o with txNonhdrData := some b }
      pure 1

/-- `-EBUSY` is -16 and `-E2BIG` -7. -/
def obexSetTransportMtu (C : Ctx) (mtuRx mtuTxMax : Nat) : M Int := do
  let s ← get
  if s.object.isSome then pure (-16)
  else if mtuRx < obexMinimumMtu then pure (-7)
  else if mtuTxMax < obexMinimumMtu then pure (-7)
  else do
    set { s with
      mtuRx, mtuTxMax
      rxMsg := bufResize C.malloc s.rxMsg mtuRx
      txMsg := bufResize C.malloc s.txMsg mtuTxMax }
    pure 0

def obexRequest (C : Ctx) (object : Ptr) : M Int := do
  let s ← get
  if s.object.isSome then pure (-16)
  else do
    set ({ s with object := some object, mode := .cli, state := .start }.emit (.request object))
    obexClient C false

def obexSuspendRequest (object : Option Ptr) : M Int := do
  let s ← get
  match object, s.object with
  | none, none => pure (-1)
  | some p, _ => obexObjectSuspend p
  | none, some p => obexObjectSuspend p

def obexResumeRequest (C : Ctx) : M Int := do
  let s ← get
  match s.object with
  | none => pure (-1)
  | some p => obexObjectResume C p

/-- A call of the library. -/
def api (C : Ctx) : Call → M Int
  | .objectNew cmd => do
    let _ ← obexObjectNewRequest C cmd
    pure 0
  | .objectDelete object => obexObjectDelete (some object)
  | .objectAddHeader object hi hv hvSize flags =>
    obexObjectAddheader C object hi hv hvSize.toNat flags
  | .objectGetNextHeader object => do
    let h ← obexObjectGetnextheader object
    pure (if h.isSome then 1 else 0)
  | .objectReParseHeaders object => obexObjectReparseheaders object
  | .objectReadStream object buf => obexObjectReadstream object buf
  | .objectSetRsp object rsp lastrsp => do
    update object fun o => obexObjectSetrsp o rsp lastrsp
    pure 1
  | .objectSetNonHdrData object buffer => obexObjectSetNonHdrData C object buffer
  | .objectSetHdrOffset object offset => do
    update object fun o => { o with headeroffset := offset.toNat }
    pure 1
  | .setTransportMtu mtuRx mtuTxMax => obexSetTransportMtu C mtuRx.toNat mtuTxMax.toNat
  | .request object => obexRequest C object
  | .cancelRequest nice => obexCancelrequest C nice
  | .suspendRequest object => obexSuspendRequest object
  | .resumeRequest => obexResumeRequest C

/-! ## Runs -/

inductive Op
  | call (c : Call)
  /-- The transport connects; its link MTU is stored in `trans.mtu`. -/
  | transportConnect (mtu : UInt32)
  | customDataFeed (inputbuf : Bytes)
  /-- `OBEX_HandleInput` with data on the socket. -/
  | handleInput
  deriving DecidableEq, Repr

structure Env where
  malloc : Nat → Bool
  app : List Obs → List Call
  write : List Obs → Bytes → Int
  read : List Obs → Nat → Option Bytes

structure Guard where
  /-- What happens between library calls. -/
  op : Op → Obex → Bool := fun _ _ => true
  /-- A call from inside the event callback. -/
  nested : Call → Obex → Bool := fun _ _ => true
  /-- The state when the event callback returns. -/
  after : Notice → Obex → Bool := fun _ _ => true
  /-- The answer of the transport's write function. -/
  write : Obex → Int → Bool := fun _ _ => true
  /-- The answer of the transport's read function. -/
  read : Obex → Option Bytes → Bool := fun _ _ => true
  /-- A whole packet in `rx_msg`, about to be dispatched. -/
  recv : Obex → Bool := fun _ => true

/-- The guard that refuses nothing. -/
def Guard.all : Guard := {}

/-- The step is one the run is about. -/
def allowed (ok : Bool) : M Unit := if ok then pure () else throw .barred

def nestedCall (C : Ctx) (G : Guard) (c : Call) : M Unit := do
  allowed (G.nested c (← get))
  let _ ← api C c

def packetReceived (G : Guard) : M Unit := do
  let s ← get
  emit (.recv s.rxMsg.contents)
  allowed (G.recv s)

namespace Env

variable (E : Env) (G : Guard)

def transportWrite (chunk : Bytes) : M Int := do
  let s ← get
  let result := E.write s.log chunk
  emit (.io chunk result)
  allowed (G.write s result)
  pure result

def transportRead (valid : Bool) (max : Nat) : M (Option Bytes) := do
  let s ← get
  let result := if valid then E.read s.log max else none
  emit (.read result)
  allowed (G.read s result)
  pure result

def ctx : Nat → Ctx
  | 0 => {
    malloc := E.malloc, write := E.transportWrite G, read := E.transportRead G
    recv := packetReceived G, fuel := 0
    eventcb := fun _ => throw .timeout }
  | n + 1 => {
    malloc := E.malloc, write := E.transportWrite G, read := E.transportRead G
    recv := packetReceived G, fuel := n + 1
    eventcb := fun notice => do
      let s ← get
      Prog.iterate (nestedCall (ctx n) G) (E.app s.log)
      allowed (G.after notice (← get)) }

end Env

def runOp (C : Ctx) (G : Guard) (op : Op) : M Unit := do
  let s ← get
  allowed (G.op op s)
  match op with
  | .call c => do
    let _ ← api C c
  | .transportConnect mtu =>
    set { s with trans := { s.trans with connected := true, mtu := mtu.toNat } }
  | .customDataFeed inputbuf => do
    let _ ← obexDataIndication C (some inputbuf) inputbuf.length
  | .handleInput =>
    if s.trans.type = .custom then pure ()
    else do
      let _ ← obexDataIndication C none 0

@[irreducible] def run (C : Ctx) (G : Guard) (ops : List Op) : M Unit := Prog.iterate (runOp C G) ops

/-- The handle `OBEX_Init` returns. -/
def obexInit (transport : TransportType) : Obex :=
  let mtu := if transport = .usb then obexMaximumMtu else obexDefaultMtu
  { mtuTx := obexMinimumMtu, mtuRx := mtu, mtuTxMax := mtu, mode := .srv, state := .idle
    txMsg := freshBuf mtu, rxMsg := freshBuf mtu, object := none
    trans := { type := transport, connected := false, mtu := 0 }
    objects := fun _ => none, fresh := 0, log := [] }

end OpenObex
