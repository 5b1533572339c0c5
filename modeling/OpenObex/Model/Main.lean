import OpenObex.Model.Header

/-!
# Packets and events (`obex_transport.c`, `obex_main.c`)

`obexDataIndication` is in `Indication.lean`: it dispatches to the client and the server.
-/

namespace OpenObex

open Mem

/-! ## Transport -/

/-- The loop of `do_write`; every round with a positive count shortens the message, so `fuel` never
ends it when it starts above the message's size. -/
def doWriteLoop (C : Ctx) (mtu : Nat) : Nat → Int → M Int
  | 0, _ => throw .timeout
  | fuel + 1, actual => do
    let msg := (← get).txMsg
    if msg.dataSize = 0 then pure actual
    else do
      let size := if mtu < msg.dataSize then mtu else msg.dataSize
      let actual ← C.write (msg.contents.take size)
      if actual ≤ 0 then pure actual
      else do
        modify fun s => s.setTxMsg (bufRemoveBegin s.txMsg actual.toNat)
        doWriteLoop C mtu fuel actual

def doWrite (C : Ctx) (mtu : Nat) : M Int := do
  let s ← get
  doWriteLoop C mtu (s.txMsg.dataSize + 1) (-1)

def obexTransportWrite (C : Ctx) : M Int := do
  let s ← get
  match s.trans.type with
  | .irda | .bluetooth | .inet | .fd => doWrite C s.trans.mtu
  | .usb => if s.trans.connected then C.write s.txMsg.contents else pure (-1)
  | .custom => C.write s.txMsg.contents

/-- On a socket the space is reserved before the call and given back only after a positive count. -/
def socketRead (C : Ctx) (max : Nat) : M Int := do
  let s ← get
  match bufReserveEnd C.malloc s.rxMsg max with
  | none => do
    let _ ← C.read false max
    pure (-1)
  | some (msg, dest) => do
    set (s.setRxMsg msg)
    match ← C.read true max with
    | none => pure (-1)
    | some bs => do
      let bs := bs.take max
      let msg ← require .outOfBounds (bufPoke msg dest bs)
      modify fun s => s.setRxMsg (if bs = [] then msg else bufRemoveEnd msg (max - bs.length))
      pure bs.length

/-- On USB a whole `mtu_rx` is asked for. -/
def usbRead (C : Ctx) : M Int := do
  let s ← get
  match bufReserveEnd C.malloc s.rxMsg s.mtuRx with
  | none => do
    let _ ← C.read false s.mtuRx
    pure (-1)
  | some (msg, dest) => do
    set (s.setRxMsg msg)
    match ← C.read true s.mtuRx with
    | none => do
      modify fun s => s.setRxMsg (bufRemoveEnd msg (s.mtuRx + 1))
      pure (-1)
    | some bs => do
      let bs := bs.take s.mtuRx
      let msg ← require .outOfBounds (bufPoke msg dest bs)
      modify fun s => s.setRxMsg (bufRemoveEnd msg (s.mtuRx - bs.length))
      pure bs.length

/-- `buflen` bytes are fed; `max` at most are taken. -/
def customRead (C : Ctx) (max : Nat) (buf : Bytes) (buflen : Int) : M Int := do
  let s ← get
  let n := if (max : Int) < buflen then max else buflen.toNat
  let bs ← copyFrom (some buf) 0 n
  let (msg, dest) ← require .nullDeref (bufReserveEnd C.malloc s.rxMsg n)
  let msg ← require .outOfBounds (bufPoke msg dest bs)
  set (s.setRxMsg msg)
  pure n

/-- The bytes read are appended to `rx_msg`. `buf` and `buflen` are the data fed by a custom
transport. -/
def obexTransportRead (C : Ctx) (max : Nat) (buf : Bytes) (buflen : Int) : M Int := do
  let s ← get
  match s.trans.type with
  | .irda | .bluetooth | .inet | .fd => socketRead C max
  | .usb => if s.trans.connected then usbRead C else pure (-1)
  | .custom => customRead C max buf buflen

/-! ## Objects come and go -/

def obexObjectSetrsp (o : ObexObject) (rsp lastrsp : UInt8) : ObexObject :=
  { o with opcode := rsp, lastopcode := lastrsp }

def obexObjectSetcmd (o : ObexObject) (cmd lastcmd : UInt8) : ObexObject :=
  { o with cmd := cmd, opcode := cmd, lastopcode := lastcmd }

def zeroObject : ObexObject :=
  { txHeaderq := [], rxHeaderq := [], rxHeaderqRm := [], rxBody := none, txNonhdrData := none
    rxNonhdrData := none, cmd := 0, opcode := 0, lastopcode := 0, headeroffset := 0
    hintedBodyLen := 0, totallen := 0, abort := false, checked := false, suspend := false
    continueReceived := false, firstPacketSent := false, sBuf := none, sLen := 0, sOffset := 0
    sStop := false, sSrv := false }

/-- `none` is the null pointer. -/
def obexObjectNew (C : Ctx) : M (Option Ptr) :=
  if C.malloc sizeofObject then do
    let p ← alloc
    modify fun s => s.setObject p
      (some (obexObjectSetrsp zeroObject obexRspNotImplemented obexRspNotImplemented))
    pure (some p)
  else pure none

def obexObjectDelete (object : Option Ptr) : M Int :=
  match object with
  | none => pure (-1)
  | some p => do
    let _ ← deref p
    modify fun s => s.setObject p none
    pure 0

/-! ## Events -/

/-- The stream fragment the application finds in the current object. -/
def streamFragment (s : Obex) : Option (Option Bytes × Nat) :=
  (s.object.bind s.objects).map fun o => (o.sBuf, o.sLen)

def obexDeliverEvent (C : Ctx) (event : Event) (cmd rsp : UInt8) (del : Bool) : M Unit := do
  let s ← get
  let object := s.object
  set (if del then { s with object := none } else s)
  let notice : Notice := {
    mode := s.mode, object, event, cmd, rsp
    data := if event = .streamavail then streamFragment s else none }
  emit (.event notice)
  C.eventcb notice
  when del do
    let _ ← obexObjectDelete object

/-! ## Packets -/

/-- `object` and `kind` only go to the log. -/
def obexDataRequest (C : Ctx) (object : Option Ptr) (kind : PacketKind) (opcode : UInt8) : M Int := do
  let s ← get
  let msg ← require .nullDeref (bufReserveBegin C.malloc s.txMsg 3)
  let msg ← require .outOfBounds (bufPoke msg msg.data (opcode :: be16 msg.dataSize))
  set (s.setTxMsg msg)
  emit (.write object kind msg.contents)
  obexTransportWrite C

def obexResponseRequest (C : Ctx) (opcode : UInt8) : M Unit := do
  modify fun s => s.setTxMsg (bufReuse s.txMsg)
  let _ ← obexDataRequest C none .response (opcode ||| obexFinal)

end OpenObex
