import OpenObex.Model.Object

/-!
# The client (`obex_client.c`)

One function per `case` of the `switch`; a `case` that falls through ends with the next one.
-/

namespace OpenObex

/-- `self->object->opcode` -/
def currentOpcode : M UInt8 := do
  let p ← selfObject
  let o ← deref p
  pure o.opcode

def updateCurrent (f : ObexObject → ObexObject) : M Unit := do
  let p ← selfObject
  update p f

def setState (mode : Mode) (state : State) : M Unit := modify fun s => s.setState mode state

/-- Nothing has been sent yet. -/
def clientStart (C : Ctx) (rsp : UInt8) : M Int := do
  let s ← get
  match s.object with
  | none => do
    obexDeliverEvent C .parseerr rsp 0 true
    pure (-1)
  | some p => do
    let ret ← obexObjectSend C p true false
    if ret < 0 then do
      setState .cli .idle
      obexDeliverEvent C .linkerr (← currentOpcode) 0 true
      pure 0
    else do
      updateCurrent fun o => { o with firstPacketSent := true }
      obexDeliverEvent C .progress (← currentOpcode) 0 false
      setState .cli .recv
      pure 0

/-- A packet that comes while the library is sending: `true` if it is not acceptable. -/
def receiveUnexpected (C : Ctx) (connect : Bool) : M Bool :=
  if connect then pure true
  else do
    let ret ← obexObjectReceive C
    pure (decide (ret < 0))

/-- In progress of sending the request. -/
def clientSend (C : Ctx) (rsp : UInt8) : M Int := do
  if rsp ≠ obexRspSuccess ∧ rsp ≠ obexRspContinue then do
    obexDeliverEvent C .reqdone (← currentOpcode) rsp true
    pure 0
  else do
    let s ← get
    let len := Mem.ofBe16 (← byteAt s.rxMsg 1) (← byteAt s.rxMsg 2)
    if 3 < len then do
      let opcode ← currentOpcode
      if ← receiveUnexpected C (opcode = obexCmdConnect) then do
        setState .srv .idle
        obexDeliverEvent C .parseerr (← currentOpcode) 0 true
        pure (-1)
      else do
        obexDeliverEvent C .unexpected (← currentOpcode) 0 false
        clientStart C rsp
    else clientStart C rsp

/-- A CONTINUE: the next packet is sent unless the request is aborted or suspended. -/
def clientContinue (C : Ctx) : M Int := do
  updateCurrent fun o => { o with continueReceived := true }
  let p ← selfObject
  let o ← deref p
  if o.abort then pure 0
  else if o.suspend then pure 0
  else do
    let ret ← obexObjectSend C p true false
    let opcode ← currentOpcode
    (if ret < 0 then obexDeliverEvent C .linkerr opcode 0 true
      else obexDeliverEvent C .progress opcode 0 false)
    let s ← get
    match s.object with
    | none => pure 0
    | some q => do
      update q fun o => { o with continueReceived := false }
      pure 0

/-- The last response. -/
def clientDone (C : Ctx) (rsp : UInt8) : M Int := do
  setState .srv .idle
  let p ← selfObject
  let o ← deref p
  let event : Event :=
    if o.abort then (if rsp = obexRspSuccess then .abort else .linkerr) else .reqdone
  obexDeliverEvent C event o.opcode rsp true
  pure 0

/-- A connect response is parsed before its headers; `false` if it is malformed. -/
def clientConnect : M Bool := do
  if (← currentOpcode) = obexCmdConnect then do
    let ret ← obexParseConnectHeader
    if ret < 0 then pure false
    else do
      updateCurrent fun o => { o with headeroffset := 4 }
      pure true
  else pure true

/-- Receiving the answer to the request. -/
def clientRec (C : Ctx) (rsp : UInt8) : M Int := do
  if ← clientConnect then do
    let opcode ← currentOpcode
    when (opcode = obexCmdDisconnect) (modify fun s => { s with mtuTx := obexMinimumMtu })
    let ret ← obexObjectReceive C
    if ret < 0 then do
      setState .srv .idle
      obexDeliverEvent C .parseerr (← currentOpcode) 0 true
      pure (-1)
    else if rsp = obexRspContinue then clientContinue C
    else clientDone C rsp
  else do
    setState .srv .idle
    obexDeliverEvent C .parseerr (← currentOpcode) 0 true
    pure (-1)

/-- `msg` tells whether there is a response; it is in `rx_msg`. -/
def obexClient (C : Ctx) (msg : Bool) : M Int := do
  let s ← get
  let rsp ← (if msg then do
      let opcode ← byteAt s.rxMsg 0
      pure (withoutFinal opcode)
    else pure obexRspBadRequest)
  match s.mode, s.state with
  | .cli, .send => if msg then clientSend C rsp else fault .nullDeref
  | .cli, .start => clientStart C rsp
  | .cli, .recv => if msg then clientRec C rsp else fault .nullDeref
  | _, _ => do
    obexDeliverEvent C .parseerr rsp 0 true
    pure (-1)

end OpenObex
