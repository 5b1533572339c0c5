import OpenObex.Model.Client

/-!
# The server (`obex_server.c`)

One function per `case` of the `switch`; a `case` that falls through ends with the next one.
-/

namespace OpenObex

/-- The peer aborts: the request ends without an error. -/
def serverAbort (C : Ctx) (cmd : UInt8) : M Int := do
  obexResponseRequest C obexRspSuccess
  setState .srv .idle
  obexDeliverEvent C .abort (← currentOpcode) cmd true
  pure 0

/-- The packet is refused and the request ends with a parse error. -/
def serverParseerr (C : Ctx) (cmd : UInt8) : M Int := do
  obexResponseRequest C obexRspBadRequest
  setState .srv .idle
  obexDeliverEvent C .parseerr (← currentOpcode) cmd true
  pure (-1)

/-- The response of the state `STATE_SEND`. -/
def serverRespond (C : Ctx) (cmd : UInt8) : M Int := do
  updateCurrent fun o => { o with continueReceived := true }
  let p ← selfObject
  let o ← deref p
  if o.suspend then pure 0
  else do
    let ret ← obexObjectSend C p true true
    if ret = 0 then do
      obexDeliverEvent C .progress cmd 0 false
      updateCurrent fun o => { o with firstPacketSent := true }
      updateCurrent fun o => { o with continueReceived := false }
      pure 0
    else if ret < 0 then do
      obexDeliverEvent C .linkerr cmd 0 true
      pure (-1)
    else do
      when (cmd = obexCmdDisconnect) (modify fun s => { s with mtuTx := obexMinimumMtu })
      setState .srv .idle
      obexDeliverEvent C .reqdone cmd 0 true
      pure 0

/-- Sending back the response; `len` is the length field of the packet. -/
def serverSend (C : Ctx) (cmd : UInt8) (len : Nat) : M Int := do
  if cmd = obexCmdAbort then serverAbort C cmd
  else if 3 < len then do
    if ← receiveUnexpected C (cmd = obexCmdConnect) then serverParseerr C 0
    else do
      obexDeliverEvent C .unexpected (← currentOpcode) 0 false
      serverRespond C cmd
  else serverRespond C cmd

/-- A packet without the final bit: the application may deny the request after the first one. The
result tells whether the packet is treated as final from here on and whether the request is denied. -/
def serverCheck (C : Ctx) (cmd : UInt8) (final : Bool) : M (Bool × Bool) := do
  if final then pure (true, false)
  else do
    let p ← selfObject
    let o ← deref p
    when (¬ o.checked) do
      obexDeliverEvent C .reqcheck cmd 0 false
      updateCurrent fun o => { o with checked := true }
    let opcode ← currentOpcode
    if withoutFinal opcode &&& 0xf0 = 0x10 ∨ withoutFinal opcode &&& 0xf0 = 0x20 then
      pure (false, false)
    else do
      emit .denied
      pure (true, true)

/-- In progress of receiving a request. -/
def serverRec (C : Ctx) (cmd : UInt8) (len : Nat) (final : Bool) : M Int := do
  if cmd = obexCmdAbort then serverAbort C cmd
  else do
    let p ← selfObject
    let o ← deref p
    if cmd ≠ o.cmd then serverParseerr C cmd
    else do
      let ret ← obexObjectReceive C
      if ret < 0 then serverParseerr C 0
      else do
        let (final, deny) ← serverCheck C cmd final
        let p ← selfObject
        if ¬ final then do
          let ret ← obexObjectSend C p false true
          if ret < 0 then do
            obexDeliverEvent C .linkerr cmd 0 true
            pure (-1)
          else do
            obexDeliverEvent C .progress cmd 0 false
            pure 0
        else do
          let o ← deref p
          if ¬ o.firstPacketSent then do
            when (cmd = obexCmdConnect) do
              let _ ← obexInsertConnectframe C p
            when (¬ deny) (obexDeliverEvent C .req cmd 0 false)
            setState .srv .send
            serverSend C cmd 3
          else serverSend C cmd len

/-- A CONNECT is parsed before its headers are received. -/
def serverConnect (C : Ctx) (cmd : UInt8) (len : Nat) (final : Bool) : M Int := do
  let ret ← obexParseConnectHeader
  if ret < 0 then do
    obexResponseRequest C obexRspBadRequest
    obexDeliverEvent C .parseerr (← currentOpcode) 0 true
    pure (-1)
  else do
    updateCurrent fun o => { o with headeroffset := 4 }
    setState .srv .recv
    serverRec C cmd len final

/-- The application hears of the new request before the packet is looked at. -/
def serverHint (C : Ctx) (cmd : UInt8) (len : Nat) (final : Bool) : M Int := do
  obexDeliverEvent C .reqhint cmd 0 false
  if cmd = obexCmdConnect then serverConnect C cmd len final
  else do
    when (cmd = obexCmdSetpath) (updateCurrent fun o => { o with headeroffset := 2 })
    setState .srv .recv
    serverRec C cmd len final

/-- Nothing has been received yet. -/
def serverIdle (C : Ctx) (cmd : UInt8) (len : Nat) (final : Bool) : M Int := do
  let s ← get
  if s.object.isSome then do
    obexResponseRequest C obexRspInternalServerError
    pure (-1)
  else
    match ← obexObjectNew C with
    | none => do
      obexResponseRequest C obexRspInternalServerError
      pure (-1)
    | some p => do
      modify fun s => { s with object := some p }
      update p fun o => { o with cmd := cmd }
      serverHint C cmd len final

/-- The request is in `rx_msg`. -/
def obexServer (C : Ctx) (final : Bool) : M Int := do
  let s ← get
  let cmd := withoutFinal (← byteAt s.rxMsg 0)
  let len := Mem.ofBe16 (← byteAt s.rxMsg 1) (← byteAt s.rxMsg 2)
  match s.state with
  | .idle => serverIdle C cmd len final
  | .recv => serverRec C cmd len final
  | .send => serverSend C cmd len
  | .start => do
    obexResponseRequest C obexRspBadRequest
    obexDeliverEvent C .parseerr cmd 0 true
    pure (-1)

end OpenObex
