import OpenObex.Model.Server

/-!
# Incoming data and cancelling (`obex_main.c`)

`buf` and `buflen` are the data fed by a custom transport, `none` and 0 when a socket is to be read.
Both are moved past the first read, which leaves no null pointer after a positive count.
-/

namespace OpenObex

open Mem

/-- `buf += actual` -/
def advance (buf : Option Bytes) (actual : Int) : Option Bytes :=
  match buf with
  | none => if actual = 0 then none else some []
  | some b => some (b.drop actual.toNat)

/-- A whole packet goes to the side whose mode the handle is in. -/
def dispatch (C : Ctx) (final : Bool) : M Int := do
  C.recv
  let s ← get
  let ret ← (match s.mode with
    | .srv => obexServer C final
    | .cli => obexClient C true)
  modify fun s => s.setRxMsg (bufReuse s.rxMsg)
  pure (if ret < 0 then ret else s.rxMsg.dataSize)

/-- The link is down. -/
def linkError (C : Ctx) (actual : Int) : M Int := do
  obexDeliverEvent C .linkerr 0 0 true
  pure actual

/-- The part of `obex_data_indication` after the common header is there. The opcode is read through
the pointer taken before the second read, which is dangling if that moved the buffer. -/
def indicationRest (C : Ctx) (buf : Option Bytes) (buflen : Int) : M Int := do
  let s ← get
  let size := ofBe16 (← byteAt s.rxMsg 1) (← byteAt s.rxMsg 2)
  let down ← (if s.rxMsg.dataSize < size then do
      let actual ← obexTransportRead C (size - s.rxMsg.dataSize) (buf.getD []) buflen
      pure (if buf = none ∧ buflen = 0 ∧ actual ≤ 0 then some actual else none)
    else pure none)
  match down with
  | some actual => linkError C actual
  | none => do
    let s' ← get
    if s'.rxMsg.dataSize < size then pure s'.rxMsg.dataSize
    else if s'.rxMsg.buffer.length ≠ s.rxMsg.buffer.length then fault .dangling
    else do
      let opcode ← byteAt s'.rxMsg 0
      dispatch C (opcode &&& obexFinal ≠ 0)

def obexDataIndication (C : Ctx) (buf : Option Bytes) (buflen : Int) : M Int := do
  let s ← get
  if s.rxMsg.dataSize < 3 then do
    let actual ← obexTransportRead C (3 - s.rxMsg.dataSize) (buf.getD []) buflen
    if buf = none ∧ buflen = 0 ∧ actual ≤ 0 then linkError C actual
    else do
      let s ← get
      if 3 ≤ s.rxMsg.dataSize then indicationRest C (advance buf actual) (buflen - actual)
      else pure actual
  else indicationRest C buf buflen

def obexCancelrequest (C : Ctx) (nice : Bool) : M Int := do
  let s ← get
  if s.object.isNone then pure 0
  else if ¬ nice then do
    obexDeliverEvent C .abort 0 0 true
    modify fun s => s.setTxMsg (bufReuse s.txMsg)
    modify fun s => s.setRxMsg (bufReuse s.rxMsg)
    obexDeliverEvent C .linkerr 0 0 false
    pure 1
  else
    match ← obexObjectNew C with
    | none => pure (-1)
    | some object => do
      update object fun o => obexObjectSetcmd o obexCmdAbort obexCmdAbort
      let ret ← obexObjectSend C object true true
      if ret < 0 then do
        let _ ← obexObjectDelete (some object)
        pure (-1)
      else do
        let _ ← obexObjectDelete (some object)
        updateCurrent fun o => { o with abort := true }
        setState .cli .recv
        pure 0

end OpenObex
