import OpenObex.Model.State

/-!
# Header encoders (`obex_header.c`, `obex_connect.c`)

Each encoder reserves space at the end of a buffer, stores the header there and returns its length.
-/

namespace OpenObex

open Mem

/-- Reserve `size` bytes at the end of `msg` and store `d` in them. -/
def reserveAndStore (C : Ctx) (msg : Buf) (size : Nat) (d : Bytes) : M Buf := do
  let (msg, hdr) ← require .nullDeref (bufReserveEnd C.malloc msg size)
  require .outOfBounds (bufPoke msg hdr d)

def insertUintHeader (C : Ctx) (msg : Buf) (identifier : UInt8) (value : UInt32) : M (Buf × Int) := do
  let msg ← reserveAndStore C msg 5 (identifier :: be32 value.toNat)
  pure (msg, 5)

def insertUbyteHeader (C : Ctx) (msg : Buf) (identifier value : UInt8) : M (Buf × Int) := do
  let msg ← reserveAndStore C msg 2 [identifier, value]
  pure (msg, 2)

/-- A header with a two-byte length: `size` is an `int`, the sum with the three bytes in front a
`size_t`. `failed` is what happens when the space cannot be reserved. -/
def insertHvHeader (C : Ctx) (msg : Buf) (opcode : UInt8) (text : Option Bytes) (size : Int)
    (failed : M (Buf × Int)) : M (Buf × Int) :=
  if text.isNone ∧ size ≠ 0 then pure (msg, -1)
  else
    match bufReserveEnd C.malloc msg (sizeT (size + 3)) with
    | none => failed
    | some (msg, hdr) => do
      let hv ← copyFrom text 0 (sizeT size)
      let msg ← require .outOfBounds (bufPoke msg hdr (opcode :: be16 (u16 (size + 3)) ++ hv))
      pure (msg, i32 (size + 3))

def insertUnicodeHeader (C : Ctx) (msg : Buf) (opcode : UInt8) (text : Option Bytes) (size : Int) :
    M (Buf × Int) :=
  insertHvHeader C msg opcode text size (fault .nullDeref)

def insertByteStreamHeader (C : Ctx) (msg : Buf) (opcode : UInt8) (stream : Option Bytes)
    (size : Int) : M (Buf × Int) :=
  insertHvHeader C msg opcode stream size (pure (msg, 0))

/-! ## Connect -/

def obexInsertConnectframe (C : Ctx) (object : Ptr) : M Int :=
  match bufNew C.malloc 4 with
  | none => do
    update object fun o => { o with txNonhdrData := none }
    pure (-1)
  | some b => do
    let s ← get
    let b ← reserveAndStore C b 4 (obexVersion :: 0x00 :: be16 s.mtuRx)
    update object fun o => { o with txNonhdrData := some b }
    pure 0

/-- Parsing goes beyond the common header only if the packet is a success or a connect. -/
def obexParseConnectHeader : M Int := do
  let s ← get
  let msg := s.rxMsg
  let opcode ← byteAt msg 0
  if opcode ≠ obexRspSuccess ||| obexFinal ∧ opcode ≠ obexCmdConnect ||| obexFinal then
    pure 1
  else if 7 ≤ msg.dataSize then do
    let mtu := ofBe16 (← byteAt msg 5) (← byteAt msg 6)
    set { s with mtuTx := if mtu < s.mtuTxMax then mtu else s.mtuTxMax }
    pure 1
  else
    pure (-1)

end OpenObex
