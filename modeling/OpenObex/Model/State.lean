import OpenObex.Lib.Wp
import OpenObex.Model.Databuffer

/-!
# The handle and its objects

`Obex` is `obex_t` together with the heap of objects its `object` pointer points into and the
`log` of what the application and the transport have seen. Library functions run in `M`: they read
and write the handle and may stop, with a fault (undefined behaviour of the C program), or because
the callback never comes back (`timeout`), or at a step the run is not about (`barred`).

What the library does not decide is in `Ctx`: which allocations succeed, what the transport's write
and read functions answer, and what the event callback does.
-/

namespace OpenObex

open Mem

/-! ## Constants (`obex_const.h`, `defines.h`, `obex_header.h`) -/

def obexHdrEmpty : UInt8 := 0x00
def obexHdrBody : UInt8 := 0x48
def obexHdrBodyEnd : UInt8 := 0x49
def obexHdrLength : UInt8 := 0xc3

def obexCmdConnect : UInt8 := 0x00
def obexCmdDisconnect : UInt8 := 0x01
def obexCmdSetpath : UInt8 := 0x05
def obexCmdAbort : UInt8 := 0x7f
def obexFinal : UInt8 := 0x80

def obexRspContinue : UInt8 := 0x10
def obexRspSuccess : UInt8 := 0x20
def obexRspBadRequest : UInt8 := 0x40
def obexRspInternalServerError : UInt8 := 0x50
def obexRspNotImplemented : UInt8 := 0x51

def obexVersion : UInt8 := 0x10

def obexDefaultMtu : Nat := 1024
def obexMinimumMtu : Nat := 255
def obexMaximumMtu : Nat := 65535

def obexObjectAllocationtreshold : Nat := 10240

/-- `sizeof(struct obex_header_element)` and `sizeof(struct obex_object)`. -/
def sizeofHeaderElement : Nat := 32
def sizeofObject : Nat := 120

/-- The two bits of a header identifier that give the type of its value (`OBEX_HI_MASK`). -/
inductive HiType
  | unicode
  | byteStream
  | byte
  | int
  deriving DecidableEq, Repr

def hiType (hi : UInt8) : HiType :=
  if hi &&& 0xc0 = 0x00 then .unicode
  else if hi &&& 0xc0 = 0x40 then .byteStream
  else if hi &&& 0xc0 = 0x80 then .byte
  else .int

/-! ## C integers -/

/-- Conversion to `uint16_t`, `unsigned int`, `size_t` and `int`. -/
def u16 (x : Int) : Nat := (x % 65536).toNat
def u32 (x : Int) : Nat := (x % 4294967296).toNat
def sizeT (x : Int) : Nat := (x % 18446744073709551616).toNat
def i32 (x : Int) : Int := (x + 2147483648) % 4294967296 - 2147483648

/-! ## Objects -/

abbrev Ptr := Nat

/-- The `flags` of `OBEX_ObjectAddHeader`. -/
structure Flags where
  fitOnePacket : Bool := false
  streamStart : Bool := false
  streamData : Bool := false
  streamDataend : Bool := false
  suspend : Bool := false
  deriving DecidableEq, Repr

/-- `obex_headerdata_t`; the code reads one member of the union. -/
structure HeaderData where
  bq4 : UInt32 := 0
  bq1 : UInt8 := 0
  bs : Option Bytes := none
  deriving DecidableEq, Repr

structure HeaderElement where
  addr : Ptr
  buf : Option Buf
  hi : UInt8
  flags : Flags
  length : Nat
  bodyTouched : Bool
  stream : Bool

instance : Addressed HeaderElement := ⟨HeaderElement.addr⟩

structure ObexObject where
  txHeaderq : List HeaderElement
  rxHeaderq : List HeaderElement
  rxHeaderqRm : List HeaderElement
  rxBody : Option Buf
  txNonhdrData : Option Buf
  rxNonhdrData : Option Buf
  cmd : UInt8
  opcode : UInt8
  lastopcode : UInt8
  headeroffset : Nat
  hintedBodyLen : Int
  totallen : Int
  abort : Bool
  checked : Bool
  suspend : Bool
  continueReceived : Bool
  firstPacketSent : Bool
  sBuf : Option Bytes
  sLen : Nat
  sOffset : Nat
  sStop : Bool
  sSrv : Bool

/-! ## The log -/

inductive Mode
  | srv
  | cli
  deriving DecidableEq, Repr

inductive State
  | idle
  | start
  | send
  | recv
  deriving DecidableEq, Repr

inductive Event
  | progress
  | reqhint
  | req
  | reqdone
  | linkerr
  | parseerr
  | abort
  | streamempty
  | streamavail
  | unexpected
  | reqcheck
  deriving DecidableEq, Repr

/-- The arguments of the event callback; `data` is the stream fragment (`s_buf`, `s_len`) of an
`OBEX_EV_STREAMAVAIL`. -/
structure Notice where
  mode : Mode
  object : Option Ptr
  event : Event
  cmd : UInt8
  rsp : UInt8
  data : Option (Option Bytes × Nat)
  deriving DecidableEq, Repr

/-- How the opcode of a packet was chosen: by `obex_response_request`, or by `obex_object_send` with
headers left in the queue, with the final command not allowed yet, or as the last packet. -/
inductive PacketKind
  | response
  | more
  | pending
  | last
  deriving DecidableEq, Repr

inductive Obs
  /-- The callback is called. -/
  | event (n : Notice)
  /-- A packet is handed to `obex_transport_write`; `object` is the one `obex_object_send` sends. -/
  | write (object : Option Ptr) (kind : PacketKind) (packet : Bytes)
  /-- The transport's write function is called on `chunk` and returns `result`. -/
  | io (chunk : Bytes) (result : Int)
  /-- The transport's read function is called. -/
  | read (result : Option Bytes)
  /-- A whole packet is dispatched. -/
  | recv (packet : Bytes)
  /-- `OBEX_Request` makes `object` the current one. -/
  | request (object : Ptr)
  /-- The application denied a request whose final packet has not arrived. -/
  | denied
  deriving DecidableEq, Repr

/-! ## The handle -/

inductive TransportType
  | irda
  | inet
  | custom
  | bluetooth
  | fd
  | usb
  deriving DecidableEq, Repr

structure Transport where
  type : TransportType
  connected : Bool
  mtu : Nat

structure Obex where
  mtuTx : Nat
  mtuRx : Nat
  mtuTxMax : Nat
  mode : Mode
  state : State
  txMsg : Buf
  rxMsg : Buf
  object : Option Ptr
  trans : Transport
  objects : Ptr → Option ObexObject
  fresh : Ptr
  log : List Obs

namespace Obex

def setObject (s : Obex) (p : Ptr) (o : Option ObexObject) : Obex :=
  { s with objects := fun q => if q = p then o else s.objects q }

def emit (s : Obex) (x : Obs) : Obex := { s with log := s.log ++ [x] }

def setState (s : Obex) (mode : Mode) (state : State) : Obex := { s with mode, state }

def setTxMsg (s : Obex) (b : Buf) : Obex := { s with txMsg := b }

def setRxMsg (s : Obex) (b : Buf) : Obex := { s with rxMsg := b }

end Obex

/-! ## Computations -/

inductive Fault
  /-- `self->object` is dereferenced while it is null. -/
  | nullObject
  /-- Another null pointer is dereferenced. -/
  | nullDeref
  /-- A pointer to a deleted object, a freed element or a moved block is used. -/
  | dangling
  /-- An access outside an allocation. -/
  | outOfBounds
  /-- A failed `assert`. -/
  | assertion
  deriving DecidableEq, Repr

inductive Stop
  | fault (f : Fault)
  | timeout
  | barred
  deriving DecidableEq, Repr

abbrev M := EStateM Stop Obex

/-- `read valid max` asks for `max` bytes; `valid` tells whether the address to read to is one.
`recv` is no part of the library: it notes that a whole packet is dispatched. -/
structure Ctx where
  malloc : Nat → Bool
  write : Bytes → M Int
  read : Bool → Nat → M (Option Bytes)
  recv : M Unit
  eventcb : Notice → M Unit
  fuel : Nat

def fault {α : Type} (f : Fault) : M α := throw (.fault f)

/-- The value of `x`, or the fault `f`. -/
def require {α : Type} (f : Fault) : Option α → M α
  | some a => pure a
  | none => fault f

/-- The object at `p`. -/
def deref (p : Ptr) : M ObexObject := do
  let s ← get
  require .dangling (s.objects p)

def update (p : Ptr) (f : ObexObject → ObexObject) : M Unit := do
  let o ← deref p
  modify fun s => s.setObject p (some (f o))

/-- `if (c) m;` -/
def when (c : Prop) [Decidable c] (m : M Unit) : M Unit := if c then m else pure ()

/-- `self->object`, about to be dereferenced. -/
def selfObject : M Ptr := do
  let s ← get
  require .nullObject s.object

def alloc : M Ptr := do
  let s ← get
  set { s with fresh := s.fresh + 1 }
  pure s.fresh

def emit (x : Obs) : M Unit := modify fun s => s.emit x

/-- `buf_insert_end(self->tx_msg, data, size)`. -/
def txInsertEnd (C : Ctx) (data : Bytes) : M Unit := do
  let s ← get
  let b ← require .assertion (bufInsertEnd C.malloc s.txMsg data)
  set (s.setTxMsg b)

/-- The bytes of `p` at `data + off`. -/
def peek (p : Buf) (off n : Nat) : M Bytes := require .outOfBounds (bufPeek p off n)

def byteAt (p : Buf) (off : Nat) : M UInt8 := do
  match ← peek p off 1 with
  | [b] => pure b
  | _ => fault .outOfBounds

/-- `size` bytes at `bs + offset`, a buffer of the application. -/
def copyFrom (bs : Option Bytes) (offset size : Nat) : M Bytes :=
  match bs with
  | none => if size = 0 then pure [] else fault .nullDeref
  | some b => if offset + size ≤ b.length then pure (slice b offset size) else fault .outOfBounds

end OpenObex
