import OpenObex.Model.State

/-!
# The USB descriptors (`usbutils.c`, `usbobex.c`, `usb1obex.c`)

The two walks over the class-specific descriptors of an interface. The library is handed a block of
bytes and its length; a pointer into the block is the offset it has there, which need not lie inside.
`usbobex.c` and `usb1obex.c` have the same `find_obex_data_interface`.
-/

namespace OpenObex

open Mem

/-- `char`, which is signed on x86. -/
def char (b : UInt8) : Int := b.toInt8.toInt

/-- `unsigned char` -/
def unsignedChar (b : UInt8) : Int := b.toNat

def cdcUnionType : Int := 0x06

def cdcObexServiceIdType : Int := 0x19

def usbDtCsInterface : Int := 0x24

def wmcDefaultObexServerUuid : Bytes :=
  [0x02, 0xae, 0xb3, 0x20, 0xf6, 0x49, 0x11, 0xda, 0x97, 0x4d, 0x08, 0x00, 0x20, 0x0c, 0x9a, 0x66]

/-- `obex_usb_intf_service_t` -/
structure ObexUsbIntfService where
  role : UInt8
  uuid : Bytes
  version : UInt16
  isDefaultUuid : Bool
  deriving DecidableEq, Repr

/-- The byte at offset `i`. -/
def loadByte (block : Bytes) (i : Int) : Except Stop UInt8 :=
  match i with
  | .ofNat i => match block[i]? with
    | some b => .ok b
    | none => .error (.fault .outOfBounds)
  | .negSucc _ => .error (.fault .outOfBounds)

/-- What `memcpy` reads: the `n` bytes at offset `i`. -/
def loadBytes (block : Bytes) (i : Int) (n : Nat) : Except Stop Bytes :=
  match i with
  | .ofNat i => if i + n ≤ block.length then .ok (slice block i n) else .error (.fault .outOfBounds)
  | .negSucc _ => .error (.fault .outOfBounds)

/-- What the loop of both walks makes of a descriptor. `elem` is the element type of `buffer` and
`visit` the `switch`, with the value it is about; the other branch is `goto next_desc`. -/
def descSwitch {σ : Type} (elem : UInt8 → Int) (visit : Int → Int → Int → σ → Except Stop σ)
    (block : Bytes) (buffer buflen : Int) (st : σ) : Except Stop σ := do
  let descType ← loadByte block (buffer + 1)
  if elem descType ≠ usbDtCsInterface then return st
  else
    let subType ← loadByte block (buffer + 2)
    visit buffer buflen (elem subType) st

/-- The loop of both walks, for at most `n` rounds. -/
def descLoop {σ : Type} (elem : UInt8 → Int) (visit : Int → Int → Int → σ → Except Stop σ)
    (block : Bytes) : Nat → Int → Int → σ → Except Stop σ
  | 0, _, _, _ => .error .timeout
  | n + 1, buffer, buflen, st =>
    if buflen > 0 then do
      let st ← descSwitch elem visit block buffer buflen st
      -- next_desc:
      let length ← loadByte block buffer
      descLoop elem visit block n (buffer + elem length) (buflen - elem length) st
    else .ok st

/-! ## The service -/

/-- `*service`, and how often `malloc` has been called. -/
structure ServiceSearch where
  mallocs : Nat
  service : Option ObexUsbIntfService
  deriving DecidableEq, Repr

/-- `(buffer[20]<<8)|(buffer[21])`, stored into a `uint16_t`. -/
def serviceVersion (high low : UInt8) : UInt16 :=
  (high.toInt8.toInt32 <<< 8 ||| low.toInt8.toInt32).toUInt32.toUInt16

def readService (block : Bytes) (buffer : Int) : Except Stop ObexUsbIntfService := do
  let role ← loadByte block (buffer + 3)
  let uuid ← loadBytes block (buffer + 4) 16
  let high ← loadByte block (buffer + 20)
  let low ← loadByte block (buffer + 21)
  return {
    role, uuid
    version := serviceVersion high low
    isDefaultUuid := uuid == wmcDefaultObexServerUuid }

def visitServiceDescriptor (malloc : Nat → Bool) (block : Bytes) (buffer buflen subType : Int)
    (st : ServiceSearch) : Except Stop ServiceSearch :=
  if subType = cdcObexServiceIdType then
    if buflen < 22 then .ok st
    else if st.service.isSome then .ok st
    else if malloc st.mallocs then do
      let service ← readService block buffer
      return { mallocs := st.mallocs + 1, service := some service }
    else .ok { st with mallocs := st.mallocs + 1 }
  else .ok st

/-- `find_obex_service_descriptor`, which yields `*service`. -/
def findObexServiceDescriptor (malloc : Nat → Bool) (buffer : Option Bytes) (buflen : Int)
    (service : Option ObexUsbIntfService) (n : Nat) : Except Stop (Option ObexUsbIntfService) :=
  match buffer with
  | none => .ok service
  | some block =>
    (descLoop char (visitServiceDescriptor malloc block) block n 0 buflen { mallocs := 0, service }).map
    (·.service)

/-! ## The data interface -/

structure UsbEndpointDescriptor where
  bEndpointAddress : UInt8
  bmAttributes : UInt8
  deriving DecidableEq, Repr

/-- `bNumEndpoints` is the length of `endpoint`. -/
structure UsbInterfaceDescriptor where
  bInterfaceNumber : UInt8
  bAlternateSetting : UInt8
  iInterface : UInt8
  endpoint : List UsbEndpointDescriptor
  deriving DecidableEq, Repr

/-- The part of `struct obex_usb_intf_transport_t` that is filled in here. -/
structure ObexUsbIntfTransport where
  dataInterface : Int
  dataIdleSetting : Int
  dataInterfaceIdleDescription : Int
  dataActiveSetting : Int
  dataInterfaceActiveDescription : Int
  dataEndpointRead : Int
  dataEndpointWrite : Int
  deriving DecidableEq, Repr

def UsbEndpointDescriptor.isIn (ep : UsbEndpointDescriptor) : Bool := ep.bEndpointAddress &&& 0x80 != 0

def UsbEndpointDescriptor.isBulk (ep : UsbEndpointDescriptor) : Bool := ep.bmAttributes &&& 0x03 == 2

/-- The interface, `found_active` and `found_idle`. -/
abbrev FoundEps := ObexUsbIntfTransport × Bool × Bool

def useEps (dataIntf : UsbInterfaceDescriptor) (read write : UsbEndpointDescriptor) (found : FoundEps) :
    FoundEps :=
  ({ found.1 with
      dataActiveSetting := dataIntf.bAlternateSetting.toNat
      dataInterfaceActiveDescription := dataIntf.iInterface.toNat
      dataEndpointRead := read.bEndpointAddress.toNat
      dataEndpointWrite := write.bEndpointAddress.toNat }, true, found.2.2)

def findEps (dataIntf : UsbInterfaceDescriptor) (found : FoundEps) : FoundEps :=
  match dataIntf.endpoint with
  | [ep0, ep1] =>
    let found :=
      if ep0.isIn && ep0.isBulk && !ep1.isIn && ep1.isBulk then useEps dataIntf ep0 ep1 found
      else found
    if !ep0.isIn && ep0.isBulk && ep1.isIn && ep1.isBulk then useEps dataIntf ep1 ep0 found else found
  | [] =>
    ({ found.1 with
        dataIdleSetting := dataIntf.bAlternateSetting.toNat
        dataInterfaceIdleDescription := dataIntf.iInterface.toNat }, found.2.1, true)
  | _ => found

/-- `union_header` is the offset of the union descriptor. -/
def visitUnionDescriptor (buffer _buflen subType : Int) (unionHeader : Option Int) :
    Except Stop (Option Int) :=
  if subType = cdcUnionType then
    match unionHeader with
    | some header => .ok (some header)
    | none => .ok (some buffer)
  else .ok unionHeader

def einval : Int := 22

def enodev : Int := 19

/-- `find_obex_data_interface` behind the loop: the active and idle settings of the slave interface.
`interface` has the alternate settings of every interface. -/
def useUnionHeader (block : Bytes) (interface : List (List UsbInterfaceDescriptor))
    (intf : ObexUsbIntfTransport) :
    Option Int → Except Stop (Int × ObexUsbIntfTransport)
  | none => .ok (-enodev, intf)
  | some unionHeader => do
    let slave ← loadByte block (unionHeader + 4)
    let (intf, foundActive, foundIdle) := interface.flatten.foldl
      (fun found altsetting =>
        if (altsetting.bInterfaceNumber.toNat : Int) = found.1.dataInterface then findEps
          altsetting found
        else found)
      ({ intf with dataInterface := slave.toNat }, false, false)
    return (if !foundIdle || !foundActive then -enodev else 0, intf)

/-- `find_obex_data_interface` -/
def findObexDataInterface (buffer : Option Bytes) (buflen : Int)
    (interface : List (List UsbInterfaceDescriptor)) (intf : ObexUsbIntfTransport) (n : Nat) :
    Except Stop (Int × ObexUsbIntfTransport) :=
  match buffer with
  | none => .ok (-einval, intf)
  | some block => do
    let unionHeader ← descLoop unsignedChar visitUnionDescriptor block n 0 buflen none
    useUnionHeader block interface intf unionHeader

end OpenObex
