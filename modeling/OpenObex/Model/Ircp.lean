import OpenObex.Lib.Files
import OpenObex.Model.State

/-!
# The `ircp` server (`ircp_server.c`, `ircp_io.c`)

The server is a process in a file system without symbolic links. The library appears as the events
it delivers, each with what `OBEX_ObjectGetNonHdrData`, `OBEX_ObjectGetNextHeader` and
`OBEX_ObjectReadStream` yield of the object at that time. Strings are without their terminator.
-/

namespace OpenObex

open Files Mem

def obexHdrName : UInt8 := 0x01

def obexCmdPut : UInt8 := 0x02

def obexRspForbidden : UInt8 := 0x43

/-- `MAXPATHLEN` -/
def maxpathlen : Nat := pathMax

/-- The `IRCP_EV_*` the server gives to `infocb`. -/
inductive IrcpInfo
  | errmsg
  | ok
  | err
  | listening
  | connectind
  | disconnectind
  | receiving
  deriving DecidableEq, Repr

inductive IrcpAct
  /-- `OBEX_ObjectSetRsp` -/
  | setRsp (cmd lastrsp : UInt8)
  /-- `OBEX_ObjectReadStream` without a buffer, which turns streaming on. -/
  | streamOn
  | infocb (event : IrcpInfo) (param : Name)
  | write (fd : Int) (body : Bytes)
  | close (fd : Int)
  deriving DecidableEq, Repr

/-- `ircp_server_t`, the process it runs in, and what it has done apart from system calls on paths. -/
structure IrcpServer where
  finished : Bool
  success : Bool
  inbox : Name
  fd : Int
  dirdepth : Int
  sys : Sys
  acts : List IrcpAct

abbrev IrcpM := EStateM Empty IrcpServer

def system {α : Type} (call : Sys → α × Sys) : IrcpM α := do
  let s ← get
  set { s with sys := (call s.sys).2 }
  pure (call s.sys).1

def act (a : IrcpAct) : IrcpM Unit := modify fun s => { s with acts := s.acts ++ [a] }

/-- What an event callback finds in its object. -/
structure IrcpObject where
  nonhdrData : Bytes
  /-- The headers still to be read. A Unicode one comes with the string `OBEX_UnicodeToChar` leaves in
  the buffer for it, and with nothing if there is no memory for the buffer. -/
  headers : List (UInt8 × Option Name)
  /-- The data of the stream, nothing after an error. -/
  stream : Option Bytes

structure IrcpEvent where
  event : Event
  cmd : UInt8
  object : IrcpObject

/-! ## Input and output (`ircp_io.c`) -/

/-- Check for dangerous filenames: `../../vmlinuz`, `dir/../../../vmlinuz`. -/
def ircpNameok (name : Name) : Bool :=
  if name.head? = some slash then false
  else if 3 ≤ name.length then
    if dotdot ++ [slash] <+: name then false
    else if [slash] ++ dotdot ++ [slash] <:+: name then false
    else true
  else true

/-- `_XXXXXX` -/
def uniqueTail : Name := 95 :: List.replicate 6 88

/-- The file is created, never overwritten; if there is one, another name is found for it. -/
def ircpOpenSafe (os : Os) (path name : Name) : IrcpM Int :=
  if ircpNameok name = false then pure (-1)
  else do
    let path := if path = [] then dot else path
    let diskname := path ++ slash :: name
    if maxpathlen ≤ diskname.length then pure (-1)
    else do
      let fd ← system (create os diskname)
      let template := path ++ slash :: (name ++ uniqueTail)
      if fd < 0 ∧ template.length < maxpathlen then system (mkstemp os template)
      else pure fd

/-- `cd_flags` -/
structure CdFlags where
  create : Bool := false
  allowabs : Bool := false

/-- `newpath` is cut to the buffer. `strncpy` leaves it without a terminator where it fills it, and
the system refuses what is in it then. -/
def ircpCheckdir (os : Os) (path dir : Name) (flags : CdFlags) : IrcpM Int :=
  if ¬ flags.allowabs ∧ ircpNameok dir = false then pure (-1)
  else do
    let newpath := if path ≠ [] then (path ++ slash :: dir).take (maxpathlen - 1) else dir.take
      maxpathlen
    match ← system (stat os newpath) with
    | some .dir => pure 1
    | some .file => pure (-1)
    | none =>
      if flags.create then do
        let made ← system (mkdir os newpath)
        pure (if made then 0 else -1)
      else pure (-1)

/-! ## The server (`ircp_server.c`) -/

/-- `name` after the loop over the headers. -/
def nameOf (headers : List (UInt8 × Option Name)) : Option Name :=
  headers.foldl (fun name h => if h.1 = obexHdrName then h.2 else name) none

def setpathUp (os : Os) : IrcpM Int := do
  let s ← get
  if s.dirdepth = 0 then pure (-1)
  else if ← system (chdir os dotdot) then do
    modify fun s => { s with dirdepth := i32 (s.dirdepth - 1) }
    pure 1
  else pure (-1)

def setpathRoot (os : Os) : IrcpM Int := do
  let s ← get
  if ← system (chdir os s.inbox) then do
    modify fun s => { s with dirdepth := 0 }
    pure 1
  else pure (-1)

def setpathDown (os : Os) (name : Name) : IrcpM Int := do
  if (← ircpCheckdir os [] name { create := true }) < 0 then pure (-1)
  else if ← system (chdir os name) then do
    modify fun s => { s with dirdepth := i32 (s.dirdepth + 1) }
    pure 1
  else pure (-1)

/-- Change the current directory after some sanity-checking. -/
def ircpSrvSetpath (os : Os) (object : IrcpObject) : IrcpM Int :=
  match object.nonhdrData with
  | [flags, _] => do
    let ret ← (if flags &&& 1 ≠ 0 then setpathUp os
      else match nameOf object.headers with
        | none => pure (-1)
        | some name => if name = [] then setpathRoot os else setpathDown os name)
    if ret < 0 then act (.setRsp obexRspForbidden obexRspForbidden)
    pure ret
  | _ => pure (-1)

/-- Open a file for receiving. -/
def newFile (os : Os) (object : IrcpObject) : IrcpM Int :=
  match nameOf object.headers with
  | none => do
    act (.setRsp obexRspBadRequest obexRspBadRequest)
    act (.infocb .err [])
    pure (-1)
  | some name => do
    act (.infocb .receiving name)
    let fd ← ircpOpenSafe os [] name
    modify fun s => { s with fd := fd }
    pure fd

/-- What has come of a file goes to the disk. -/
def saveStream (object : IrcpObject) : IrcpM Unit := do
  let s ← get
  match object.stream with
  | none => pure ()
  | some [] => do
    act (.close s.fd)
    modify fun s => { s with fd := -1 }
    act (.infocb .ok [])
  | some body => act (.write s.fd body)

def ircpSrvReceive (os : Os) (object : IrcpObject) (finished : Bool) : IrcpM Int := do
  let s ← get
  let refused ← (if s.fd < 0 ∧ finished = false then do
      let ret ← newFile os object
      pure (decide (ret < 0))
    else pure false)
  if refused then pure 1
  else if finished then pure 1
  else do
    let s ← get
    if 0 < s.fd then do
      saveStream object
      pure 1
    else pure (-1)

/-- `srv->finished = TRUE; srv->success = success;` -/
def finish (success : Bool) : IrcpM Unit :=
  modify fun s => { s with finished := true, success := success }

def srvRequest (os : Os) (e : IrcpEvent) : IrcpM Int :=
  if e.cmd = obexCmdConnect then do
    act (.infocb .connectind [])
    pure 1
  else if e.cmd = obexCmdDisconnect then do
    act (.infocb .disconnectind [])
    pure 1
  else if e.cmd = obexCmdPut then ircpSrvReceive os e.object true
  else if e.cmd = obexCmdSetpath then ircpSrvSetpath os e.object
  else pure 1

def srvRequestHint (e : IrcpEvent) : IrcpM Unit :=
  if e.cmd = obexCmdPut then do
    act (.setRsp obexRspContinue obexRspSuccess)
    act .streamOn
  else if e.cmd = obexCmdSetpath ∨ e.cmd = obexCmdConnect ∨ e.cmd = obexCmdDisconnect then
    act (.setRsp obexRspContinue obexRspSuccess)
  else act (.setRsp obexRspNotImplemented obexRspNotImplemented)

def srvObexEvent (os : Os) (e : IrcpEvent) : IrcpM Unit :=
  match e.event with
  | .streamavail => do
    let _ ← ircpSrvReceive os e.object false
  | .req => do
    let ret ← srvRequest os e
    if ret < 0 then finish false
  | .reqhint => srvRequestHint e
  | .reqdone => if e.cmd = obexCmdDisconnect then finish true else pure ()
  | .linkerr => finish false
  | _ => pure ()

/-- `ircp_srv_recv` up to its loop over the events. `registered` says whether the transport listens. -/
def ircpSrvEnter (os : Os) (inbox : Name) (registered : Bool) : IrcpM Bool := do
  if (← ircpCheckdir os [] inbox { allowabs := true }) < 0 then do
    act (.infocb .errmsg "Specified desination directory does not exist.".toUTF8.toList)
    pure false
  else if ← system (chdir os inbox) then do
    modify fun s => { s with dirdepth := 0 }
    if registered then do
      act (.infocb .listening [])
      modify fun s => { s with inbox := inbox }
      pure true
    else pure false
  else pure false

end OpenObex
