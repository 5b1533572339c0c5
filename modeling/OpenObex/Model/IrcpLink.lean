import OpenObex.Model.IrcpClient

/-!
# The two `ircp` programs at one link

What the library makes of a request of the client at the server's callback, and the response it sends
back. This is written down again from `obex_server`, not derived from `Model.Server`: no packet is built
or parsed here. A file comes as its packets cut the stream, which is up to the link. The events the
program does nothing with (`OBEX_EV_PROGRESS`, `OBEX_EV_REQCHECK`) are left out.
-/

namespace OpenObex

open Files Mem

/-- The server's system, and what the body headers of a PUT hold, packet by packet. The library keeps
an empty one from the program. `took` is how many bytes a `write` stores after what the program has
done: none if it fails. The program does not look at its result. -/
structure IrcpLink where
  os : Os
  took : List IrcpAct → Bytes → Nat
  packets : Name → List (List Bytes)
  /-- Of the last packet, where the stream ends. -/
  rest : Name → List Bytes
  full : ∀ localname, ∀ piece ∈ (packets localname).flatten ++ rest localname, piece ≠ []

/-- All of the file. -/
def IrcpLink.content (L : IrcpLink) (localname : Name) : Bytes :=
  ((L.packets localname).flatten ++ L.rest localname).flatten

def IrcpAct.response : IrcpAct → Option (UInt8 × UInt8)
  | .setRsp cmd lastrsp => some (cmd, lastrsp)
  | _ => none

/-- The response the program has set, for a packet in between and for the last one. -/
def responseSet (acts : List IrcpAct) : Option (UInt8 × UInt8) :=
  (acts.filterMap IrcpAct.response).getLast?

/-- `obex_server` goes on with the next packet. -/
def goesOn (acts : List IrcpAct) : Bool :=
  match responseSet acts with
  | some (cmd, _) => cmd &&& 0x7f &&& 0xf0 == 0x10 || cmd &&& 0x7f &&& 0xf0 == 0x20
  | none => false

/-- The flags and the constants are in front of the headers. -/
def setpathObject (up : Bool) (name : Name) : IrcpObject where
  nonhdrData := [if up then 1 else 0, 0]
  headers := if up then [] else [(obexHdrName, some name)]
  stream := some []

/-- As `build_object_from_file` adds them. -/
def putHeaders (remotename : Name) : List (UInt8 × Option Name) :=
  [(obexHdrName, some remotename), (obexHdrLength, none)]

namespace IrcpLink

variable (L : IrcpLink)

/-- A piece of the stream, or its end; the result are the headers still to be read. -/
def streamPiece (headers : List (UInt8 × Option Name)) (piece : Bytes) :
    IrcpM (List (UInt8 × Option Name)) := do
  let s ← get
  srvObexEvent L.os ⟨.streamavail, 0, ⟨[], headers, some piece⟩⟩
  -- `new_file` reads all of them
  pure (if s.fd < 0 then [] else headers)

def streamPieces : List (UInt8 × Option Name) → List Bytes → IrcpM (List (UInt8 × Option Name))
  | headers, [] => pure headers
  | headers, piece :: pieces => do
    let headers ← L.streamPiece headers piece
    streamPieces headers pieces

/-- The packets of a PUT, with what the program did before the first one. A response that refuses the
request ends it. -/
def putPackets (before : Nat) (rest : List Bytes) :
    List (UInt8 × Option Name) → List (List Bytes) → IrcpM Unit
  | headers, [] => do
    let headers ← L.streamPieces headers (rest ++ [[]])
    srvObexEvent L.os ⟨.req, obexCmdPut, ⟨[], headers, some []⟩⟩
  | headers, packet :: packets => do
    let headers ← L.streamPieces headers packet
    let s ← get
    if goesOn (s.acts.drop before) then putPackets before rest headers packets else pure ()

/-- What `obex_server` delivers for a request. -/
def requestEvents : IrcpRequest → IrcpM Unit
  | .setpath up name => do
    srvObexEvent L.os ⟨.reqhint, obexCmdSetpath, ⟨[], [], some []⟩⟩
    srvObexEvent L.os ⟨.req, obexCmdSetpath, setpathObject up name⟩
    srvObexEvent L.os ⟨.reqdone, obexCmdSetpath, ⟨[], [], some []⟩⟩
  | .put localname remotename => do
    let s ← get
    srvObexEvent L.os ⟨.reqhint, obexCmdPut, ⟨[], [], some []⟩⟩
    L.putPackets s.acts.length (L.rest localname) (putHeaders remotename) (L.packets localname)
    srvObexEvent L.os ⟨.reqdone, obexCmdPut, ⟨[], [], some []⟩⟩

/-- Whether the client gets `OBEX_RSP_SUCCESS`. Nobody answers when `ircp_srv_sync_wait` has
returned. -/
def serveRequest (request : IrcpRequest) : IrcpM Bool := do
  let s ← get
  if s.finished then pure false
  else do
    L.requestEvents request
    let s' ← get
    pure ((responseSet (s'.acts.drop s.acts.length)).map Prod.snd == some obexRspSuccess)

/-- The program does not stop. -/
def serve (request : IrcpRequest) (s : IrcpServer) : Bool × IrcpServer :=
  match L.serveRequest request s with
  | .ok granted s' => (granted, s')
  | .error e _ => e.elim

def serveAll (requests : List IrcpRequest) (s : IrcpServer) : IrcpServer :=
  requests.foldl (fun s request => (L.serve request s).2) s

/-- The server, which was in `s` at the first request, as the client's peer. -/
def peer (s : IrcpServer) (e : List (IrcpRequest × Bool)) (request : IrcpRequest) : Bool :=
  (L.serve request (L.serveAll (e.map Prod.fst) s)).1

end IrcpLink

/-- What the `write`s among these acts have stored, which come after the first ones. -/
def IrcpLink.stored (L : IrcpLink) : List IrcpAct → List IrcpAct → Bytes
  | _, [] => []
  | before, .write fd body :: acts => body.take (L.took before body) ++ L.stored
    (before ++ [.write fd body]) acts
  | before, a :: acts => L.stored (before ++ [a]) acts

/-- The files a request brings: what it has created, with what is stored there. -/
def IrcpLink.brings (L : IrcpLink) (request : IrcpRequest) (s : IrcpServer) : List (Path × Bytes) :=
  match request with
  | .setpath _ _ => []
  | .put _ _ =>
    let s' := (L.serve request s).2
    (s'.sys.created.drop s.sys.created.length).map fun p =>
    (p, L.stored s.acts (s'.acts.drop s.acts.length))

/-- The files that have come with the requests. -/
def IrcpLink.inbox (L : IrcpLink) : List IrcpRequest → IrcpServer → List (Path × Bytes)
  | [], _ => []
  | request :: requests, s => L.brings request s ++ L.inbox requests (L.serve request s).2

end OpenObex
