import OpenObex.Model.Ircp

/-!
# The `ircp` client (`ircp_client.c`, `dirtraverse.c`)

The upload of a file or a directory. A request is what `cli_sync_request` makes of it, success or
failure. The path buffers of the traversal are arguments and results: `visit_dir` changes the one of
its caller.
-/

namespace OpenObex

open Files

inductive IrcpRequest
  /-- The flag `up` is in the non-header data, and without it `name` in a Name header. -/
  | setpath (up : Bool) (name : Name)
  | put (localname remotename : Name)
  deriving DecidableEq, Repr

/-- What the client gives to `infocb` while it uploads. -/
inductive IrcpClientInfo
  | sending
  | ok
  | err
  deriving DecidableEq, Repr

/-- `ircp_client_t`, the process it runs in, and the requests it has made, with their success. -/
structure IrcpClient where
  fd : Int
  sys : Sys
  requests : List (IrcpRequest × Bool)
  infos : List (IrcpClientInfo × Name)

structure IrcpWorld where
  os : Os
  /-- The names `readdir` yields, one after the other. -/
  readdir : Path → List Name
  /-- Whether a request succeeds, with those before it. -/
  peer : List (IrcpRequest × Bool) → IrcpRequest → Bool

abbrev IrcpClientM := EStateM Stop IrcpClient

def call {α : Type} (f : Sys → α × Sys) : IrcpClientM α := do
  let s ← get
  set { s with sys := (f s.sys).2 }
  pure (f s.sys).1

def info (event : IrcpClientInfo) (param : Name) : IrcpClientM Unit :=
  modify fun s => { s with infos := s.infos ++ [(event, param)] }

/-- What `strrchr(name, '/')` finds, without the slash; all of a name that has none. -/
def stripSlashes (name : Name) : Name := name.rtakeWhile (· ≠ slash)

/-- Do an OBEX request sync. -/
def cliSyncRequest (W : IrcpWorld) (object : IrcpRequest) : IrcpClientM Int := do
  let s ← get
  let success := W.peer s.requests object
  set { s with requests := s.requests ++ [(object, success)] }
  pure (if success then 1 else -1)

/-- Do an OBEX PUT. -/
def ircpPutFile (W : IrcpWorld) (localname remotename : Name) : IrcpClientM Int := do
  info .sending localname
  let fd ← call (openFile W.os localname)
  modify fun s => { s with fd := fd }
  let ret ← (if fd < 0 then pure (-1) else cliSyncRequest W (.put localname remotename))
  info (if ret < 0 then .err else .ok) localname
  pure ret

/-- Do OBEX SetPath. -/
def ircpSetpath (W : IrcpWorld) (name : Name) (up : Bool) : IrcpClientM Int :=
  cliSyncRequest W (.setpath up (if up then [] else name))

/-! ## The traversal (`dirtraverse.c`) -/

inductive VisitAction
  | file
  | goingDeeper
  | goingUp
  deriving DecidableEq, Repr

/-- Callback from dirtraverse. -/
def ircpVisit (W : IrcpWorld) (action : VisitAction) (name _path : Name) : IrcpClientM Int :=
  match action with
  | .file => ircpPutFile W name (stripSlashes name)
  | .goingDeeper => ircpSetpath W name false
  | .goingUp => ircpSetpath W [] true

/-- To a buffer of `MAXPATHLEN` bytes. -/
def strcat (dst src : Name) : IrcpClientM Name :=
  if dst.length + src.length < maxpathlen then pure (dst ++ src) else throw (.fault .outOfBounds)

section
variable (W : IrcpWorld) (cb : VisitAction → Name → Name → IrcpClientM Int)

/-- The loop of `visit_dir` over the entries; `descend` is the call of `visit_dir`. The result comes
with what is in the buffer `path` then. -/
def visitEntries (descend : Name → IrcpClientM (Int × Name)) :
    List Name → Name → Int → IrcpClientM (Int × Name)
  | [], path, ret => pure (ret, path)
  | dirent :: dirents, path, ret =>
    if dirent = dot ∨ dirent = dotdot then visitEntries descend dirents path ret
    else do
      let t := (path ++ slash :: dirent).take (maxpathlen - 1)
      match ← call (stat W.os t) with
      | none => pure (-1, path)
      | some .file => do
        let ret ← cb .file t []
        if ret < 0 then pure (ret, path)
        else visitEntries descend dirents path ret
      | some .dir => do
        let ret ← cb .goingDeeper dirent path
        if ret < 0 then pure (ret, path)
        else do
          let longer ← strcat path (slash :: dirent)
          let (ret, _) ← descend t
          if ret < 0 then pure (ret, longer)
          else do
            let ret ← cb .goingUp [] []
            if ret < 0 then pure (ret, longer)
            else visitEntries descend dirents (longer.take path.length) ret

/-- Read all files in a directory. Continue recursively down in directories, at most `n` levels. -/
def visitDir : Nat → Name → IrcpClientM (Int × Name)
  | 0, _ => throw .timeout
  | n + 1, path => do
    match ← call (opendir W.os W.readdir path) with
    | none => pure (-1, path)
    | some dirents => visitEntries W cb (visitDir n) dirents path 1

def visitAllFiles (n : Nat) (name : Name) : IrcpClientM Int := do
  match ← call (stat W.os name) with
  | none => pure (-1)
  | some .file => cb .file name []
  | some .dir => do
    let path := name.take (maxpathlen - 1)
    -- don't notify if going "down" to "."
    let ret ← (if name = dot then pure 1 else cb .goingDeeper name [])
    if ret < 0 then pure ret
    else do
      let (ret, _) ← visitDir W cb n path
      if ret < 0 then pure ret
      else cb .goingUp [] []

end

/-- Put file or directory. -/
def ircpPut (W : IrcpWorld) (n : Nat) (name : Name) : IrcpClientM Int := do
  match ← call (getcwd W.os) with
  | none => pure (-1)
  | some origdir => do
    match ← call (stat W.os name) with
    | none => pure (-1)
    | some kind => do
      let name ← (if kind = .dir then do
          let _ ← call (chdir W.os name)
          match ← call (getcwd W.os) with
          | none => throw (.fault .nullDeref)
          | some newrealdir => do
            let dirname := stripSlashes newrealdir
            let _ ← (if dirname.length ≠ 0 then ircpSetpath W dirname false else pure 0)
            pure dot
        else pure name)
      let ret ← visitAllFiles W (ircpVisit W) n name
      let _ ← call (chdir W.os origdir)
      pure ret

end OpenObex
