import OpenObex.Model.IrcpLink
import OpenObex.Proof.Ircp
import OpenObex.Proof.Mirror

/-!
# A request at the `ircp` server

What one request of the client does to the server, whatever its system calls do. A SETPATH moves it by
one level or stops it (`Enters`, `Leaves`). A PUT brings the whole file (`Saved`) or nothing (`Lost`):
when the file cannot be opened the program has read its name, and the next piece of the stream has none.
Only an empty file has no next piece, and its PUT is granted all the same.
-/

namespace OpenObex

open Files Mem Prog

variable {L : IrcpLink} {os : Os} {s s' : IrcpServer} {name : Name} {E : Empty → IrcpServer → Prop}

/-! ## What has been done -/

/-- What the program relies on and does not check: no descriptor is 0, which it takes for no file, and
every `write` stores all it is given. -/
structure IrcpLink.Reliable (L : IrcpLink) : Prop where
  pos : ∀ k, 0 < L.os.fd k
  whole : ∀ acts body, body.length ≤ L.took acts body

/-- What the program has given to `write`. -/
def written : List IrcpAct → Bytes
  | [] => []
  | .write _ body :: acts => body ++ written acts
  | _ :: acts => written acts

theorem IrcpLink.Reliable.stored (hL : L.Reliable) (before acts : List IrcpAct) :
    L.stored before acts = written acts := by
  induction acts generalizing before with
  | nil => rfl
  | cons a acts ih =>
    cases a with
    | write fd body =>
      show body.take (L.took before body) ++ L.stored _ acts = body ++ written acts
      rw [List.take_of_length_le (hL.whole before body), ih]
    | _ => exact ih _

theorem written_append (xs ys : List IrcpAct) : written (xs ++ ys) = written xs ++ written ys := by
  induction xs with
  | nil => rfl
  | cons x xs ih =>
    cases x with
    | write fd body =>
      show body ++ written (xs ++ ys) = body ++ written xs ++ written ys
      rw [ih, List.append_assoc]
    | _ => exact ih

theorem written_writes (fd : Int) (pieces : List Bytes) :
    written (pieces.map (.write fd)) = pieces.flatten := by
  induction pieces with
  | nil => rfl
  | cons piece pieces ih =>
    show piece ++ written (pieces.map (.write fd)) = _
    rw [ih, List.flatten_cons]

theorem responseSet_append (xs ys : List IrcpAct) :
    responseSet (xs ++ ys) = (responseSet ys).or (responseSet xs) := by
  unfold responseSet
  rw [List.filterMap_append, List.getLast?_append]

theorem responseSet_writes (xs : List IrcpAct) (fd : Int) (pieces : List Bytes) :
    responseSet (xs ++ pieces.map (.write fd)) = responseSet xs := by
  have hnone : (pieces.map (IrcpAct.write fd)).filterMap IrcpAct.response = [] := by
    rw [List.filterMap_eq_nil_iff]
    intro a ha
    obtain ⟨piece, -, rfl⟩ := List.mem_map.1 ha
    rfl
  rw [responseSet_append]
  unfold responseSet
  rw [hnone]
  rfl

theorem wp_serve {r : IrcpRequest} {Q : Bool → IrcpServer → Prop}
    (h : wp (L.serveRequest r) Q (fun _ _ => False) s) : Q (L.serve r s).1 (L.serve r s).2 := by
  unfold IrcpLink.serve
  cases hr : L.serveRequest r s with
  | ok granted s' => exact wp_ok h hr
  | error e _ => exact e.elim

/-! ## Opening a file -/

/-- The name asked for, or one `mkstemp` has made of it. -/
def Named (name name' : Name) : Prop :=
  name' = name ∨ ∃ six, six.length = 6 ∧ slash ∉ six ∧ name' = name ++ 95 :: six

/-- There is room for the name in the current directory, and the system does what it is asked. -/
structure Vacant (os : Os) (sys : Sys) (name : Name) : Prop where
  willing : ∀ k, os.deny k = false
  free : sys.tree.node sys.cwd = some .dir ∧ sys.tree.node (sys.cwd ++ [name]) = none
  short : (dot ++ slash :: name).length < pathMax

theorem ircpNameok_plain (hslash : slash ∉ name) : ircpNameok name = true := by
  have hpre : ¬ dotdot ++ [slash] <+: name := fun h => hslash (h.subset (by decide))
  have hinf : ¬ [slash] ++ dotdot ++ [slash] <:+: name := fun h => hslash (h.subset (by decide))
  unfold ircpNameok
  rw [if_neg (head_name hslash)]
  by_cases hlen : 3 ≤ name.length
  · rw [if_pos hlen, if_neg hpre, if_neg hinf]
  · rw [if_neg hlen]

theorem template_cut (six : Name) : (dot ++ slash :: (name ++ uniqueTail)).take
    ((dot ++ slash :: (name ++ uniqueTail)).length - 6) ++ six = dot ++ slash ::
    (name ++ 95 :: six) := by
  have hsplit : dot ++ slash :: (name ++ uniqueTail) = (dot ++ slash :: (name ++ [95])) ++
    List.replicate 6 88 := by
    simp only [uniqueTail, List.append_assoc, List.cons_append, List.nil_append]
  rw [hsplit, List.length_append, List.length_replicate, Nat.add_sub_cancel, List.take_left]
  simp only [List.append_assoc, List.cons_append, List.nil_append]

/-- A new file or none. -/
theorem wp_openSafe (hplain : Plain name) (hslash : slash ∉ name) {Q : Int → IrcpServer → Prop}
    (hmade : ∀ k name' sys', Named name name' → (Vacant os s.sys name → name' = name) →
      s.sys.Adds name' .file sys' → Q (os.fd k) { s with sys := sys' })
    (hno : ∀ sys', ¬ Vacant os s.sys name → s.sys.Same sys' → Q (-1) { s with sys := sys' }) :
    wp (ircpOpenSafe os [] name) Q E s := by
  unfold ircpOpenSafe
  rw [if_neg (by rw [ircpNameok_plain hslash]; exact Bool.noConfusion)]
  simp only [if_true]
  by_cases hlong : maxpathlen ≤ (dot ++ slash :: name).length
  · rw [if_pos hlong, wp_pure]
    exact hno s.sys (fun h => Nat.not_le.2 h.short hlong) ⟨rfl, rfl, rfl⟩
  · rw [if_neg hlong, wp_bind, wp_system]
    have hshort : (dot ++ slash :: name).length < pathMax := Nat.not_le.1 hlong
    have hfree : Vacant os s.sys name → (create os (dot ++ slash :: name) s.sys).1 =
      os.fd s.sys.clock := fun h =>
      create_free (place_dotName hplain hslash hshort h.free.1) (h.willing _) h.free
    rcases create_here os (here_dotName (s := s.sys) hslash) with ⟨hfd, hadds⟩ | ⟨hfd, hsame⟩
    · rw [hfd, if_neg (fun hn => by omega), wp_pure]
      exact hmade _ name _ (.inl rfl) (fun _ => rfl) hadds
    · have hfull : ¬ Vacant os s.sys name := fun h => by
        have heq := hfree h
        omega
      rw [hfd, wp_ite]
      refine ⟨fun _ => ?_, fun _ => hno _ hfull hsame⟩
      obtain ⟨hlen, hsix⟩ := os.suffix_plain (create os (dot ++ slash :: name) s.sys).2.clock
      have hslash' : slash ∉ name ++ 95 :: os.suffix
        (create os (dot ++ slash :: name) s.sys).2.clock := by
        intro hm
        rcases List.mem_append.1 hm with hm | hm
        · exact hslash hm
        · rcases List.mem_cons.1 hm with he | hm
          · exact absurd he (by decide)
          · exact hsix hm
      rw [wp_system, mkstemp, template_cut]
      rcases create_here os (here_dotName (s := (create os (dot ++ slash :: name) s.sys).2) hslash')
        with ⟨hfd', hadds⟩ | ⟨hfd', hsame'⟩
      · rw [hfd']
        exact hmade _ _ _ (.inr ⟨_, hlen, hsix, rfl⟩) (fun h => absurd h hfull) (hsame.adds hadds)
      · rw [hfd']
        exact hno _ hfull (hsame.trans hsame')

/-! ## A piece of the stream -/

variable {headers : List (UInt8 × Option Name)} {piece : Bytes} {pieces : List Bytes}
  {Q : List (UInt8 × Option Name) → IrcpServer → Prop}

theorem wp_streamPiece_write (hfd : 0 < s.fd) (hpiece : piece ≠ []) :
    wp (L.streamPiece headers piece) Q E s ↔
      Q headers { s with acts := s.acts ++ [.write s.fd piece] } := by
  have hopen : ¬ s.fd < 0 := by omega
  obtain ⟨b, bs, rfl⟩ := List.exists_cons_of_ne_nil hpiece
  simp [IrcpLink.streamPiece, srvObexEvent, ircpSrvReceive, saveStream, hopen, hfd]

theorem wp_streamPiece_end (hfd : 0 < s.fd) :
    wp (L.streamPiece headers []) Q E s ↔
      Q headers { s with fd := -1, acts := s.acts ++ [.close s.fd, .infocb .ok []] } := by
  have hopen : ¬ s.fd < 0 := by omega
  simp [IrcpLink.streamPiece, srvObexEvent, ircpSrvReceive, saveStream, hopen, hfd]

theorem wp_streamPiece_lost (hfd : s.fd < 0) :
    wp (L.streamPiece [] piece) Q E s ↔
      Q [] { s with
        acts := s.acts ++ [.setRsp obexRspBadRequest obexRspBadRequest, .infocb .err []] } := by
  simp [IrcpLink.streamPiece, srvObexEvent, ircpSrvReceive, newFile, nameOf, hfd]

/-- The file is opened, and the piece goes to it, or it is not. -/
theorem wp_streamPiece_open (hfd : s.fd < 0) (hplain : Plain name) (hslash : slash ∉ name)
    (hmade : ∀ k name' sys', Named name name' → (Vacant L.os s.sys name → name' = name) →
      s.sys.Adds name' .file sys' → wp (L.streamPiece [] piece) Q E
        { s with sys := sys', fd := L.os.fd k, acts := s.acts ++ [.infocb .receiving name] })
    (hno : ∀ sys', ¬ Vacant L.os s.sys name → s.sys.Same sys' →
      Q [] { s with sys := sys', fd := -1, acts := s.acts ++ [.infocb .receiving name] }) :
    wp (L.streamPiece (putHeaders name) piece) Q E s := by
  have hname : nameOf (putHeaders name) = some name := rfl
  unfold IrcpLink.streamPiece
  rw [wp_bind, wp_get, wp_bind]
  show wp (ircpSrvReceive L.os ⟨[], putHeaders name, some piece⟩ false >>= _) _ _ _
  unfold ircpSrvReceive newFile
  dsimp only
  rw [wp_bind, wp_bind, wp_get, wp_bind, if_pos ⟨hfd, rfl⟩, wp_bind, hname]
  dsimp only
  rw [wp_bind, wp_act, wp_bind]
  refine wp_openSafe hplain hslash ?_ ?_
  · intro k name' sys' hnamed hsame hadds
    have hopen : ¬ (L.os.fd k : Int) < 0 := by omega
    have hwrite := hmade k name' sys' hnamed hsame hadds
    unfold IrcpLink.streamPiece at hwrite
    rw [wp_bind, wp_get, wp_bind] at hwrite
    replace hwrite : wp (ircpSrvReceive L.os ⟨[], [], some piece⟩ false >>= _) _ _ _ := hwrite
    unfold ircpSrvReceive at hwrite
    have hsave : saveStream ⟨[], putHeaders name, some piece⟩ = saveStream ⟨[], [], some piece⟩ := rfl
    simpa [hopen, hfd, hsave] using hwrite
  · intro sys' hfull hsame
    simpa [hfd] using hno sys' hfull hsame

/-! ## The packets of a PUT -/

theorem wp_streamPieces_write (hfd : 0 < s.fd) (hfull : ∀ piece ∈ pieces, piece ≠ []) :
    wp (L.streamPieces headers pieces) Q E s ↔
      Q headers { s with acts := s.acts ++ pieces.map (.write s.fd) } := by
  induction pieces generalizing s with
  | nil =>
    rw [List.map_nil, List.append_nil]
    exact Iff.rfl
  | cons piece pieces ih =>
    rw [IrcpLink.streamPieces, wp_bind, wp_streamPiece_write hfd (hfull piece List.mem_cons_self),
      ih (s := { s with acts := s.acts ++ [.write s.fd piece] }) hfd
        fun p hp => hfull p (List.mem_cons_of_mem _ hp), List.append_assoc]
    rfl

theorem wp_streamPieces_append {xs ys : List Bytes} :
    wp (L.streamPieces headers (xs ++ ys)) Q E s ↔
      wp (L.streamPieces headers xs) (fun hs s' => wp (L.streamPieces hs ys) Q E s') E s := by
  induction xs generalizing s headers with
  | nil => exact Iff.rfl
  | cons x xs ih =>
    rw [List.cons_append, IrcpLink.streamPieces, IrcpLink.streamPieces, wp_bind, wp_bind]
    exact ⟨fun h => wp_conseq h fun _ _ h' => ih.1 h', fun h => wp_conseq h fun _ _ h' => ih.2 h'⟩

theorem wp_putRequest {Q : Unit → IrcpServer → Prop} :
    wp (srvObexEvent L.os ⟨.req, obexCmdPut, ⟨[], headers, some []⟩⟩) Q E s ↔ Q () s := by
  have hput : obexCmdPut ≠ obexCmdConnect ∧ obexCmdPut ≠ obexCmdDisconnect := by decide
  simp [srvObexEvent, srvRequest, ircpSrvReceive, hput.1, hput.2]

/-- `OBEX_RSP_CONTINUE` and then `OBEX_RSP_SUCCESS`, and what is set without a name. -/
def acceptance : UInt8 × UInt8 := (obexRspContinue, obexRspSuccess)
def refusal : UInt8 × UInt8 := (obexRspBadRequest, obexRspBadRequest)

theorem goesOn_acceptance {acts : List IrcpAct} (h : responseSet acts = some acceptance) :
    goesOn acts = true := by
  unfold goesOn
  rw [h]
  rfl

/-- The rest of the file is written. -/
theorem wp_putPackets_write {before : Nat} {rest : List Bytes} {packets : List (List Bytes)}
    (hfd : 0 < s.fd) (hfull : ∀ piece ∈ packets.flatten ++ rest, piece ≠ [])
    (hset : responseSet (s.acts.drop before) = some acceptance) (hbefore : before ≤ s.acts.length)
    {Q : Unit → IrcpServer → Prop}
    (hq : Q () { s with fd := -1, acts := s.acts ++ ((packets.flatten ++ rest).map (.write s.fd) ++
      [.close s.fd, .infocb .ok []]) }) :
    wp (L.putPackets before rest headers packets) Q E s := by
  induction packets generalizing s with
  | nil =>
    rw [List.flatten_nil, List.nil_append] at hfull hq
    rw [IrcpLink.putPackets, wp_bind, wp_streamPieces_append, wp_streamPieces_write hfd hfull]
    show wp (L.streamPiece headers [] >>= _) _ _ _
    rw [wp_bind, wp_streamPiece_end (s := { s with acts := s.acts ++ rest.map (.write s.fd) }) hfd,
      IrcpLink.streamPieces, wp_pure, wp_putRequest]
    dsimp only
    rwa [List.append_assoc]
  | cons packet packets ih =>
    rw [List.flatten_cons, List.append_assoc] at hfull
    have hpacket : ∀ piece ∈ packet, piece ≠ [] := fun p hp => hfull p (List.mem_append_left _ hp)
    rw [IrcpLink.putPackets, wp_bind, wp_streamPieces_write hfd hpacket, wp_bind, wp_get]
    have hset' : responseSet ((s.acts ++ packet.map (IrcpAct.write s.fd)).drop before) =
      some acceptance := by
      rw [List.drop_append_of_le_length hbefore, responseSet_writes, hset]
    rw [if_pos (goesOn_acceptance hset')]
    refine ih hfd (fun p hp => hfull p (List.mem_append_right _ hp)) hset' ?_ ?_
    · rw [List.length_append]
      omega
    · rw [List.flatten_cons, List.append_assoc, List.map_append, List.append_assoc] at hq
      rwa [List.append_assoc]

/-- What the program does for a piece without a name. -/
def lostActs (n : Nat) : List IrcpAct :=
  (List.replicate n [.setRsp obexRspBadRequest obexRspBadRequest, .infocb .err []]).flatten

theorem written_lostActs (n : Nat) : written (lostActs n) = [] := by
  unfold lostActs
  induction n with
  | zero => rfl
  | succ n ih => exact ih

theorem responseSet_lostActs (xs : List IrcpAct) {n : Nat} (hn : 0 < n) :
    responseSet (xs ++ lostActs n) = some refusal := by
  obtain ⟨m, rfl⟩ : ∃ m, n = m + 1 := ⟨n - 1, by omega⟩
  have hlast : lostActs (m + 1) = lostActs m ++ [.setRsp obexRspBadRequest obexRspBadRequest,
    .infocb .err []] := by
    unfold lostActs
    rw [List.replicate_succ', List.flatten_concat]
  rw [hlast, ← List.append_assoc, responseSet_append]
  rfl

theorem refused_lostActs {xs : List IrcpAct} {before n : Nat} (hbefore : before ≤ xs.length)
    (hn : 0 < n) :
    responseSet ((xs ++ lostActs n).drop before) = some refusal := by
  rw [List.drop_append_of_le_length hbefore]
  exact responseSet_lostActs _ hn

theorem lostActs_add (m n : Nat) : lostActs m ++ lostActs n = lostActs (m + n) := by
  unfold lostActs
  rw [← List.flatten_append, List.replicate_append_replicate]

theorem lostActs_zero (xs : List IrcpAct) : xs ++ lostActs 0 = xs := List.append_nil xs

theorem wp_streamPieces_lost (hfd : s.fd < 0) :
    wp (L.streamPieces [] pieces) Q E s ↔ Q [] { s with acts := s.acts ++ lostActs pieces.length } := by
  induction pieces generalizing s with
  | nil =>
    show Q [] s ↔ Q [] { s with acts := s.acts ++ [] }
    rw [List.append_nil]
  | cons piece pieces ih =>
    rw [IrcpLink.streamPieces, wp_bind, wp_streamPiece_lost hfd]
    refine (ih (s := { s with acts := s.acts ++ lostActs 1 }) hfd).trans ?_
    dsimp only
    rw [List.append_assoc, lostActs_add, Nat.add_comm]
    rfl

/-- The rest of the stream is refused. -/
theorem wp_putPackets_lost {before : Nat} {rest : List Bytes} {packets : List (List Bytes)}
    (hfd : s.fd < 0) (hset : responseSet (s.acts.drop before) = some acceptance ∨
    responseSet (s.acts.drop before) = some refusal) (hbefore : before ≤ s.acts.length)
      {Q : Unit → IrcpServer → Prop}
    (hq : ∀ n, responseSet ((s.acts ++ lostActs n).drop before) = some refusal →
      Q () { s with acts := s.acts ++ lostActs n }) :
    wp (L.putPackets before rest [] packets) Q E s := by
  induction packets generalizing s with
  | nil =>
    rw [IrcpLink.putPackets, wp_bind, wp_streamPieces_lost hfd, wp_putRequest]
    refine hq _ (refused_lostActs hbefore ?_)
    rw [List.length_append]
    exact Nat.succ_pos _
  | cons packet packets ih =>
    rw [IrcpLink.putPackets, wp_bind, wp_streamPieces_lost hfd, wp_bind, wp_get]
    have hset' : responseSet ((s.acts ++ lostActs packet.length).drop before) = some acceptance ∨
        responseSet ((s.acts ++ lostActs packet.length).drop before) = some refusal := by
      rcases Nat.eq_zero_or_pos packet.length with hlen | hlen
      · rw [hlen]
        show responseSet ((s.acts ++ []).drop before) = _ ∨ responseSet ((s.acts ++ []).drop before) = _
        rwa [List.append_nil]
      · exact .inr (refused_lostActs hbefore hlen)
    by_cases hon : goesOn ((s.acts ++ lostActs packet.length).drop before) = true
    · rw [if_pos hon]
      refine ih (s := { s with acts := s.acts ++ lostActs packet.length }) hfd hset' ?_ ?_
      · rw [List.length_append]
        omega
      · intro n hn
        rw [List.append_assoc, lostActs_add] at hn ⊢
        exact hq _ hn
    · rw [if_neg hon, wp_pure]
      refine hq _ ?_
      rcases hset' with h | h
      · exact absurd (goesOn_acceptance h) hon
      · exact h

/-- The file is opened when the first piece comes, or all the pieces are lost. -/
theorem wp_streamPieces_open (hfd : s.fd < 0) (hplain : Plain name) (hslash : slash ∉ name)
    (hmade : ∀ k name' sys', Named name name' → (Vacant L.os s.sys name → name' = name) →
      s.sys.Adds name' .file sys' → wp (L.streamPieces [] (piece :: pieces)) Q E
        { s with sys := sys', fd := L.os.fd k, acts := s.acts ++ [.infocb .receiving name] })
    (hno : ∀ sys', ¬ Vacant L.os s.sys name → s.sys.Same sys' →
      Q [] { s with
        sys := sys', fd := -1
        acts := s.acts ++ [.infocb .receiving name] ++ lostActs pieces.length }) :
    wp (L.streamPieces (putHeaders name) (piece :: pieces)) Q E s := by
  rw [IrcpLink.streamPieces, wp_bind]
  refine wp_streamPiece_open hfd hplain hslash ?_ ?_
  · intro k name' sys' hnamed hsame hadds
    have hwrite := hmade k name' sys' hnamed hsame hadds
    rwa [IrcpLink.streamPieces, wp_bind] at hwrite
  · intro sys' hfull hsame
    have hneg : (-1 : Int) < 0 := by decide
    exact (wp_streamPieces_lost hneg).2 (hno sys' hfull hsame)

/-- The same for all packets. -/
theorem wp_putPackets_open {before : Nat} {rest : List Bytes} {packets : List (List Bytes)}
    (hfd : s.fd < 0) (hplain : Plain name) (hslash : slash ∉ name)
    (hset : responseSet (s.acts.drop before) = some acceptance) (hbefore : before ≤ s.acts.length)
    {Q : Unit → IrcpServer → Prop} (hmade : ∀ k name' sys', Named name name' →
      (Vacant L.os s.sys name → name' = name) →
      s.sys.Adds name' .file sys' → wp (L.putPackets before rest [] packets) Q E
        { s with sys := sys', fd := L.os.fd k, acts := s.acts ++ [.infocb .receiving name] })
    (hno : ∀ sys' n, ¬ Vacant L.os s.sys name → s.sys.Same sys' →
      responseSet ((s.acts ++ [IrcpAct.infocb .receiving name] ++ lostActs n).drop before) =
        some refusal ∨
        packets.flatten ++ rest = [] ∧ n = 0 →
      Q () { s with
        sys := sys', fd := -1, acts := s.acts ++ [.infocb .receiving name] ++ lostActs n }) :
    wp (L.putPackets before rest (putHeaders name) packets) Q E s := by
  have hnegative : (-1 : Int) < 0 := by decide
  have hlen : before ≤ (s.acts ++ [IrcpAct.infocb .receiving name]).length := by
    rw [List.length_append]
    omega
  have haccepted : responseSet ((s.acts ++ [IrcpAct.infocb .receiving name]).drop before) =
    some acceptance := by
    rw [List.drop_append_of_le_length hbefore, responseSet_append, hset]
    rfl
  -- the file is opened by the first packet that brings a piece; empty packets before it are skipped
  induction packets with
  | nil =>
    rw [IrcpLink.putPackets, wp_bind]
    obtain ⟨piece, pieces, hpieces⟩ :=
      List.exists_cons_of_ne_nil (List.append_ne_nil_of_right_ne_nil rest
      (List.cons_ne_nil [] []))
    rw [hpieces]
    refine wp_streamPieces_open hfd hplain hslash ?_ ?_
    · intro k name' sys' hnamed hsame hadds
      have hwrite := hmade k name' sys' hnamed hsame hadds
      rwa [IrcpLink.putPackets, wp_bind, hpieces] at hwrite
    · intro sys' hfull hsame
      rw [wp_putRequest]
      refine hno sys' _ hfull hsame ?_
      cases rest with
      | nil =>
        obtain ⟨-, rfl⟩ := List.cons_eq_cons.1 hpieces
        exact .inr ⟨rfl, rfl⟩
      | cons r rest =>
        obtain ⟨-, rfl⟩ := List.cons_eq_cons.1 hpieces
        exact .inl (refused_lostActs hlen
          (List.length_pos_of_ne_nil (List.append_ne_nil_of_right_ne_nil rest
          (List.cons_ne_nil [] []))))
  | cons packet packets ih =>
    rw [IrcpLink.putPackets, wp_bind]
    cases packet with
    | nil =>
      rw [IrcpLink.streamPieces, wp_pure, wp_bind, wp_get, if_pos (goesOn_acceptance hset)]
      refine ih ?_ hno
      intro k name' sys' hnamed hsame hadds
      have hwrite := hmade k name' sys' hnamed hsame hadds
      rw [IrcpLink.putPackets, wp_bind, IrcpLink.streamPieces, wp_pure, wp_bind, wp_get] at hwrite
      rwa [if_pos (goesOn_acceptance haccepted)] at hwrite
    | cons piece pieces =>
      refine wp_streamPieces_open hfd hplain hslash ?_ ?_
      · intro k name' sys' hnamed hsame hadds
        have hwrite := hmade k name' sys' hnamed hsame hadds
        rwa [IrcpLink.putPackets, wp_bind] at hwrite
      · intro sys' hfull hsame
        rw [wp_bind, wp_get]
        dsimp only
        rcases Nat.eq_zero_or_pos pieces.length with hzero | hpos
        · rw [hzero, lostActs_zero, if_pos (goesOn_acceptance haccepted)]
          refine wp_putPackets_lost hnegative (.inl haccepted) hlen fun n hset' => ?_
          exact hno sys' n hfull hsame (.inl hset')
        · -- the pieces behind the first one find no name any more and refuse the request
          have hset' := refused_lostActs hlen hpos
          by_cases hgo : goesOn
              ((s.acts ++ [IrcpAct.infocb .receiving name] ++ lostActs pieces.length).drop
                before) = true
          · rw [if_pos hgo]
            refine wp_putPackets_lost hnegative (.inr hset') ?_ fun n hset' => ?_
            · rw [List.length_append]
              omega
            · dsimp only
              rw [List.append_assoc (s.acts ++ [_]), lostActs_add] at hset' ⊢
              exact hno sys' _ hfull hsame (.inl hset')
          · rw [if_neg hgo, wp_pure]
            exact hno sys' _ hfull hsame (.inl hset')

/-! ## A whole PUT -/

/-- What a request leaves alone. -/
structure Untouched (s s' : IrcpServer) : Prop where
  finished : s'.finished = s.finished
  inbox : s'.inbox = s.inbox
  depth : s'.dirdepth = s.dirdepth

/-- The file has come, whole, under its name or a new one. -/
structure Saved (os : Os) (s s' : IrcpServer) (name : Name) (body : Bytes) : Prop where
  sys : ∃ name', Named name name' ∧ (Vacant os s.sys name → name' = name) ∧
    s.sys.Adds name' .file s'.sys
  fd : s'.fd < 0
  others : Untouched s s'
  acts : ∃ xs, s'.acts = s.acts ++ xs ∧ written xs = body

/-- No file has come. -/
structure Lost (os : Os) (s s' : IrcpServer) (name : Name) : Prop where
  full : ¬ Vacant os s.sys name
  sys : s.sys.Same s'.sys
  fd : s'.fd < 0
  others : Untouched s s'
  acts : ∃ xs, s'.acts = s.acts ++ xs ∧ written xs = []

theorem wp_serve_put (hfinished : s.finished = false) (hfd : s.fd < 0) (hplain : Plain name)
    (hslash : slash ∉ name) (hL : L.Reliable) (localname : Name) :
    wp (L.serveRequest (.put localname name)) (fun granted s' =>
      (granted = true ∧ Saved L.os s s' name (L.content localname)) ∨
        (Lost L.os s s' name ∧ (granted = true → L.content localname = []))) E s := by
  have hhint : ∀ (Q : Unit → IrcpServer → Prop), Q () { s with acts := s.acts ++ [
      .setRsp obexRspContinue obexRspSuccess, .streamOn] } →
      wp (srvObexEvent L.os ⟨.reqhint, obexCmdPut, ⟨[], [], some []⟩⟩) Q E s := by
    intro Q hq
    show Q () { s with acts := s.acts ++ [_] ++ [_] }
    rwa [List.append_assoc]
  have hdone : ∀ (Q : Unit → IrcpServer → Prop) (t : IrcpServer),
      wp (srvObexEvent L.os ⟨.reqdone, obexCmdPut, ⟨[], [], some []⟩⟩) Q E t ↔ Q () t :=
        fun _ _ => Iff.rfl
  have hdrop : ∀ xs, (s.acts ++ [IrcpAct.setRsp obexRspContinue obexRspSuccess, .streamOn] ++ xs).drop
    s.acts.length =
      [.setRsp obexRspContinue obexRspSuccess, .streamOn] ++ xs := by
    intro xs
    rw [List.append_assoc, List.drop_left]
  unfold IrcpLink.serveRequest IrcpLink.requestEvents
  rw [wp_bind, wp_get, hfinished, if_neg Bool.false_ne_true, wp_bind]
  dsimp only
  rw [wp_bind, wp_get, wp_bind]
  refine hhint _ ?_
  have hset := hdrop []
  rw [List.append_nil, List.append_nil] at hset
  rw [wp_bind]
  refine wp_putPackets_open
    (s := { s with acts := s.acts ++ [.setRsp obexRspContinue obexRspSuccess, .streamOn] })
    hfd hplain hslash (by rw [hset]; rfl) ?_ ?_ ?_
  · rw [List.length_append]
    omega
  · intro k name' sys' hnamed hsame hadds
    -- a file has been made, and everything is written to it
    have hopen : (0 : Int) < L.os.fd k := Int.natCast_pos.2 (hL.pos k)
    refine wp_putPackets_write hopen (L.full localname) ?_ ?_ ?_
    · rw [hdrop]
      rfl
    · rw [List.length_append, List.length_append]
      omega
    · rw [hdone, wp_bind, wp_get]
      dsimp only
      rw [wp_pure, List.append_assoc _ [IrcpAct.infocb .receiving name], hdrop]
      refine .inl ⟨?_, ⟨name', hnamed, hsame, hadds⟩, (by decide : (-1 : Int) < 0), ⟨rfl, rfl, rfl⟩, _,
        List.append_assoc _ _ _, ?_⟩
      · rw [← List.append_assoc, ← List.append_assoc, responseSet_append, responseSet_writes]
        rfl
      · rw [written_append, written_append, written_append, written_writes]
        exact List.append_nil _
  · intro sys' n hfull hsame hlost
    rw [hdone, wp_bind, wp_get]
    dsimp only
    rw [wp_pure, List.append_assoc _ [IrcpAct.infocb .receiving name], hdrop]
    rw [List.append_assoc _ [IrcpAct.infocb .receiving name], hdrop] at hlost
    refine .inr ⟨⟨hfull, hsame, (by decide : (-1 : Int) < 0), ⟨rfl, rfl, rfl⟩, _,
      List.append_assoc _ _ _, ?_⟩, ?_⟩
    · rw [written_append, written_append, written_lostActs]
      rfl
    · intro hgranted
      -- the request is granted all the same only where the client has no data
      rcases hlost with hlost | ⟨hempty, -⟩
      · rw [hlost] at hgranted
        exact absurd hgranted (by decide)
      · unfold IrcpLink.content
        rw [hempty]
        rfl

/-! ## A SETPATH -/

/-- One level down, into a directory that was there or is new, or the end of the program. -/
structure Enters (os : Os) (s s' : IrcpServer) (granted : Bool) (name : Name) : Prop where
  cwd : s'.sys.cwd = if granted then s.sys.cwd ++ [name] else s.sys.cwd
  depth : s'.dirdepth = if granted then i32 (s.dirdepth + 1) else s.dirdepth
  finished : s'.finished = !granted
  fd : s'.fd = s.fd
  tree : s.sys.tree ≤ s'.sys.tree
  vacant : Vacant os s.sys name → granted = true ∧ ∃ sys, s.sys.Adds name .dir sys ∧
    s'.sys.tree = sys.tree

/-- One level up, or the end of the program. -/
structure Leaves (os : Os) (s s' : IrcpServer) (granted : Bool) : Prop where
  cwd : s'.sys.cwd = if granted then s.sys.cwd.dropLast else s.sys.cwd
  depth : s'.dirdepth = if granted then i32 (s.dirdepth - 1) else s.dirdepth
  inside : granted = true → s.dirdepth ≠ 0
  finished : s'.finished = !granted
  fd : s'.fd = s.fd
  tree : s'.sys.tree = s.sys.tree
  willing : (∀ k, os.deny k = false) → s.sys.tree.node s.sys.cwd = some .dir → s.dirdepth ≠ 0 →
    granted = true

theorem stat_free (hvacant : Vacant os s.sys name) (hplain : Plain name) (hslash : slash ∉ name) :
    (stat os name s.sys).1 = none := by
  have hres : s.sys.resolve name = none := by
    unfold Sys.resolve Sys.origin
    rw [if_neg (head_name hslash), components_name hslash]
    split_ifs
    · show (s.sys.tree.enter s.sys.cwd name).bind _ = none
      unfold Tree.enter
      rw [if_pos hvacant.free.1, if_neg (not_or.2 ⟨hplain.1, hplain.2.1⟩), if_neg hplain.2.2, if_neg (by
        rw [hvacant.free.2]
        exact Bool.false_ne_true)]
      rfl
    · rfl
  unfold stat
  dsimp only
  rw [hres]
  split_ifs <;> rfl

/-- The directory is there, or it has been made. -/
theorem wp_checkdir_name (hplain : Plain name) (hslash : slash ∉ name)
    (hshort : (dot ++ slash :: name).length < pathMax) {Q : Int → IrcpServer → Prop}
    (hq : ∀ ret sys', s.sys.Same sys' ∨ s.sys.Adds name .dir sys' →
      (Vacant os s.sys name → 0 ≤ ret ∧ s.sys.Adds name .dir sys') → Q ret { s with sys := sys' }) :
    wp (ircpCheckdir os [] name { create := true }) Q E s := by
  have hlen : name.length < pathMax := by
    rw [List.length_append, List.length_cons] at hshort
    omega
  have htake : name.take maxpathlen = name := List.take_of_length_le (Nat.le_of_lt hlen)
  unfold ircpCheckdir
  rw [if_neg (by rw [ircpNameok_plain hslash]; simp), if_neg (fun h => h rfl), htake, wp_bind,
    wp_system]
  cases hstat : (stat os name s.sys).1 with
  | some k =>
    have hfull : ¬ Vacant os s.sys name := by
      intro h
      rw [stat_free h hplain hslash] at hstat
      cases hstat
    cases k with
    | dir => exact hq _ _ (.inl (Sys.Same.tick s.sys)) fun h => absurd h hfull
    | file => exact hq _ _ (.inl (Sys.Same.tick s.sys)) fun h => absurd h hfull
  | none =>
    show wp (system (mkdir os name) >>= _) Q E { s with sys := s.sys.tick }
    rw [wp_bind, wp_system]
    have hmade : Vacant os s.sys name → (mkdir os name s.sys.tick).1 = true := fun h =>
      mkdir_free (place_name hplain hslash hlen) (h.willing _) h.free
    rcases mkdir_here os (here_name (s := s.sys.tick) hplain hslash) with ⟨hm, hadds⟩ | ⟨hm, hsame⟩
    · rw [hm]
      have hadds' := (Sys.Same.tick s.sys).adds hadds
      exact hq _ _ (.inr hadds') fun _ => ⟨by decide, hadds'⟩
    · rw [hm]
      refine hq _ _ (.inl ((Sys.Same.tick s.sys).trans hsame)) fun h => ?_
      rw [hmade h] at hm
      cases hm

/-- The response is what `OBEX_EV_REQHINT` has set, unless the program stops. -/
theorem wp_serve_setpath (hfinished : s.finished = false) {up : Bool} (hname : up = false → name ≠ [])
    {Q : Bool → IrcpServer → Prop}
    (h : wp (if up then setpathUp L.os else setpathDown L.os name) (fun ret t =>
      t.acts = s.acts ++ [.setRsp obexRspContinue obexRspSuccess] ∧
        (ret < 0 → Q false { t with
          acts := t.acts ++ [.setRsp obexRspForbidden obexRspForbidden]
          finished := true
          success := false }) ∧ (0 ≤ ret → Q true t)) E
      { s with acts := s.acts ++ [.setRsp obexRspContinue obexRspSuccess] }) :
    wp (L.serveRequest (.setpath up name)) Q E s := by
  have hset : ircpSrvSetpath L.os (setpathObject up name) = (do
      let ret ← (if up then setpathUp L.os else setpathDown L.os name)
      if ret < 0 then act (.setRsp obexRspForbidden obexRspForbidden)
      pure ret) := by
    cases up with
    | true => rfl
    | false =>
      have hdown : (if name = [] then setpathRoot L.os else setpathDown L.os name) =
        setpathDown L.os name :=
        if_neg (hname rfl)
      show (do
        let ret ← (if name = [] then setpathRoot L.os else setpathDown L.os name)
        if ret < 0 then act (.setRsp obexRspForbidden obexRspForbidden)
        pure ret) = _
      rw [hdown]
      rfl
  unfold IrcpLink.serveRequest IrcpLink.requestEvents
  rw [wp_bind, wp_get, hfinished, if_neg Bool.false_ne_true, wp_bind]
  dsimp only
  rw [wp_bind]
  show wp (do
    srvObexEvent L.os ⟨.req, obexCmdSetpath, setpathObject up name⟩
    srvObexEvent L.os ⟨.reqdone, obexCmdSetpath, ⟨[], [], some []⟩⟩) _ E
    { s with acts := s.acts ++ [.setRsp obexRspContinue obexRspSuccess] }
  rw [wp_bind]
  show wp (ircpSrvSetpath L.os (setpathObject up name) >>= _) _ E _
  rw [hset, wp_bind, wp_bind]
  refine wp_conseq h fun ret t ⟨hacts, hneg, hpos⟩ => ?_
  by_cases hret : ret < 0
  · rw [if_pos hret, wp_bind, wp_act]
    dsimp only
    rw [wp_pure, if_pos hret]
    have hforbidden :
      responseSet ((t.acts ++ [IrcpAct.setRsp obexRspForbidden obexRspForbidden]).drop s.acts.length) =
        some (obexRspForbidden, obexRspForbidden) := by
      rw [hacts, List.append_assoc, List.drop_left]
      rfl
    have hq := hneg hret
    show Q ((responseSet
      ((t.acts ++ [IrcpAct.setRsp obexRspForbidden obexRspForbidden]).drop s.acts.length)).map
      Prod.snd == some obexRspSuccess) _
    rw [hforbidden]
    exact hq
  · rw [if_neg hret]
    dsimp only
    rw [wp_pure, if_neg hret]
    have haccepted : responseSet (t.acts.drop s.acts.length) = some acceptance := by
      rw [hacts, List.drop_left]
      rfl
    show Q ((responseSet (t.acts.drop s.acts.length)).map Prod.snd == some obexRspSuccess) t
    rw [haccepted]
    exact hpos (Int.not_lt.1 hret)

theorem wp_serve_down (hfinished : s.finished = false) (hplain : Plain name) (hslash : slash ∉ name)
    (hshort : (dot ++ slash :: name).length < pathMax) :
    wp (L.serveRequest (.setpath false name)) (fun granted s' => Enters L.os s s' granted name)
      E s := by
  have hlen : name.length < pathMax := by
    rw [List.length_append, List.length_cons] at hshort
    omega
  refine wp_serve_setpath hfinished (fun _ => hplain.1) ?_
  rw [if_neg Bool.false_ne_true]
  unfold setpathDown
  rw [wp_bind]
  refine wp_checkdir_name hplain hslash hshort fun ret sys' hsys hvacant => ?_
  have htree : s.sys.tree ≤ sys'.tree := by
    rcases hsys with hsame | hadds
    · rw [hsame.tree]
      exact s.sys.tree.le_refl
    · exact hadds.le
  have hcwd : sys'.cwd = s.sys.cwd := by
    rcases hsys with hsame | hadds
    · exact hsame.cwd
    · exact hadds.cwd
  by_cases hret : ret < 0
  · rw [if_pos hret, wp_pure]
    refine ⟨rfl, fun _ => ⟨hcwd, rfl, rfl, rfl, htree, fun h => ?_⟩, fun h => absurd h (by decide)⟩
    have hge := (hvacant h).1
    omega
  · rw [if_neg hret, wp_bind, wp_system]
    dsimp only
    rcases chdir_name hplain hslash L.os sys' with ⟨hdone, hmoved, htree', -⟩ | ⟨hdone, hsame⟩
    · rw [hdone, if_pos rfl, wp_bind, wp_modify, wp_pure]
      refine ⟨rfl, fun h => absurd h (by decide), fun _ =>
        ⟨?_, rfl, hfinished, rfl, ?_, fun h => ⟨rfl, sys', ?_⟩⟩⟩
      · show (chdir L.os name sys').2.cwd = s.sys.cwd ++ [name]
        rw [hmoved, hcwd]
      · show s.sys.tree ≤ (chdir L.os name sys').2.tree
        rw [htree']
        exact htree
      · exact ⟨(hvacant h).2, htree'⟩
    · rw [hdone, if_neg Bool.false_ne_true, wp_pure]
      refine ⟨rfl, fun _ => ⟨?_, rfl, rfl, rfl, ?_, fun h => ?_⟩, fun h => absurd h (by decide)⟩
      · show (chdir L.os name sys').2.cwd = s.sys.cwd
        rw [hsame.cwd, hcwd]
      · show s.sys.tree ≤ (chdir L.os name sys').2.tree
        rw [hsame.tree]
        exact htree
      · have hadds := (hvacant h).2
        have hdir : sys'.tree.node (sys'.cwd ++ [name]) = some .dir := by
          rw [hcwd, hadds.node, if_pos rfl]
        rw [chdir_there hplain hslash hlen (h.willing _) hdir] at hdone
        cases hdone

theorem wp_serve_up (hfinished : s.finished = false) (name : Name) :
    wp (L.serveRequest (.setpath true name)) (fun granted s' => Leaves L.os s s' granted) E s := by
  refine wp_serve_setpath hfinished (fun h => by cases h) ?_
  rw [if_pos rfl]
  unfold setpathUp
  rw [wp_bind, wp_get]
  dsimp only
  by_cases hdepth : s.dirdepth = 0
  · rw [if_pos hdepth, wp_pure]
    refine ⟨rfl, fun _ => ⟨rfl, rfl, fun h => ?_, rfl, rfl, rfl, fun _ _ h => absurd hdepth h⟩,
      fun h => ?_⟩
    · cases h
    · exact absurd h (by decide)
  · rw [if_neg hdepth, wp_bind, wp_system]
    dsimp only
    rcases chdir_up L.os s.sys with ⟨hdone, hmoved, htree, -⟩ | ⟨hdone, hsame⟩
    · rw [hdone, if_pos rfl, wp_bind, wp_modify, wp_pure]
      exact ⟨rfl, fun h => absurd h (by decide), fun _ =>
        ⟨hmoved, rfl, fun _ => hdepth, hfinished, rfl, htree, fun _ _ _ => rfl⟩⟩
    · rw [hdone, if_neg Bool.false_ne_true, wp_pure]
      refine ⟨rfl, fun _ => ⟨hsame.cwd, rfl, fun h => (by cases h), rfl, rfl, hsame.tree,
        fun hos hdir _ => ?_⟩, fun h => absurd h (by decide)⟩
      rw [chdir_above (hos _) hdir] at hdone
      cases hdone

end OpenObex
