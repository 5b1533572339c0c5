import OpenObex.Lib.Wp
import OpenObex.Proof.Mirror

/-!
# A recursive upload mirrors the tree

The traversal makes the requests of the `plan`, up to the first one that is refused (`Toured`); this is
an induction over the levels and, on each, over the entries. The result of the SETPATH to the name of
the top directory is not looked at, and where it is refused the plan is carried out in the wrong
directory.
-/

namespace OpenObex

open Files Prog

/-! ## The process -/

/-- The process is in the top directory of the tree. -/
def InTop (t : Tree) (top : Path) (s : IrcpClient) : Prop := s.sys.tree = t ∧ s.sys.cwd = top

section

variable {W : IrcpWorld} {t : Tree} {top q : Path} {depth : Nat} {s : IrcpClient}
  {E : Stop → IrcpClient → Prop} (ht : Listed t W.readdir top depth) (hos : ∀ k, W.os.deny k = false)

@[simp] theorem wp_call {α : Type} {f : Sys → α × Sys} {Q : α → IrcpClient → Prop} :
    wp (call f) Q E s ↔ Q (f s.sys).1 { s with sys := (f s.sys).2 } := Iff.rfl

include ht in
theorem resolve_relName (hs : InTop t top s) (h : (t.node (top ++ q)).isSome) :
    s.sys.resolve (relName q) = some (top ++ q) := by
  have hlead := ht.leadsTo h
  unfold leadsTo at hlead
  have hvalid : Sys.valid (relName q) = true :=
    decide_eq_true ⟨List.cons_ne_nil _ _, ht.short q h⟩
  unfold Sys.resolve
  rw [hs.1, if_pos hvalid]
  unfold Sys.origin
  have hrel : (relName q).head? ≠ some slash := fun heq => absurd (Option.some_inj.1 heq) (by decide)
  rw [if_neg hrel, hs.2]
  exact hlead

include ht hos in
theorem wp_stat (hs : InTop t top s) {k : Kind} (h : t.node (top ++ q) = some k)
    {Q : Option Kind → IrcpClient → Prop} (hq : ∀ s', InTop t top s' → s'.requests = s.requests →
      Q (some k) s') :
    wp (call (stat W.os (relName q))) Q E s := by
  have hstat : (stat W.os (relName q) s.sys).1 = some k := by
    show (if W.os.deny s.sys.clock = true then none else (s.sys.resolve (relName q)).bind
      s.sys.tree.node) = _
    rw [hos, if_neg Bool.false_ne_true, resolve_relName ht hs (by rw [h]; rfl), hs.1]
    exact h
  rw [wp_call, hstat]
  exact hq _ hs rfl

include ht hos in
theorem wp_opendir (hs : InTop t top s) (h : t.node (top ++ q) = some .dir)
    {Q : Option (List Name) → IrcpClient → Prop}
    (hq : ∀ s', InTop t top s' → s'.requests = s.requests → Q (some (W.readdir (top ++ q))) s') :
    wp (call (opendir W.os W.readdir (relName q))) Q E s := by
  have hopen : (opendir W.os W.readdir (relName q) s.sys).1 = some (W.readdir (top ++ q)) := by
    show (if W.os.deny s.sys.clock = true then none else (s.sys.resolve (relName q)).bind _) = _
    rw [hos, if_neg Bool.false_ne_true, resolve_relName ht hs (by rw [h]; rfl), hs.1,
      Option.bind_some, if_pos h]
  rw [wp_call, hopen]
  exact hq _ hs rfl

/-! ## The traversal -/

/-- The requests `rs` have been made, all of them or up to one that was refused. -/
def Toured (W : IrcpWorld) (t : Tree) (top : Path) (rs : List IrcpRequest) (s : IrcpClient) (ret : Int)
    (s' : IrcpClient) : Prop :=
  InTop t top s' ∧ s'.requests = s.requests ++ answered W.peer s.requests rs ∧
    (0 ≤ ret ↔ AllGranted W.peer s.requests rs)

section

variable {rs rs' : List IrcpRequest} {s' s'' : IrcpClient} {ret ret' : Int}

theorem Toured.since (h : Toured W t top rs s' ret s'') (hreq : s'.requests = s.requests) :
    Toured W t top rs s ret s'' := by
  unfold Toured at h
  rwa [hreq] at h

theorem Toured.append (h : Toured W t top rs s ret s') (hret : 0 ≤ ret)
    (h' : Toured W t top rs' s' ret' s'') :
    Toured W t top (rs ++ rs') s ret' s'' := by
  obtain ⟨-, hreq, hall⟩ := h
  obtain ⟨hs, hreq', hall'⟩ := h'
  have hgranted := hall.1 hret
  refine ⟨hs, ?_, ?_⟩
  · rw [hreq', hreq, answered_append hgranted, List.append_assoc]
  · rw [hall', hreq, allGranted_append]
    exact ⟨fun hr => ⟨hgranted, hr⟩, fun hr => hr.2⟩

theorem Toured.stop (h : Toured W t top rs s ret s') (hret : ret < 0) :
    Toured W t top (rs ++ rs') s ret s' := by
  obtain ⟨hs, hreq, hall⟩ := h
  have hrefused : ¬ AllGranted W.peer s.requests rs := fun hr => absurd hret (Int.not_lt.2 (hall.2 hr))
  refine ⟨hs, ?_, ?_⟩
  · rw [hreq, answered_refused hrefused]
  · rw [allGranted_append]
    exact ⟨fun hpos => absurd hret (Int.not_lt.2 hpos), fun hr => (hrefused hr.1).elim⟩

theorem wp_request (hs : InTop t top s) (r : IrcpRequest) :
    wp (cliSyncRequest W r) (fun ret s' => Toured W t top [r] s ret s') E s := by
  show Toured W t top [r] s (if W.peer s.requests r then 1 else -1)
    { s with requests := s.requests ++ [(r, W.peer s.requests r)] }
  refine ⟨hs, ?_, ?_⟩
  · rw [answered, answered]
    cases W.peer s.requests r with
    | true => rfl
    | false => rfl
  · show _ ↔ (W.peer s.requests r = true ∧ True)
    cases W.peer s.requests r with
    | true => exact ⟨fun _ => ⟨rfl, trivial⟩, fun _ => by decide⟩
    | false => exact ⟨fun hpos => absurd hpos (by decide), fun hr => (by cases hr.1)⟩

include ht hos in
theorem wp_putFile (hs : InTop t top s) {name : Name} (h : t.node (top ++ (q ++ [name])) = some .file) :
    wp (ircpVisit W .file (relName (q ++ [name])) [])
      (fun ret s' => Toured W t top [.put (relName (q ++ [name])) name] s ret s') E s := by
  have hsome : (t.node (top ++ (q ++ [name]))).isSome := by rw [h]; rfl
  have hstrip : stripSlashes (relName (q ++ [name])) = name := by
    rw [relName_concat]
    exact stripSlashes_append (ht.name hsome).2
  have hopen : (openFile W.os (relName (q ++ [name])) s.sys).1 = W.os.fd s.sys.clock := by
    show (if W.os.deny s.sys.clock = true then -1 else if _ then _ else _) = _
    rw [hos, if_neg Bool.false_ne_true, resolve_relName ht hs hsome, hs.1, Option.bind_some,
      if_pos hsome]
  show wp (ircpPutFile W (relName (q ++ [name])) (stripSlashes (relName (q ++ [name])))) _ E s
  rw [hstrip, ircpPutFile, wp_bind, info, wp_modify, wp_bind, wp_call, hopen, wp_bind, wp_modify,
    if_neg (by omega), wp_bind]
  have hmoved : InTop t top { s with
      fd := W.os.fd s.sys.clock
      sys := (openFile W.os (relName (q ++ [name])) s.sys).2
      infos := s.infos ++ [(.sending, relName (q ++ [name]))] } := hs
  exact wp_conseq (wp_request hmoved _) fun ret s' h' => h'

/-- One callback, and the rest of the entries if it did not fail. -/
theorem wp_then {m : IrcpClientM Int} {path : Name} {f : Int → IrcpClientM (Int × Name)}
    (hm : wp m (fun ret s' => Toured W t top rs s ret s') E s)
    (hf : ∀ ret s', 0 ≤ ret → InTop t top s' →
      wp (f ret) (fun r s'' => Toured W t top rs' s' r.1 s'') E s') :
    wp (do
      let ret ← m
      if ret < 0 then pure (ret, path) else f ret) (fun r s' => Toured W t top (rs ++ rs') s r.1 s')
        E s := by
  refine wp_seq hm fun ret s' h => ?_
  by_cases hret : ret < 0
  · rw [if_pos hret, wp_pure]
    exact h.stop hret
  · rw [if_neg hret]
    exact wp_conseq (hf ret s' (Int.not_lt.1 hret) h.1) fun r s'' h' => h.append (Int.not_lt.1 hret) h'

include ht hos in
/-- The entries of `q`, one after the other: a file is sent, a directory is entered, visited and
left. -/
theorem wp_visitEntries (hq : t.node (top ++ q) = some .dir) {below : Path → List IrcpRequest}
    {descend : Name → IrcpClientM (Int × Name)}
    (hdescend : ∀ name s, t.node (top ++ (q ++ [name])) = some .dir → InTop t top s →
      wp (descend (relName (q ++ [name])))
        (fun r s' => Toured W t top (below (q ++ [name])) s r.1 s') E s)
    {dirents : List Name} (hlist : ∀ name ∈ dirents, name ∈ W.readdir (top ++ q)) (hret : 0 ≤ ret)
    (hs : InTop t top s) :
    wp (visitEntries W (ircpVisit W) descend dirents (relName q) ret)
      (fun r s' => Toured W t top (dirents.flatMap (entryPlan t top below q)) s r.1 s') E s := by
  induction dirents generalizing s ret with
  | nil => exact ⟨hs, (List.append_nil _).symm, fun _ => trivial, fun _ => hret⟩
  | cons dirent dirents ih =>
    have hrest : ∀ name ∈ dirents, name ∈ W.readdir (top ++ q) :=
      fun n hn => hlist n (List.mem_cons_of_mem _ hn)
    rw [visitEntries, List.flatMap_cons, entryPlan]
    by_cases hdots : dirent = dot ∨ dirent = dotdot
    · rw [if_pos hdots, if_pos hdots, List.nil_append]
      exact ih hrest hret hs
    · have hplain := not_or.1 hdots
      have hsome : (t.node (top ++ (q ++ [dirent]))).isSome := by
        rw [← List.append_assoc]
        rcases ht.only _ _ hq (hlist dirent List.mem_cons_self) with h | h | h
        · exact (hplain.1 h).elim
        · exact (hplain.2 h).elim
        · exact h
      -- the path name of the entry fits in the buffer of `visit_dir`, which is cut to `MAXPATHLEN`
      have hshort := ht.short _ hsome
      have htake : (relName q ++ slash :: dirent).take (maxpathlen - 1) = relName (q ++ [dirent]) := by
        rw [← relName_concat]
        exact List.take_of_length_le (Nat.le_sub_one_of_lt hshort)
      have hstrcat : strcat (relName q) (slash :: dirent) = pure (relName (q ++ [dirent])) := by
        rw [relName_concat] at hshort ⊢
        exact if_pos (by rwa [List.length_append] at hshort)
      have hback : (relName (q ++ [dirent])).take (relName q).length = relName q := by
        rw [relName_concat, List.take_left]
      rw [if_neg hdots, if_neg hdots, htake, wp_bind]
      obtain ⟨k, hk⟩ := Option.isSome_iff_exists.1 hsome
      rw [hk]
      refine wp_stat ht hos hs hk fun s1 hs1 hreq1 => ?_
      cases k with
      | file =>
        refine wp_conseq (wp_then (wp_putFile ht hos hs1 hk) fun ret s2 hret hs2 =>
          ih hrest hret hs2) ?_
        exact fun r s' h => h.since hreq1
      | dir =>
        -- down, what is below, up, and the other entries
        have hrequests : .setpath false dirent :: (below (q ++ [dirent]) ++ [.setpath true []]) ++
            dirents.flatMap (entryPlan t top below q) = [.setpath false dirent] ++
              (below (q ++ [dirent]) ++
              ([.setpath true []] ++ dirents.flatMap (entryPlan t top below q))) := by
          rw [List.cons_append, List.append_assoc]
          rfl
        show wp _ (fun (r : Int × Name) s' => Toured W t top (.setpath false dirent :: (_ ++ _) ++ _) s
          r.1 s') E s1
        rw [hrequests]
        refine wp_conseq (wp_then (wp_request hs1 (.setpath false dirent)) fun ret s2 hret hs2 => ?_)
          fun r s' h => h.since hreq1
        rw [hstrcat, wp_bind, wp_pure]
        refine wp_seq (hdescend dirent s2 hk hs2) fun ⟨ret, _⟩ s3 h3 => ?_
        by_cases hret : ret < 0
        · show wp (if ret < 0 then _ else _) _ E s3
          rw [if_pos hret, wp_pure]
          exact h3.stop hret
        · show wp (if ret < 0 then _ else _) _ E s3
          rw [if_neg hret, hback]
          exact wp_conseq (wp_then (wp_request h3.1 _) fun ret s4 hret hs4 => ih hrest hret hs4)
            fun r s' h => h3.append (Int.not_lt.1 hret) h

include ht hos in
/-- A directory and all under it, with enough levels left. -/
theorem wp_visitDir {n : Nat} (hn : depth < n + q.length) (hq : t.node (top ++ q) = some .dir)
    (hs : InTop t top s) :
    wp (visitDir W (ircpVisit W) n (relName q))
      (fun r s' => Toured W t top (plan t W.readdir top n q) s r.1 s') E s := by
  induction n generalizing q s with
  | zero =>
    have hdepth := ht.depth q (by rw [hq]; rfl)
    omega
  | succ n ih =>
    rw [visitDir, wp_bind]
    refine wp_opendir ht hos hs hq fun s1 hs1 hreq => ?_
    have hbelow : ∀ name s, t.node (top ++ (q ++ [name])) = some .dir → InTop t top s →
        wp (visitDir W (ircpVisit W) n (relName (q ++ [name])))
          (fun r s' => Toured W t top (plan t W.readdir top n (q ++ [name])) s r.1 s') E s := by
      intro name s hdir hs
      refine ih ?_ hdir hs
      rw [List.length_append, List.length_singleton]
      omega
    exact wp_conseq (wp_visitEntries ht hos hq hbelow (fun _ h => h) Int.one_nonneg hs1) fun r s' h =>
      h.since hreq

include ht hos in
/-- The top directory: it is left at the end although it was not entered here. -/
theorem wp_visitAllFiles {n : Nat} (hn : depth < n) (hs : InTop t top s) :
    wp (visitAllFiles W (ircpVisit W) n dot)
      (fun ret s' => Toured W t top (plan t W.readdir top n [] ++ [.setpath true []]) s ret s')
      E s := by
  have hdir : t.node (top ++ []) = some .dir := by
    rw [List.append_nil]
    exact ht.dir
  rw [visitAllFiles, wp_bind]
  refine wp_stat ht hos (q := []) hs hdir fun s1 hs1 hreq => ?_
  show wp (visitDir W (ircpVisit W) n (relName []) >>= _) _ E s1
  refine wp_seq (wp_visitDir ht hos hn hdir hs1) fun ⟨ret, _⟩ s2 h2 => ?_
  by_cases hret : ret < 0
  · show wp (if ret < 0 then _ else _) _ E s2
    rw [if_pos hret, wp_pure]
    exact (h2.stop hret).since hreq
  · show wp (if ret < 0 then _ else _) _ E s2
    rw [if_neg hret]
    exact wp_conseq (wp_request h2.1 _) fun r s3 h3 => (h2.append (Int.not_lt.1 hret) h3).since hreq

end

end

/-- The requests behind the SETPATH to the name of the top directory. -/
def uploadPlan (W : IrcpWorld) (t : Tree) (top : Path) (n : Nat) : List IrcpRequest :=
  plan t W.readdir top n [] ++ [.setpath true []]

/-- What `ircp_put` requests, when the requests `e` have been made. -/
def uploadRequests (W : IrcpWorld) (t : Tree) (top : Path) (n : Nat) (dirname : Name)
    (e : List (IrcpRequest × Bool)) : List (IrcpRequest × Bool) :=
  let first := (.setpath false dirname, W.peer e (.setpath false dirname))
  first :: answered W.peer (e ++ [first]) (uploadPlan W t top n)

section

variable {W : IrcpWorld} {t : Tree} {above d : Path} {dirname name : Name} {depth n : Nat}
  {s : IrcpClient} (ht : Listed t W.readdir (above ++ [dirname]) depth) (hos : ∀ k, W.os.deny k = false)
  (hn : depth < n)

include ht hos hn in
theorem wp_ircpPut (htree : s.sys.tree = t) (hname : s.sys.resolve name = some (above ++ [dirname])) :
    wp (ircpPut W n name)
      (fun _ s' => s'.requests = s.requests ++ uploadRequests W t (above ++ [dirname]) n dirname
      s.requests) (fun _ _ => False) s := by
  obtain ⟨hplain, hslash⟩ := ht.plain above dirname (by rw [ht.dir]; rfl)
  have hcwd : ∀ sys, (getcwd W.os sys).1 =
      some (if sys.cwd = [] then [slash] else sys.cwd.flatMap fun name => slash :: name) := by
    intro sys
    show (if W.os.deny sys.clock = true then none else _) = _
    rw [hos, if_neg Bool.false_ne_true]
  have hstat : (stat W.os name s.sys.tick).1 = some .dir := by
    show (if W.os.deny _ = true then none else (s.sys.resolve name).bind s.sys.tree.node) = _
    rw [hos, if_neg Bool.false_ne_true, hname, htree]
    exact ht.dir
  have hchdir : chdir W.os name s.sys.tick.tick =
      (true, { s.sys.tick.tick.tick with cwd := above ++ [dirname] }) := by
    have hres : s.sys.tick.tick.resolve name = some (above ++ [dirname]) := hname
    have hnode : s.sys.tick.tick.tree.node (above ++ [dirname]) = some .dir := by
      show s.sys.tree.node _ = _
      rw [htree]
      exact ht.dir
    unfold chdir
    rw [hres]
    exact if_pos ⟨hos _, hnode⟩
  have hlast : stripSlashes ((above ++ [dirname]).flatMap fun name => slash :: name) = dirname := by
    rw [List.flatMap_append, List.flatMap_singleton]
    exact stripSlashes_append hslash
  unfold ircpPut
  rw [wp_bind, wp_call, hcwd]
  show wp (call (stat W.os name) >>= _) _ _ { s with sys := s.sys.tick }
  rw [wp_bind, wp_call, hstat]
  dsimp only
  rw [if_pos rfl, wp_bind, wp_bind, wp_call]
  show wp _ _ _ { s with sys := (chdir W.os name s.sys.tick.tick).2 }
  rw [hchdir, wp_bind, wp_call, hcwd, if_neg (by simp)]
  dsimp only
  rw [hlast, if_pos fun hlen => hplain.1 (List.length_eq_zero_iff.1 hlen), wp_bind]
  set first : IrcpRequest × Bool :=
    (.setpath false dirname, W.peer s.requests (.setpath false dirname)) with hfirst
  set s1 : IrcpClient := { s with
    sys := { s.sys.tick.tick.tick.tick with cwd := above ++ [dirname] }
    requests := s.requests ++ [first] } with hs1
  show wp (visitAllFiles W (ircpVisit W) n dot >>= _) _ _ s1
  refine wp_seq (wp_visitAllFiles (s := s1) ht hos hn ⟨htree, rfl⟩) fun ret s2 ⟨_, hreq, _⟩ => ?_
  show s2.requests = _
  rw [hreq, hs1]
  exact List.append_assoc _ _ _

/-- A PUT is made only where the file belongs, and if no request is refused each file is sent once and
the server is back where it was. -/
structure Uploaded (t : Tree) (top base d : Path) (reqs : List (IrcpRequest × Bool)) : Prop where
  mirrored : Mirrored t top base d reqs
  complete : (∀ x ∈ reqs, x.2 = true) → serverDir d reqs = d ∧
    ∀ f, t.node (top ++ f) = some .file → timesPut t top f (reqs.map Prod.fst) = 1

/-- The server is in the mirror of the top directory, or it is not and no file gets sent: there is none,
or a SETPATH before the first one is refused. -/
def Entered (W : IrcpWorld) (t : Tree) (top : Path) (n : Nat) (dirname : Name)
    (e : List (IrcpRequest × Bool)) : Prop :=
  W.peer e (.setpath false dirname) = true ∨
    ¬ ((∃ f, t.node (top ++ f) = some .file) ∧
      AllGranted W.peer (e ++ [(.setpath false dirname, false)])
        ((uploadPlan W t top n).takeWhile fun r => !r.isPut))

include ht in
theorem uploadPlan_mirrored (base : Path) : Mirrored t (above ++ [dirname]) base base
    (succeeded (uploadPlan W t (above ++ [dirname]) n)) := by
  have hlevel := plan_level ht base n []
  rw [List.append_nil] at hlevel
  unfold uploadPlan succeeded
  rw [List.map_append]
  exact mirrored_append.2 ⟨hlevel.1, fun _ _ heq => (by cases heq), trivial⟩

include ht hn in
/-- There is a PUT in the plan if there is a file. -/
theorem put_uploadPlan : (∃ r ∈ uploadPlan W t (above ++ [dirname]) n, r.isPut = true) ↔
    ∃ f, t.node (above ++ [dirname] ++ f) = some .file := by
  constructor
  · rintro ⟨r, hr, hput⟩
    cases r with
    | setpath up name => cases hput
    | put l name =>
      obtain ⟨q, hq⟩ := (uploadPlan_mirrored ht []).file (List.mem_map_of_mem hr) rfl
      exact ⟨_, hq⟩
  · rintro ⟨f, hf⟩
    have honce := (plan_once ht (q := []) hn (by rw [List.append_nil]; exact ht.dir) f).1
      ⟨List.nil_prefix, hf⟩
    have hpos : 0 < timesPut t (above ++ [dirname]) f
      (plan t W.readdir (above ++ [dirname]) n []) := by omega
    obtain ⟨r, hr, hput⟩ := List.countP_pos_iff.1 hpos
    refine ⟨r, List.mem_append_left _ hr, ?_⟩
    cases r with
    | setpath up name => cases hput
    | put l name => rfl

include ht hn in
theorem uploaded_iff (e : List (IrcpRequest × Bool)) :
    Uploaded t (above ++ [dirname]) (d ++ [dirname]) d
      (uploadRequests W t (above ++ [dirname]) n dirname e) ↔
      Entered W t (above ++ [dirname]) n dirname e := by
  have hfirst : ∀ (base : Path) (b : Bool) l name, (IrcpRequest.setpath false dirname, b).1 =
    .put l name →
      PutAt t (above ++ [dirname]) base d l name := fun _ _ _ _ heq => (by cases heq)
  unfold Entered
  cases hb : W.peer e (.setpath false dirname) with
  | true =>
    refine ⟨fun _ => .inl rfl, fun _ => ⟨?_, fun hall => ?_⟩⟩
    · unfold uploadRequests
      rw [hb]
      exact ⟨hfirst _ _, (uploadPlan_mirrored ht _).answered⟩
    · unfold uploadRequests at hall ⊢
      rw [hb] at hall ⊢
      have hgranted := allGranted_of_all fun x hx => hall x (List.mem_cons_of_mem _ hx)
      dsimp only
      rw [answered_allGranted hgranted]
      have hlevel := plan_level ht (d ++ [dirname]) n []
      rw [List.append_nil] at hlevel
      refine ⟨hlevel.inside.2, fun f hf => ?_⟩
      have hreqs : ((IrcpRequest.setpath false dirname, true) :: succeeded
        (uploadPlan W t (above ++ [dirname]) n)).map
          Prod.fst = .setpath false dirname :: uploadPlan W t (above ++ [dirname]) n := by
        rw [List.map_cons, succeeded, List.map_map]
        exact congrArg _ (List.map_id _)
      rw [hreqs]
      exact ((plan_once ht (q := []) hn (by rw [List.append_nil]; exact ht.dir)).inside f).1
        ⟨List.nil_prefix, hf⟩
  | false =>
    have hplain : Mirrored t (above ++ [dirname]) d d
      (answered W.peer (e ++ [(.setpath false dirname, false)])
        (uploadPlan W t (above ++ [dirname]) n)) := (uploadPlan_mirrored ht d).answered
    rw [← put_uploadPlan (W := W) ht hn, ← put_answered]
    constructor
    · rintro ⟨hmir, -⟩
      right
      unfold uploadRequests at hmir
      rw [hb] at hmir
      have hno := hplain.no_put hmir.2 (by simp)
      rintro ⟨⟨r, b⟩, hx, hput⟩
      cases r with
      | setpath up name => cases hput
      | put l name => exact hno _ hx l name rfl
    · rintro (h | h)
      · cases h
      · unfold uploadRequests
        rw [hb]
        refine ⟨⟨hfirst _ _, mirrored_of_no_put fun x hx l name heq => h ⟨x, hx, ?_⟩⟩, fun hall => ?_⟩
        · rw [heq]
          rfl
        · cases hall _ List.mem_cons_self

include ht hos hn in
theorem upload_mirrors (htree : s.sys.tree = t)
    (hname : s.sys.resolve name = some (above ++ [dirname])) :
    wp (ircpPut W n name)
      (fun _ s' => ∃ reqs, s'.requests = s.requests ++ reqs ∧
        (Uploaded t (above ++ [dirname]) (d ++ [dirname]) d reqs ↔
          Entered W t (above ++ [dirname]) n dirname s.requests))
      (fun _ _ => False) s :=
  wp_conseq (wp_ircpPut ht hos hn htree hname) fun _ _ hreq => ⟨_, hreq, uploaded_iff ht hn _⟩

end

/-! ### A directory with one file -/

/-- `/d/f` and nothing else. -/
def oneFileNode (p : Path) : Option Kind :=
  if p = [] then some .dir
  else if p = [[100]] then some .dir
  else if p = [[100], [102]] then some .file
  else none

theorem oneFile_node {p : Path} (h : (oneFileNode p).isSome) :
    p = [] ∨ p = [[100]] ∨ p = [[100], [102]] := by
  unfold oneFileNode at h
  split_ifs at h with h1 h2 h3
  · exact .inl h1
  · exact .inr (.inl h2)
  · exact .inr (.inr h3)
  · cases h

theorem oneFile_entry {p : Path} {name : Name} (h : (oneFileNode (p ++ [name])).isSome) :
    (p = [] ∧ name = [100]) ∨ (p = [[100]] ∧ name = [102]) := by
  rcases oneFile_node h with hp | hp | hp
  · exact absurd hp (by simp)
  · have happend : p ++ [name] = [] ++ [[100]] := hp
    obtain ⟨h1, h2⟩ := List.append_inj' happend rfl
    exact .inl ⟨h1, List.singleton_inj.1 h2⟩
  · have happend : p ++ [name] = [[100]] ++ [[102]] := hp
    obtain ⟨h1, h2⟩ := List.append_inj' happend rfl
    exact .inr ⟨h1, List.singleton_inj.1 h2⟩

def oneFile : Tree where
  node := oneFileNode
  root := rfl
  parent p name h := by
    rcases oneFile_entry h with ⟨rfl, -⟩ | ⟨rfl, -⟩
    · rfl
    · rfl

def oneFileDirents (p : Path) : List Name :=
  if p = [] then [dot, dotdot, [100]] else if p = [[100]] then [[102], dot, dotdot] else []

theorem oneFile_listed : Listed oneFile oneFileDirents ([] ++ [[100]]) 1 where
  dir := rfl
  nodup p := by
    unfold oneFileDirents
    split_ifs
    · decide
    · decide
    · exact List.nodup_nil
  mem p name h := by
    rcases oneFile_entry h with ⟨rfl, rfl⟩ | ⟨rfl, rfl⟩
    · decide
    · decide
  only p name hdir h := by
    rcases oneFile_node (p := p) (by rw [show oneFileNode p = _ from hdir]; rfl) with rfl | rfl | rfl
    · revert name
      decide
    · revert name
      decide
    · cases hdir
  plain p name h := by
    rcases oneFile_entry h with ⟨-, rfl⟩ | ⟨-, rfl⟩
    · decide
    · decide
  short q h := by
    have hq : (oneFileNode ([100] :: q)).isSome := h
    rcases oneFile_node hq with hp | hp | hp
    · cases hp
    · cases hp
      decide
    · cases hp
      decide
  depth q h := by
    have hq : (oneFileNode ([100] :: q)).isSome := h
    rcases oneFile_node hq with hp | hp | hp
    · cases hp
    · cases hp
      decide
    · cases hp
      decide

def oneFileOs : Os where
  deny _ := false
  fd _ := 3
  suffix _ := [97, 97, 97, 97, 97, 97]
  suffix_plain _ := by decide

def oneFileClient : IrcpClient where
  fd := -1
  sys := { tree := oneFile, cwd := [], clock := 0, created := [] }
  requests := []
  infos := []

def oneFileWorld (peer : List (IrcpRequest × Bool) → IrcpRequest → Bool) : IrcpWorld where
  os := oneFileOs
  readdir := oneFileDirents
  peer := peer

theorem oneFile_resolve : oneFileClient.sys.resolve [100] = some ([] ++ [[100]]) := by decide

theorem upload_mirrors_one : ∃ W : IrcpWorld, W = oneFileWorld (fun _ _ => true) ∧
    wp (ircpPut W 2 [100])
      (fun _ s' => ∃ reqs, s'.requests = oneFileClient.requests ++ reqs ∧
        (Uploaded oneFile ([] ++ [[100]]) ([[105]] ++ [[100]]) [[105]] reqs ↔
          Entered W oneFile ([] ++ [[100]]) 2 [100] oneFileClient.requests))
      (fun _ _ => False) oneFileClient := by
  obtain ⟨W, hW, hlisted, hos⟩ : ∃ W : IrcpWorld, W = oneFileWorld (fun _ _ => true) ∧
      Listed oneFile W.readdir ([] ++ [[100]]) 1 ∧ ∀ k, W.os.deny k = false :=
    ⟨_, rfl, oneFile_listed, fun _ => rfl⟩
  exact ⟨W, hW, upload_mirrors hlisted hos (by decide) rfl oneFile_resolve⟩

/-- The peer refuses the first request only. -/
theorem top_refused : ¬ ∀ (W : IrcpWorld) (t : Tree) (above d : Path) (dirname name : Name)
    (depth n : Nat) (s : IrcpClient), Listed t W.readdir (above ++ [dirname]) depth →
    (∀ k, W.os.deny k = false) → depth < n →
    s.sys.tree = t → s.sys.resolve name = some (above ++ [dirname]) →
    wp (ircpPut W n name)
      (fun _ s' => ∃ reqs, s'.requests = s.requests ++ reqs ∧
        Uploaded t (above ++ [dirname]) (d ++ [dirname]) d reqs)
      (fun _ _ => False) s := by
  intro hall
  obtain ⟨W, hW, hlisted, hos⟩ : ∃ W : IrcpWorld, W = oneFileWorld (fun e _ => decide (e ≠ [])) ∧
      Listed oneFile W.readdir ([] ++ [[100]]) 1 ∧ ∀ k, W.os.deny k = false :=
    ⟨_, rfl, oneFile_listed, fun _ => rfl⟩
  have hrun := hall W oneFile [] [] [100] [100] 1 2 oneFileClient hlisted hos (by decide) rfl
    oneFile_resolve
  have hreqs := wp_ircpPut hlisted hos (by decide : 1 < 2) rfl oneFile_resolve
  refine not_wp_false (wp_mono (wp_and hrun hreqs) ?_ fun _ _ h => h.1)
  rintro _ s' ⟨⟨reqs, hreq, hup⟩, hreq'⟩
  have hsame : reqs = uploadRequests W oneFile ([] ++ [[100]]) 2 [100] oneFileClient.requests :=
    List.append_cancel_left (hreq.symm.trans hreq')
  rw [hsame] at hup
  have hentered := (uploaded_iff hlisted (by decide) _).1 hup
  rw [hW] at hentered
  rcases hentered with h | h
  · exact absurd h (by decide)
  · refine h ⟨⟨[[102]], rfl⟩, ?_⟩
    have hplan : (uploadPlan (oneFileWorld fun e _ => decide (e ≠ [])) oneFile ([] ++ [[100]])
      2).takeWhile
        (fun r => !r.isPut) = [] := by decide
    rw [hplan]
    trivial

end OpenObex
