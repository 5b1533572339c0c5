import OpenObex.Lib.Files
import OpenObex.Model.IrcpClient

/-!
# The requests of a recursive upload

`plan` has the SETPATH and PUT requests that bring a tree to the server. Started in `base`, the server
is in `base ++ q` whenever a file of the directory `q` under the top one is sent (`plan_level`), and
every file is sent once (`plan_once`). `answered` has those of them that are made when one is refused.
-/

namespace OpenObex

open Files

/-! ## The server -/

/-- The directory of the server behind a request. -/
def stepDir (d : Path) : IrcpRequest × Bool → Path
  | (.setpath true _, true) => d.dropLast
  | (.setpath false name, true) => d ++ [name]
  | _ => d

def serverDir (d : Path) (reqs : List (IrcpRequest × Bool)) : Path := reqs.foldl stepDir d

theorem serverDir_append (d : Path) (xs ys : List (IrcpRequest × Bool)) :
    serverDir d (xs ++ ys) = serverDir (serverDir d xs) ys := List.foldl_append

/-- Where a local name leads, from the top directory. -/
def leadsTo (t : Tree) (top : Path) (localname : Name) : Option Path :=
  t.walk top (components localname)

/-- A PUT of the file `q/name` under the top directory, under its name and in `base ++ q`. -/
def PutAt (t : Tree) (top base d : Path) (localname remotename : Name) : Prop :=
  ∃ q, leadsTo t top localname = some (top ++ (q ++ [remotename])) ∧
    t.node (top ++ (q ++ [remotename])) = some .file ∧ d = base ++ q

/-- Every PUT is made where `PutAt` says, from the server's directory `d` on. -/
def Mirrored (t : Tree) (top base : Path) : Path → List (IrcpRequest × Bool) → Prop
  | _, [] => True
  | d, x :: xs => (∀ l n, x.1 = .put l n → PutAt t top base d l n) ∧ Mirrored t top base
    (stepDir d x) xs

/-- How often the file `f` under the top directory is sent. -/
def timesPut (t : Tree) (top f : Path) (reqs : List IrcpRequest) : Nat :=
  reqs.countP fun r => match r with
    | .put l _ => decide (leadsTo t top l = some (top ++ f))
    | _ => false

/-- What is sent once is `F`. -/
def Once (t : Tree) (top : Path) (F : Path → Prop) (reqs : List IrcpRequest) : Prop :=
  ∀ f, (F f → timesPut t top f reqs = 1) ∧ (¬ F f → timesPut t top f reqs = 0)

def succeeded (reqs : List IrcpRequest) : List (IrcpRequest × Bool) := reqs.map fun r => (r, true)

/-- The server gets these requests in `d`, and is back in `d` then. -/
def Level (t : Tree) (top base d : Path) (reqs : List IrcpRequest) : Prop :=
  Mirrored t top base d (succeeded reqs) ∧ serverDir d (succeeded reqs) = d

section

variable {t : Tree} {top base base' d q : Path} {F G : Path → Prop} {reqs : List (IrcpRequest × Bool)}
  {xs ys : List IrcpRequest}

theorem mirrored_append {as bs : List (IrcpRequest × Bool)} : Mirrored t top base d (as ++ bs) ↔
    Mirrored t top base d as ∧ Mirrored t top base (serverDir d as) bs := by
  induction as generalizing d with
  | nil => exact ⟨fun h => ⟨trivial, h⟩, fun h => h.2⟩
  | cons x as ih =>
    show (_ ∧ Mirrored t top base (stepDir d x) (as ++ bs)) ↔
      (_ ∧ Mirrored t top base (stepDir d x) as) ∧ _
    rw [ih, and_assoc]
    rfl

theorem mirrored_of_no_put (h : ∀ x ∈ reqs, ∀ l n, x.1 ≠ .put l n) : Mirrored t top base d reqs := by
  induction reqs generalizing d with
  | nil => trivial
  | cons x xs ih =>
    exact ⟨fun l n heq => (h x List.mem_cons_self l n heq).elim, ih fun y hy =>
      h y (List.mem_cons_of_mem _ hy)⟩

theorem Mirrored.file (h : Mirrored t top base d reqs) {x : IrcpRequest × Bool} (hx : x ∈ reqs)
    {l n : Name} (heq : x.1 = .put l n) : ∃ q, t.node (top ++ (q ++ [n])) = some .file := by
  induction reqs generalizing d with
  | nil => cases hx
  | cons y ys ih =>
    rcases List.mem_cons.1 hx with rfl | hx
    · obtain ⟨q, -, hfile, -⟩ := h.1 l n heq
      exact ⟨q, hfile⟩
    · exact ih h.2 hx

theorem Mirrored.no_put (h : Mirrored t top base d reqs) (h' : Mirrored t top base' d reqs)
    (hne : base.length ≠ base'.length) : ∀ x ∈ reqs, ∀ l n, x.1 ≠ .put l n := by
  induction reqs generalizing d with
  | nil =>
    intro x hx
    cases hx
  | cons y ys ih =>
    intro x hx l n heq
    rcases List.mem_cons.1 hx with rfl | hx
    · obtain ⟨q, hq, -, hd⟩ := h.1 l n heq
      obtain ⟨q', hq', -, hd'⟩ := h'.1 l n heq
      have hqq := List.append_cancel_left (Option.some_inj.1 (hq.symm.trans hq'))
      have hsame : q = q' := List.append_cancel_right hqq
      have hlen := congrArg List.length (hd.symm.trans hd')
      rw [hsame, List.length_append, List.length_append] at hlen
      omega
    · exact ih h.2 h'.2 x hx l n heq

theorem Level.nil : Level t top base d [] := ⟨trivial, rfl⟩

theorem Level.append (h : Level t top base d xs) (h' : Level t top base d ys) :
    Level t top base d (xs ++ ys) := by
  unfold Level succeeded
  rw [List.map_append]
  refine ⟨mirrored_append.2 ⟨h.1, ?_⟩, ?_⟩
  · rw [show serverDir d (xs.map fun r => (r, true)) = d from h.2]
    exact h'.1
  · rw [serverDir_append, show serverDir d (xs.map fun r => (r, true)) = d from h.2]
    exact h'.2

theorem Level.inside {name : Name} (h : Level t top base (d ++ [name]) xs) :
    Level t top base d (.setpath false name :: (xs ++ [.setpath true []])) := by
  unfold Level succeeded
  rw [List.map_cons, List.map_append]
  constructor
  · refine ⟨fun _ _ heq => (by cases heq), mirrored_append.2
      ⟨h.1, fun _ _ heq => (by cases heq), trivial⟩⟩
  · show serverDir (d ++ [name]) (_ ++ _) = d
    rw [serverDir_append, show serverDir (d ++ [name]) (xs.map fun r => (r, true)) = d ++
      [name] from h.2]
    exact List.dropLast_concat

theorem Level.flatMap {names : List Name} {g : Name → List IrcpRequest}
    (h : ∀ name ∈ names, Level t top base d (g name)) : Level t top base d (names.flatMap g) := by
  induction names with
  | nil => exact Level.nil
  | cons name names ih =>
    rw [List.flatMap_cons]
    exact (h name List.mem_cons_self).append (ih fun n hn => h n (List.mem_cons_of_mem _ hn))

theorem timesPut_append (f : Path) :
    timesPut t top f (xs ++ ys) = timesPut t top f xs + timesPut t top f ys :=
  List.countP_append

theorem Once.nil : Once t top (fun _ => False) [] := fun _ => ⟨fun hf => hf.elim, fun _ => rfl⟩

theorem Once.congr (h : Once t top F xs) (hF : ∀ f, F f ↔ G f) : Once t top G xs := by
  intro f
  rw [← hF f]
  exact h f

theorem Once.append (h : Once t top F xs) (h' : Once t top G ys) (hd : ∀ f, F f → ¬ G f) :
    Once t top (fun f => F f ∨ G f) (xs ++ ys) := by
  intro f
  obtain ⟨h1, h0⟩ := h f
  obtain ⟨h1', h0'⟩ := h' f
  rw [timesPut_append]
  constructor
  · rintro (hf | hf)
    · rw [h1 hf, h0' (hd f hf)]
    · rw [h1' hf, h0 fun hf' => hd f hf' hf]
  · intro hno
    rw [h0 fun hf => hno (.inl hf), h0' fun hf => hno (.inr hf)]

theorem Once.inside {name : Name} (h : Once t top F xs) :
    Once t top F (.setpath false name :: (xs ++ [.setpath true []])) := by
  intro f
  have hsame : timesPut t top f (.setpath false name :: (xs ++ [.setpath true []])) = timesPut t top
    f xs := by
    rw [← List.singleton_append, timesPut_append, timesPut_append]
    show 0 + (_ + 0) = _
    omega
  rw [hsame]
  exact h f

theorem Once.flatMap {names : List Name} {g : Name → List IrcpRequest} {G : Name → Path → Prop}
    (h : ∀ name ∈ names, Once t top (G name) (g name)) (hnodup : names.Nodup)
    (hd : ∀ n n' f, G n f → G n' f → n = n') :
    Once t top (fun f => ∃ name ∈ names, G name f) (names.flatMap g) := by
  induction names with
  | nil => exact Once.nil.congr fun f => by simp
  | cons name names ih =>
    obtain ⟨hnew, hnodup⟩ := List.nodup_cons.1 hnodup
    have hrest := ih (fun n hn => h n (List.mem_cons_of_mem _ hn)) hnodup
    rw [List.flatMap_cons]
    refine ((h name List.mem_cons_self).append hrest ?_).congr fun f => by simp
    rintro f hf ⟨n, hn, hf'⟩
    exact hnew (hd name n f hf hf' ▸ hn)

end

/-! ## The local names -/

/-- The name the traversal has for `q` under the top directory. -/
def relName (q : Path) : Name := dot ++ q.flatMap fun name => slash :: name

theorem relName_concat (q : Path) (name : Name) :
    relName (q ++ [name]) = relName q ++ slash :: name := by
  unfold relName
  rw [List.flatMap_append, List.append_assoc, List.flatMap_singleton]

theorem stripSlashes_append {a name : Name} (h : slash ∉ name) :
    stripSlashes (a ++ slash :: name) = name := by
  have hall : ∀ c ∈ name.reverse, decide (c ≠ slash) = true := by
    intro c hc
    exact decide_eq_true fun heq => h (heq ▸ List.mem_reverse.1 hc)
  unfold stripSlashes List.rtakeWhile
  rw [List.reverse_append, List.reverse_cons, List.append_assoc, List.takeWhile_append_of_pos hall,
    List.singleton_append, List.takeWhile_cons_of_neg (by simp), List.append_nil, List.reverse_reverse]

/-- `list` has the names in every directory, in some order, and the tree is at most `depth` levels deep
under `top`. -/
structure Listed (t : Tree) (list : Path → List Name) (top : Path) (depth : Nat) : Prop where
  dir : t.node top = some .dir
  nodup : ∀ p, (list p).Nodup
  mem : ∀ p name, (t.node (p ++ [name])).isSome → name ∈ list p
  only : ∀ p name, t.node p = some .dir → name ∈ list p →
    name = dot ∨ name = dotdot ∨ (t.node (p ++ [name])).isSome
  plain : ∀ p name, (t.node (p ++ [name])).isSome → Plain name ∧ slash ∉ name
  short : ∀ q, (t.node (top ++ q)).isSome → (relName q).length < maxpathlen
  depth : ∀ q, (t.node (top ++ q)).isSome → q.length ≤ depth

section

variable {t : Tree} {list : Path → List Name} {top base q : Path} {depth : Nat}
    (ht : Listed t list top depth)

theorem Listed.parent {name : Name} (h : (t.node (top ++ (q ++ [name]))).isSome) :
    t.node (top ++ q) = some .dir :=
  t.parent (top ++ q) name (by rw [List.append_assoc]; exact h)

include ht

theorem Listed.name {name : Name} (h : (t.node (top ++ (q ++ [name]))).isSome) :
    Plain name ∧ slash ∉ name :=
  ht.plain (top ++ q) name (by rw [List.append_assoc]; exact h)

theorem Listed.components_relName (h : (t.node (top ++ q)).isSome) :
    components (relName q) = dot :: q := by
  induction q using List.reverseRecOn with
  | nil => decide
  | append_singleton q name ih =>
    have hdir := Listed.parent h
    rw [relName_concat, components_append, ih (by rw [hdir]; rfl), components,
      List.splitOn_eq_singleton (ht.name h).2]
    rfl

theorem Listed.walk (h : (t.node (top ++ q)).isSome) : t.walk top q = some (top ++ q) := by
  induction q using List.reverseRecOn with
  | nil => exact congrArg some (List.append_nil _).symm
  | append_singleton q name ih =>
    have hdir := Listed.parent h
    obtain ⟨hplain, -⟩ := ht.name h
    rw [Tree.walk_append, ih (by rw [hdir]; rfl), Option.bind_some]
    show (t.enter (top ++ q) name).bind _ = _
    unfold Tree.enter
    rw [if_pos hdir, if_neg (not_or.2 ⟨hplain.1, hplain.2.1⟩), if_neg hplain.2.2, List.append_assoc,
      if_pos h]
    rfl

theorem Listed.leadsTo (h : (t.node (top ++ q)).isSome) :
    leadsTo t top (relName q) = some (top ++ q) := by
  unfold OpenObex.leadsTo
  rw [ht.components_relName h]
  show (t.enter top dot).bind _ = _
  unfold Tree.enter
  rw [if_pos ht.dir, if_pos (.inr rfl), Option.bind_some]
  exact ht.walk h

end

/-! ## The plan -/

/-- For one entry of the directory `q`; `below` is for the directories under it. -/
def entryPlan (t : Tree) (top : Path) (below : Path → List IrcpRequest) (q : Path) (name : Name) :
    List IrcpRequest :=
  if name = dot ∨ name = dotdot then []
  else match t.node (top ++ (q ++ [name])) with
    | some .file => [.put (relName (q ++ [name])) name]
    | some .dir => .setpath false name :: (below (q ++ [name]) ++ [.setpath true []])
    | none => []

/-- The requests that bring all that is in the directory `q` to the server, at most `n` levels. -/
def plan (t : Tree) (list : Path → List Name) (top : Path) : Nat → Path → List IrcpRequest
  | 0, _ => []
  | n + 1, q => (list (top ++ q)).flatMap (entryPlan t top (plan t list top n) q)

/-- The regular files at or under `q`. -/
def FilesUnder (t : Tree) (top q : Path) (f : Path) : Prop := q <+: f ∧ t.node (top ++ f) = some .file

section

variable {t : Tree} {list : Path → List Name} {top q : Path} {depth n : Nat}
    (ht : Listed t list top depth)

include ht in
theorem plan_level (base : Path) (n : Nat) (q : Path) :
    Level t top base (base ++ q) (plan t list top n q) := by
  induction n generalizing q with
  | zero => exact Level.nil
  | succ n ih =>
    refine Level.flatMap fun name _ => ?_
    unfold entryPlan
    by_cases hdots : name = dot ∨ name = dotdot
    · rw [if_pos hdots]
      exact Level.nil
    · rw [if_neg hdots]
      cases hk : t.node (top ++ (q ++ [name])) with
      | none => exact Level.nil
      | some k =>
        cases k with
        | file =>
          have hlead := ht.leadsTo (q := q ++ [name]) (by rw [hk]; rfl)
          refine ⟨⟨fun l n heq => ?_, trivial⟩, rfl⟩
          cases heq
          exact ⟨q, hlead, hk, rfl⟩
        | dir =>
          refine Level.inside ?_
          rw [List.append_assoc]
          exact ih _

theorem filesUnder_disjoint {name n : Name} {f : Path} (h : FilesUnder t top (q ++ [name]) f)
    (h' : FilesUnder t top (q ++ [n]) f) : name = n := by
  obtain ⟨⟨r, hr⟩, -⟩ := h
  obtain ⟨⟨r', hr'⟩, -⟩ := h'
  rw [List.append_assoc] at hr hr'
  have heq := List.append_cancel_left (hr.trans hr'.symm)
  cases heq
  rfl

include ht in
/-- A file has nothing below it. -/
theorem put_once {name : Name} (h : t.node (top ++ (q ++ [name])) = some .file) :
    Once t top (FilesUnder t top (q ++ [name])) [.put (relName (q ++ [name])) name] := by
  intro f
  have hlead := ht.leadsTo (q := q ++ [name]) (by rw [h]; rfl)
  have htimes : timesPut t top f [.put (relName (q ++ [name])) name] = if q ++ [name] =
    f then 1 else 0 := by
    unfold timesPut
    rw [List.countP_singleton]
    show (if decide (leadsTo t top (relName (q ++ [name])) = some (top ++ f)) = true then 1 else 0) = _
    rw [hlead]
    by_cases hf : q ++ [name] = f
    · rw [if_pos hf, if_pos (by rw [hf]; exact decide_eq_true rfl)]
    · rw [if_neg hf, if_neg]
      intro heq
      exact hf (List.append_cancel_left (Option.some_inj.1 (of_decide_eq_true heq)))
  rw [htimes]
  constructor
  · rintro ⟨⟨rest, rfl⟩, hfile⟩
    cases rest with
    | nil => rw [List.append_nil, if_pos rfl]
    | cons n rest =>
      have hbelow : (t.node (top ++ (q ++ [name]) ++ n :: rest)).isSome := by
        rw [List.append_assoc, hfile]
        rfl
      cases h.symm.trans (t.dir_of_below hbelow)
  · intro hno
    rw [if_neg]
    rintro rfl
    exact hno ⟨List.prefix_rfl, h⟩

/-- What is under a directory is under one of its entries. -/
theorem filesUnder_dir (hq : t.node (top ++ q) = some .dir) (f : Path) :
    FilesUnder t top q f ↔ ∃ name, (t.node (top ++ (q ++ [name]))).isSome ∧ FilesUnder t top
      (q ++ [name]) f := by
  constructor
  · rintro ⟨⟨rest, rfl⟩, hfile⟩
    cases rest with
    | nil =>
      rw [List.append_nil] at hfile
      cases hq.symm.trans hfile
    | cons name rest =>
      have hbelow : (t.node (top ++ (q ++ [name]) ++ rest)).isSome := by
        rw [List.append_assoc, List.append_assoc, List.singleton_append, hfile]
        rfl
      refine ⟨name, t.isSome_of_below hbelow, ⟨rest, ?_⟩, hfile⟩
      rw [List.append_assoc, List.singleton_append]
  · rintro ⟨name, -, hpre, hfile⟩
    exact ⟨(List.prefix_append q [name]).trans hpre, hfile⟩

include ht in
theorem plan_once (hn : depth < n + q.length) (hq : t.node (top ++ q) = some .dir) :
    Once t top (FilesUnder t top q) (plan t list top n q) := by
  induction n generalizing q with
  | zero =>
    have hdepth := ht.depth q (by rw [hq]; rfl)
    omega
  | succ n ih =>
    have hentry : ∀ name ∈ list (top ++ q), Once t top
        (fun f => (t.node (top ++ (q ++ [name]))).isSome ∧ FilesUnder t top (q ++ [name]) f)
        (entryPlan t top (plan t list top n) q name) := by
      intro name hname
      unfold entryPlan
      by_cases hsome : (t.node (top ++ (q ++ [name]))).isSome
      · obtain ⟨hplain, -⟩ := ht.name hsome
        rw [if_neg (not_or.2 hplain.2)]
        obtain ⟨k, hk⟩ := Option.isSome_iff_exists.1 hsome
        rw [hk]
        cases k with
        | file => exact (put_once ht hk).congr fun f => ⟨fun hf => ⟨rfl, hf⟩, fun hf => hf.2⟩
        | dir =>
          have hlonger : depth < n + (q ++ [name]).length := by
            rw [List.length_append, List.length_singleton]
            omega
          exact (ih hlonger hk).inside.congr fun f => ⟨fun hf => ⟨rfl, hf⟩, fun hf => hf.2⟩
      · have hno : ∀ f, False ↔ (t.node (top ++ (q ++ [name]))).isSome ∧ FilesUnder t top
          (q ++ [name]) f :=
          fun f => ⟨False.elim, fun hf => hsome hf.1⟩
        rw [Option.not_isSome_iff_eq_none.1 hsome]
        split_ifs
        · exact Once.nil.congr (by rwa [Option.not_isSome_iff_eq_none.1 hsome] at hno)
        · exact Once.nil.congr (by rwa [Option.not_isSome_iff_eq_none.1 hsome] at hno)
    refine (Once.flatMap hentry (ht.nodup _) fun _ _ f hf hf' => filesUnder_disjoint hf.2 hf'.2).congr
      fun f => ?_
    rw [filesUnder_dir hq]
    constructor
    · rintro ⟨name, -, hf⟩
      exact ⟨name, hf⟩
    · rintro ⟨name, hsome, hf⟩
      exact ⟨name, ht.mem _ _ (by rwa [List.append_assoc]), hsome, hf⟩

end

def IrcpRequest.isPut : IrcpRequest → Bool
  | .put _ _ => true
  | _ => false

/-! ## Requests that are refused -/

section

variable (peer : List (IrcpRequest × Bool) → IrcpRequest → Bool)

/-- The peer grants every request. -/
def AllGranted : List (IrcpRequest × Bool) → List IrcpRequest → Prop
  | _, [] => True
  | e, r :: rs => peer e r = true ∧ AllGranted (e ++ [(r, true)]) rs

/-- The requests that are made, up to the first one the peer refuses. -/
def answered : List (IrcpRequest × Bool) → List IrcpRequest → List (IrcpRequest × Bool)
  | _, [] => []
  | e, r :: rs => if peer e r then (r, true) :: answered (e ++ [(r, true)]) rs else [(r, false)]

variable {peer} {e : List (IrcpRequest × Bool)} {rs rs' : List IrcpRequest} {t : Tree}
    {top base d : Path}

theorem answered_allGranted (h : AllGranted peer e rs) : answered peer e rs = succeeded rs := by
  induction rs generalizing e with
  | nil => rfl
  | cons r rs ih =>
    rw [answered, if_pos h.1, ih h.2]
    rfl

theorem allGranted_append :
    AllGranted peer e (rs ++ rs') ↔ AllGranted peer e rs ∧ AllGranted peer
      (e ++ answered peer e rs) rs' := by
  induction rs generalizing e with
  | nil =>
    rw [List.nil_append, answered, List.append_nil]
    exact ⟨fun h => ⟨trivial, h⟩, fun h => h.2⟩
  | cons r rs ih =>
    show (peer e r = true ∧ AllGranted peer _ (rs ++ rs')) ↔
      (peer e r = true ∧ AllGranted peer _ rs) ∧ _
    rw [ih, and_assoc]
    refine and_congr_right fun hr => ?_
    rw [answered, if_pos hr, List.append_assoc, List.singleton_append]

theorem answered_append (h : AllGranted peer e rs) :
    answered peer e (rs ++ rs') = answered peer e rs ++ answered peer
      (e ++ answered peer e rs) rs' := by
  induction rs generalizing e with
  | nil => rw [List.nil_append, answered, List.append_nil, List.nil_append]
  | cons r rs ih =>
    rw [List.cons_append, answered, answered, if_pos h.1, if_pos h.1, ih h.2, List.cons_append,
      List.append_assoc, List.singleton_append]

theorem answered_refused (h : ¬ AllGranted peer e rs) :
    answered peer e (rs ++ rs') = answered peer e rs := by
  induction rs generalizing e with
  | nil => exact (h trivial).elim
  | cons r rs ih =>
    rw [List.cons_append, answered, answered]
    by_cases hr : peer e r = true
    · rw [if_pos hr, if_pos hr, ih fun hrs => h ⟨hr, hrs⟩]
    · rw [if_neg hr, if_neg hr]

theorem allGranted_of_all (h : ∀ x ∈ answered peer e rs, x.2 = true) : AllGranted peer e rs := by
  induction rs generalizing e with
  | nil => trivial
  | cons r rs ih =>
    rw [answered] at h
    by_cases hr : peer e r = true
    · rw [if_pos hr] at h
      exact ⟨hr, ih fun x hx => h x (List.mem_cons_of_mem _ hx)⟩
    · rw [if_neg hr] at h
      cases h _ (List.mem_singleton_self _)

theorem Mirrored.answered (h : Mirrored t top base d (succeeded rs)) :
    Mirrored t top base d (answered peer e rs) := by
  induction rs generalizing e d with
  | nil => trivial
  | cons r rs ih =>
    rw [OpenObex.answered]
    split_ifs
    · exact ⟨h.1, ih h.2⟩
    · exact ⟨h.1, trivial⟩

/-- A PUT is made when all before the first one is granted. -/
theorem put_answered : (∃ x ∈ answered peer e rs, x.1.isPut = true) ↔
    (∃ r ∈ rs, r.isPut = true) ∧ AllGranted peer e (rs.takeWhile fun r => !r.isPut) := by
  induction rs generalizing e with
  | nil =>
    constructor
    · rintro ⟨x, hx, -⟩
      cases hx
    · rintro ⟨⟨r, hr, -⟩, -⟩
      cases hr
  | cons r rs ih =>
    rw [answered]
    cases hput : r.isPut with
    | true =>
      rw [List.takeWhile_cons_of_neg (by rw [hput]; decide)]
      refine ⟨fun _ => ⟨⟨r, List.mem_cons_self, hput⟩, trivial⟩, fun _ => ?_⟩
      split_ifs
      · exact ⟨_, List.mem_cons_self, hput⟩
      · exact ⟨_, List.mem_cons_self, hput⟩
    | false =>
      rw [List.takeWhile_cons_of_pos (by rw [hput]; decide)]
      have hrest : (∃ r' ∈ r :: rs, r'.isPut = true) ↔ ∃ r' ∈ rs, r'.isPut = true := by simp [hput]
      show _ ↔ _ ∧ (peer e r = true ∧ _)
      rw [hrest, and_left_comm, ← ih]
      by_cases hr : peer e r = true
      · rw [if_pos hr]
        simp [hput, hr]
      · rw [if_neg hr]
        simp [hput, hr]

end

end OpenObex
