import Mathlib.Data.List.DropRight
import Mathlib.Data.List.Infix

/-!
# A file system without symbolic links

A `Tree` says of every path from the root what is there; a node's parent is a directory. Path names
are walked one component after the other: the empty one and `.` stay, `..` goes up, any other name
must exist. `Sys` is a process in such a tree. Its system calls may fail at any time, as the `Os`
decides by the number of calls made so far, and `created` lists the paths they have made.
-/

namespace Files

abbrev Name := List UInt8

abbrev Path := List Name

inductive Kind
  | dir
  | file
  deriving DecidableEq, Repr

def slash : UInt8 := 47

/-- `.` and `..` -/
def dot : Name := [46]
def dotdot : Name := [46, 46]

/-- A name of an entry. -/
def Plain (name : Name) : Prop := name ≠ [] ∧ name ≠ dot ∧ name ≠ dotdot

instance : DecidablePred Plain := fun name =>
  inferInstanceAs (Decidable (name ≠ [] ∧ name ≠ dot ∧ name ≠ dotdot))

/-! ## Trees -/

structure Tree where
  node : Path → Option Kind
  root : node [] = some .dir
  parent : ∀ p name, (node (p ++ [name])).isSome → node p = some .dir

namespace Tree

/-- A new entry of a directory. -/
def add (t : Tree) (p : Path) (name : Name) (k : Kind)
    (h : t.node p = some .dir ∧ t.node (p ++ [name]) = none) : Tree where
  node q := if q = p ++ [name] then some k else t.node q
  root := by
    rw [if_neg (by simp)]
    exact t.root
  parent := by
    intro q n hq
    have hne : q ≠ p ++ [name] := by
      intro he
      by_cases hn : q ++ [n] = p ++ [name]
      · rw [he] at hn
        simp at hn
      · rw [if_neg hn] at hq
        have hdir := t.parent q n hq
        rw [he, h.2] at hdir
        cases hdir
    rw [if_neg hne]
    by_cases hn : q ++ [n] = p ++ [name]
    · rw [(List.append_inj' hn rfl).1]
      exact h.1
    · rw [if_neg hn] at hq
      exact t.parent q n hq

/-- Everything in `t` is in `u`. -/
instance : LE Tree := ⟨fun t u => ∀ p k, t.node p = some k → u.node p = some k⟩

theorem le_refl (t : Tree) : t ≤ t := fun _ _ h => h

theorem le_trans {t u v : Tree} (h : t ≤ u) (h' : u ≤ v) : t ≤ v :=
  fun p k hk => h' p k (h p k hk)

theorem le_add {t : Tree} {p : Path} {name : Name} {k : Kind}
    (h : t.node p = some .dir ∧ t.node (p ++ [name]) = none) : t ≤ t.add p name k h := by
  intro q l hq
  have hne : q ≠ p ++ [name] := by
    intro he
    rw [he, h.2] at hq
    cases hq
  show (if q = p ++ [name] then some k else t.node q) = some l
  rw [if_neg hne]
  exact hq

theorem isSome_mono {t u : Tree} (h : t ≤ u) {p : Path} (hp : (t.node p).isSome) :
    (u.node p).isSome := by
  obtain ⟨k, hk⟩ := Option.isSome_iff_exists.1 hp
  rw [h p k hk]
  rfl

theorem dir_of_below (t : Tree) {p rest : Path} {name : Name}
    (h : (t.node (p ++ name :: rest)).isSome) :
    t.node p = some .dir := by
  induction rest using List.reverseRecOn with
  | nil => exact t.parent p name h
  | append_singleton rest last ih =>
    refine ih ?_
    rw [t.parent (p ++ name :: rest) last (by rwa [List.append_assoc, List.cons_append])]
    rfl

theorem isSome_of_below (t : Tree) {p rest : Path} (h : (t.node (p ++ rest)).isSome) :
    (t.node p).isSome := by
  cases rest with
  | nil => rwa [List.append_nil] at h
  | cons name rest =>
    rw [t.dir_of_below h]
    rfl

/-! ## Walks -/

/-- One component from `p` on. -/
def enter (t : Tree) (p : Path) (name : Name) : Option Path :=
  if t.node p = some .dir then
    if name = [] ∨ name = dot then some p
    else if name = dotdot then some p.dropLast
    else if (t.node (p ++ [name])).isSome then some (p ++ [name])
    else none
  else none

def walk (t : Tree) : Path → List Name → Option Path
  | p, [] => some p
  | p, name :: names => (t.enter p name).bind fun q => t.walk q names

variable {t u : Tree} {p q : Path} {names : List Name}

theorem walk_append (xs ys : List Name) :
    t.walk p (xs ++ ys) = (t.walk p xs).bind fun q => t.walk q ys := by
  induction xs generalizing p with
  | nil => rfl
  | cons name xs ih =>
    simp only [List.cons_append, walk, Option.bind_assoc]
    congr 1
    funext q
    exact ih

theorem enter_mono (h : t ≤ u) {name : Name} (he : t.enter p name = some q) :
    u.enter p name = some q := by
  unfold enter at he ⊢
  by_cases hdir : t.node p = some .dir
  · rw [if_pos hdir] at he
    rw [if_pos (h p _ hdir)]
    by_cases hex : (t.node (p ++ [name])).isSome
    · rw [if_pos (isSome_mono h hex)]
      rwa [if_pos hex] at he
    · rw [if_neg hex] at he
      split_ifs at he ⊢ <;> exact he
  · rw [if_neg hdir] at he
    cases he

theorem walk_mono (h : t ≤ u) (hw : t.walk p names = some q) : u.walk p names = some q := by
  induction names generalizing p with
  | nil => exact hw
  | cons name names ih =>
    obtain ⟨r, hr, hw⟩ := Option.bind_eq_some_iff.1 hw
    rw [walk, enter_mono h hr]
    exact ih hw

/-- What a component that is not `..` adds. -/
theorem enter_down {name : Name} (hname : name ≠ dotdot) (he : t.enter p name = some q) :
    q = p ++ [name].filter Plain := by
  unfold enter at he
  split_ifs at he with hdir hstay hex
  · have hplain : ¬ Plain name := by
      intro hp
      rcases hstay with hn | hn
      · exact hp.1 hn
      · exact hp.2.1 hn
    rw [List.filter_singleton, decide_eq_false hplain]
    simpa using (Option.some_inj.1 he).symm
  · have hplain : Plain name := ⟨fun hn => hstay (Or.inl hn), fun hn => hstay (Or.inr hn), hname⟩
    rw [List.filter_singleton, decide_eq_true hplain]
    exact (Option.some_inj.1 he).symm

/-- A walk without `..` goes down. -/
theorem walk_down (hnames : dotdot ∉ names) (hw : t.walk p names = some q) :
    q = p ++ names.filter Plain := by
  induction names generalizing p with
  | nil =>
    rw [List.filter_nil, List.append_nil]
    exact (Option.some_inj.1 hw).symm
  | cons name names ih =>
    obtain ⟨r, hr, hw⟩ := Option.bind_eq_some_iff.1 hw
    have hne : name ≠ dotdot := fun he => hnames (he ▸ List.mem_cons_self)
    rw [ih (fun hm => hnames (List.mem_cons_of_mem _ hm)) hw, enter_down hne hr, List.append_assoc,
      ← List.filter_append, List.singleton_append]

theorem enter_up (he : t.enter p dotdot = some q) : q = p.dropLast := by
  unfold enter at he
  rw [if_neg (by decide : ¬ (dotdot = [] ∨ dotdot = dot)), if_pos rfl] at he
  split_ifs at he
  exact (Option.some_inj.1 he).symm

end Tree

/-- How many levels the components lead down. -/
def descent (names : List Name) : Int := (names.filter Plain).length - names.count dotdot

theorem getLast?_of_mem {α : Type} {x : α} {xs : List α} (h : x ∉ xs.dropLast) (hx : x ∈ xs) :
    xs.getLast? = some x := by
  obtain rfl | ⟨init, last, rfl⟩ := List.eq_nil_or_concat' xs
  · cases hx
  · rw [List.dropLast_concat] at h
    rw [List.getLast?_concat]
    rcases List.mem_append.1 hx with hx | hx
    · exact absurd hx h
    · rw [List.mem_singleton.1 hx]

/-- A walk that has `..` only at its end stays under `base` if its depth allows it. -/
theorem Tree.walk_below {t : Tree} {base p q : Path} {names : List Name}
    (hnames : dotdot ∉ names.dropLast) (hw : t.walk p names = some q) (hbase : base <+: p)
    (hdepth : (base.length : Int) < p.length + descent names) :
    base <+: q ∧ (q.length : Int) = p.length + descent names := by
  by_cases hlast : names.getLast? = some dotdot
  · obtain ⟨init, rfl⟩ := List.getLast?_eq_some_iff.1 hlast
    rw [List.dropLast_concat] at hnames
    rw [walk_append] at hw
    obtain ⟨r, hr, hw⟩ := Option.bind_eq_some_iff.1 hw
    obtain ⟨q', hq, hw⟩ := Option.bind_eq_some_iff.1 hw
    have hr' := walk_down hnames hr
    have hq' := enter_up hq
    have hd : descent (init ++ [dotdot]) = (init.filter Plain).length - 1 := by
      simp [descent, List.filter_append, List.count_eq_zero.2 hnames, Plain]
    have hlen : (r.length : Int) = p.length + (init.filter Plain).length := by
      rw [hr', List.length_append]
      omega
    have hqlen : q.length = r.length - 1 := by
      rw [← Option.some_inj.1 hw, hq', List.length_dropLast]
    rw [hd] at hdepth ⊢
    refine ⟨?_, by omega⟩
    have hbr : base <+: r := by
      rw [hr']
      exact hbase.trans (List.prefix_append _ _)
    have hqr : q <+: r := by
      rw [← Option.some_inj.1 hw, hq']
      exact List.dropLast_prefix r
    exact List.prefix_of_prefix_length_le hbr hqr (by omega)
  · have hall : dotdot ∉ names := fun hm => hlast (getLast?_of_mem hnames hm)
    have hq := walk_down hall hw
    have hd : descent names = (names.filter Plain).length := by
      simp [descent, List.count_eq_zero.2 hall]
    rw [hq, hd]
    refine ⟨hbase.trans (List.prefix_append _ _), ?_⟩
    rw [List.length_append]
    omega

/-! ## Path names -/

/-- `PATH_MAX`; a longer name, with its terminator, is refused. -/
def pathMax : Nat := 4096

def components (path : Name) : List Name := path.splitOn slash

/-- The parts between the slashes put together again. -/
theorem components_append (a b : Name) : components (a ++ slash :: b) = components a ++ components b :=
  List.splitOn_append_cons_self a b

theorem intercalate_append {α : Type} {sep : List α} {xs ys : List (List α)} (hx : xs ≠ [])
    (hy : ys ≠ []) :
    sep.intercalate (xs ++ ys) = sep.intercalate xs ++ (sep ++ sep.intercalate ys) := by
  induction xs with
  | nil => exact absurd rfl hx
  | cons x xs ih =>
    cases xs with
    | nil =>
      rw [List.singleton_append, List.intercalate_cons_of_ne_nil hy, List.intercalate_singleton,
        List.append_assoc]
    | cons x' xs =>
      rw [List.cons_append, List.intercalate_cons_of_ne_nil (by simp), ih (by simp),
        List.intercalate_cons_cons]
      simp only [List.append_assoc]

/-- A component `..` that is not the last one shows in the path name. -/
theorem dotdot_shows {path : Name} (h : dotdot ∈ (components path).dropLast) :
    dotdot ++ [slash] <+: path ∨ [slash] ++ dotdot ++ [slash] <:+: path := by
  obtain ⟨xs, ys, hxy⟩ := List.append_of_mem h
  obtain ⟨init, last, hinit⟩ : ∃ init last, components path = init ++ [last] := by
    obtain hnil | h' := List.eq_nil_or_concat' (components path)
    · exact absurd hnil (List.splitOn_ne_nil slash path)
    · exact h'
  rw [hinit, List.dropLast_concat] at hxy
  have hrest : [slash].intercalate (dotdot :: (ys ++ [last])) =
      dotdot ++ [slash] ++ [slash].intercalate (ys ++ [last]) :=
    List.intercalate_cons_of_ne_nil (by simp)
  have hpath : path = [slash].intercalate (xs ++ dotdot :: (ys ++ [last])) := by
    have hparts : [slash].intercalate (components path) = path := List.intercalate_splitOn slash
    rw [← hparts, hinit, hxy, List.append_assoc, List.cons_append]
  cases xs with
  | nil =>
    left
    rw [hpath, List.nil_append, hrest]
    exact List.prefix_append _ _
  | cons x xs =>
    right
    rw [hpath, intercalate_append (by simp) (by simp), hrest]
    exact ⟨[slash].intercalate (x :: xs), [slash].intercalate (ys ++ [last]), by
      simp only [List.append_assoc]⟩

theorem components_append_tail {a b : Name} (hb : slash ∉ b) :
    (components (a ++ b)).dropLast = (components a).dropLast := by
  induction hn : a.length using Nat.strong_induction_on generalizing a with
  | _ n ih =>
    by_cases ha : slash ∈ a
    · obtain ⟨x, y, hxy, -⟩ := List.eq_append_cons_of_mem ha
      have hlt : y.length < n := by
        rw [← hn, hxy, List.length_append, List.length_cons]
        omega
      have hne : ∀ z, components z ≠ [] := List.splitOn_ne_nil slash
      rw [hxy, List.append_assoc, List.cons_append, components_append, components_append,
        List.dropLast_append_of_ne_nil (hne _), List.dropLast_append_of_ne_nil (hne _),
        ih _ hlt rfl]
    · have hab : slash ∉ a ++ b := by
        intro hm
        rcases List.mem_append.1 hm with hm | hm
        · exact ha hm
        · exact hb hm
      rw [components, components, List.splitOn_eq_singleton hab, List.splitOn_eq_singleton ha]
      rfl

/-! ## System calls -/

structure Os where
  /-- Whether the system call fails for a reason the tree does not give. -/
  deny : Nat → Bool
  /-- The descriptor of a file that is opened. -/
  fd : Nat → Nat
  /-- What `mkstemp` puts for the six last characters. -/
  suffix : Nat → Name
  suffix_plain : ∀ n, (suffix n).length = 6 ∧ slash ∉ suffix n

structure Sys where
  tree : Tree
  cwd : Path
  clock : Nat
  created : List Path

namespace Sys

def tick (s : Sys) : Sys := { s with clock := s.clock + 1 }

/-- Where the walk of a path name starts. -/
def origin (s : Sys) (path : Name) : Path := if path.head? = some slash then [] else s.cwd

def valid (path : Name) : Bool := path ≠ [] ∧ path.length < pathMax

/-- The node a path name leads to. -/
def resolve (s : Sys) (path : Name) : Option Path :=
  if valid path then s.tree.walk (s.origin path) (components path) else none

/-- The directory and the name a new entry gets. -/
def place (s : Sys) (path : Name) (names : List Name) : Option (Path × Name) :=
  match names.getLast? with
  | some last =>
    if valid path ∧ Plain last then
      (s.tree.walk (s.origin path) names.dropLast).map fun dir => (dir, last)
    else none
  | none => none

/-- Make the entry. -/
def make (s : Sys) (k : Kind) : Option (Path × Name) → Bool × Sys
  | some (dir, name) =>
    if h : s.tree.node dir = some .dir ∧ s.tree.node (dir ++ [name]) = none then
      (true, { s.tick with
        tree := s.tree.add dir name k h
        created := s.created ++ [dir ++ [name]] })
    else (false, s.tick)
  | none => (false, s.tick)

end Sys

section
variable (os : Os)

def stat (path : Name) (s : Sys) : Option Kind × Sys :=
  (if os.deny s.clock then none else (s.resolve path).bind s.tree.node, s.tick)

def chdir (path : Name) (s : Sys) : Bool × Sys :=
  match s.resolve path with
  | some p =>
    if os.deny s.clock = false ∧ s.tree.node p = some .dir then (true, { s.tick with cwd := p })
    else (false, s.tick)
  | none => (false, s.tick)

/-- The path name of the current directory. -/
def getcwd (s : Sys) : Option Name × Sys :=
  (if os.deny s.clock then none
    else some (if s.cwd = [] then [slash] else s.cwd.flatMap fun name => slash :: name), s.tick)

/-- `opendir`, with what the calls of `readdir` then yield: `list` has the names of every directory. -/
def opendir (list : Path → List Name) (path : Name) (s : Sys) : Option (List Name) × Sys :=
  (if os.deny s.clock then none
    else (s.resolve path).bind fun p =>
      if s.tree.node p = some .dir then some (list p) else none, s.tick)

/-- `open` of a file that is there. -/
def openFile (path : Name) (s : Sys) : Int × Sys :=
  (if os.deny s.clock then -1
    else if ((s.resolve path).bind s.tree.node).isSome then os.fd s.clock
    else -1, s.tick)

/-- Slashes at the end are allowed. -/
def mkdir (path : Name) (s : Sys) : Bool × Sys :=
  if os.deny s.clock then (false, s.tick)
  else s.make .dir (s.place path ((components path).rdropWhile (· = [])))

/-- `open` with `O_CREAT | O_EXCL`. -/
def create (path : Name) (s : Sys) : Int × Sys :=
  if os.deny s.clock then (-1, s.tick)
  else
    let (made, s') := s.make .file (s.place path (components path))
    (if made then os.fd s.clock else -1, s')

/-- The six last characters of `template` are replaced. -/
def mkstemp (template : Name) (s : Sys) : Int × Sys :=
  create os (template.take (template.length - 6) ++ os.suffix s.clock) s

end

/-! ## Processes under a directory -/

namespace Sys

/-- The process is at or under `base`, and so is all it has created since `made`. -/
structure Under (base : Path) (made : List Path) (s : Sys) : Prop where
  cwd : base <+: s.cwd
  created : ∃ new, s.created = made ++ new ∧ ∀ p ∈ new, base <+: p ∧ base.length < p.length

/-- Nothing is lost and the process does not move. -/
structure Grows (s t : Sys) : Prop where
  tree : s.tree ≤ t.tree
  cwd : t.cwd = s.cwd

theorem Grows.tick (s : Sys) : Grows s s.tick := ⟨s.tree.le_refl, rfl⟩

variable {s t : Sys} {base : Path} {made : List Path} {path : Name} {names : List Name}

theorem Under.tick (h : Under base made s) : Under base made s.tick := ⟨h.cwd, h.created⟩

theorem Under.move (h : Under base made s) {p : Path} (hp : base <+: p) :
    Under base made { s.tick with cwd := p } := ⟨hp, h.created⟩

theorem Under.of_cwd (h : base <+: s.cwd) : Under base s.created s :=
  ⟨h, [], (List.append_nil _).symm, fun _ hp => absurd hp List.not_mem_nil⟩

theorem resolve_mono (h : s.tree ≤ t.tree) (habs : path.head? = some slash) {p : Path}
    (hp : s.resolve path = some p) : t.resolve path = some p := by
  unfold resolve origin at hp ⊢
  rw [if_pos habs] at hp ⊢
  by_cases hv : valid path
  · rw [if_pos hv] at hp ⊢
    exact Tree.walk_mono h hp
  · rw [if_neg hv] at hp
    cases hp

theorem resolve_walk (hrel : path.head? ≠ some slash) {p : Path} (hp : s.resolve path = some p) :
    s.tree.walk s.cwd (components path) = some p := by
  unfold resolve origin at hp
  rw [if_neg hrel] at hp
  by_cases hv : valid path
  · rwa [if_pos hv] at hp
  · rw [if_neg hv] at hp
    cases hp

theorem place_spec {dir : Path} {last : Name} (h : s.place path names = some (dir, last)) :
    names.getLast? = some last ∧ Plain last ∧
      s.tree.walk (s.origin path) names.dropLast = some dir := by
  unfold place at h
  cases hl : names.getLast? with
  | none =>
    rw [hl] at h
    cases h
  | some l =>
    rw [hl] at h
    dsimp only at h
    by_cases hv : valid path ∧ Plain l
    · rw [if_pos hv] at h
      obtain ⟨d, hd, he⟩ := Option.map_eq_some_iff.1 h
      cases he
      exact ⟨rfl, hv.2, hd⟩
    · rw [if_neg hv] at h
      cases h

/-- A new entry is made at or under the directory a relative path name leads to. -/
theorem Under.make (h : Under base made s) (k : Kind) (hrel : path.head? ≠ some slash)
    (hnames : dotdot ∉ names.dropLast) :
    Under base made (s.make k (s.place path names)).2 ∧
      Grows s (s.make k (s.place path names)).2 := by
  cases hp : s.place path names with
  | none => exact ⟨h.tick, Grows.tick s⟩
  | some at' =>
    obtain ⟨dir, name⟩ := at'
    obtain ⟨-, -, hw⟩ := place_spec hp
    rw [origin, if_neg hrel] at hw
    have hdir : base <+: dir := by
      rw [Tree.walk_down hnames hw]
      exact h.cwd.trans (List.prefix_append _ _)
    unfold Sys.make
    dsimp only
    by_cases hfree : s.tree.node dir = some .dir ∧ s.tree.node (dir ++ [name]) = none
    · rw [dif_pos hfree]
      obtain ⟨new, hnew, hbelow⟩ := h.created
      refine ⟨⟨h.cwd, new ++ [dir ++ [name]], ?_, ?_⟩, Tree.le_add hfree, rfl⟩
      · show s.created ++ _ = _
        rw [hnew, List.append_assoc]
      · intro p hp
        rcases List.mem_append.1 hp with hp | hp
        · exact hbelow p hp
        · rw [List.mem_singleton.1 hp, List.length_append, List.length_singleton]
          exact ⟨hdir.trans (List.prefix_append _ _), Nat.lt_succ_of_le hdir.length_le⟩
    · rw [dif_neg hfree]
      exact ⟨h.tick, Grows.tick s⟩

theorem make_place (k : Kind) (h : (s.make k (s.place path names)).1 = true) :
    ∃ last, names.getLast? = some last ∧ Plain last := by
  cases hp : s.place path names with
  | none =>
    rw [hp] at h
    cases h
  | some at' =>
    obtain ⟨hl, hplain, -⟩ := place_spec hp
    exact ⟨_, hl, hplain⟩

end Sys

section
variable {os : Os} {s : Sys} {base : Path} {made : List Path} {path : Name}

open Sys

theorem chdir_spec (os : Os) (s : Sys) (path : Name) : (∃ p, s.resolve path = some p ∧
    chdir os path s = (true, { s.tick with cwd := p })) ∨ chdir os path s = (false, s.tick) := by
  unfold chdir
  cases hp : s.resolve path with
  | none => exact Or.inr rfl
  | some p =>
    dsimp only
    split_ifs
    · exact Or.inl ⟨p, rfl, rfl⟩
    · exact Or.inr rfl

theorem resolve_of_stat {k : Kind} (h : (stat os path s).1 = some k) : (s.resolve path).isSome := by
  unfold stat at h
  dsimp only at h
  split_ifs at h
  obtain ⟨p, hp, -⟩ := Option.bind_eq_some_iff.1 h
  rw [hp]
  rfl

theorem mkdir_invalid (h : valid path = false) : mkdir os path s = (false, s.tick) := by
  have hplace : s.place path ((components path).rdropWhile (· = [])) = none := by
    cases hp : s.place path ((components path).rdropWhile (· = [])) with
    | none => rfl
    | some at' =>
      exfalso
      unfold place at hp
      cases hl : ((components path).rdropWhile (· = [])).getLast? with
      | none =>
        rw [hl] at hp
        cases hp
      | some last =>
        rw [hl] at hp
        dsimp only at hp
        rw [if_neg (fun hv => by simp [h] at hv)] at hp
        cases hp
  unfold mkdir
  rw [hplace]
  split_ifs <;> rfl

theorem under_create (os : Os) (h : Under base made s) (hrel : path.head? ≠ some slash)
    (hnames : dotdot ∉ (components path).dropLast) :
    Under base made (create os path s).2 ∧ Grows s (create os path s).2 := by
  unfold create
  split_ifs
  · exact ⟨h.tick, Grows.tick s⟩
  · exact h.make .file hrel hnames

theorem under_mkdir (os : Os) (h : Under base made s) (hrel : path.head? ≠ some slash)
    (hnames : dotdot ∉ (components path).dropLast) :
    Under base made (mkdir os path s).2 ∧ Grows s (mkdir os path s).2 := by
  unfold mkdir
  split_ifs
  · exact ⟨h.tick, Grows.tick s⟩
  · refine h.make .dir hrel fun hm => hnames ?_
    obtain ⟨rest, hrest⟩ := List.rdropWhile_prefix (fun n : Name => decide (n = [])) (components path)
    obtain hnil | ⟨init, last, hinit⟩ := List.eq_nil_or_concat'
      ((components path).rdropWhile (fun n => decide (n = [])))
    · rw [hnil] at hm
      cases hm
    · rw [hinit, List.dropLast_concat] at hm
      rw [← hrest, hinit, List.append_assoc, List.dropLast_append_of_ne_nil (by simp)]
      exact List.mem_append_left _ hm

theorem mkdir_descent (os : Os) (s : Sys) (hnames : dotdot ∉ (components path).dropLast)
    (h : (mkdir os path s).1 = true) : 0 < descent (components path) := by
  unfold mkdir at h
  split_ifs at h
  obtain ⟨last, hlast, hplain⟩ := make_place .dir h
  have hmem : last ∈ components path :=
    (List.rdropWhile_prefix _ _).subset (List.mem_of_getLast? hlast)
  have hno : dotdot ∉ components path := by
    intro hm
    obtain ⟨init, hinit⟩ := List.getLast?_eq_some_iff.1 (getLast?_of_mem hnames hm)
    rw [hinit, List.rdropWhile_concat_neg _ _ _ (by decide), List.getLast?_concat,
      Option.some_inj] at hlast
    exact hplain.2.2 hlast.symm
  have hpos : 0 < ((components path).filter Plain).length :=
    List.length_pos_of_mem (List.mem_filter.2 ⟨hmem, decide_eq_true hplain⟩)
  rw [descent, List.count_eq_zero.2 hno]
  omega

end

/-! ## Entries of the current directory -/

namespace Sys

/-- The process is where it was and has made nothing. -/
structure Same (s t : Sys) : Prop where
  tree : t.tree = s.tree
  cwd : t.cwd = s.cwd
  created : t.created = s.created

/-- There is a new entry in the current directory, and nothing else is new. -/
structure Adds (name : Name) (k : Kind) (s t : Sys) : Prop where
  free : s.tree.node s.cwd = some .dir ∧ s.tree.node (s.cwd ++ [name]) = none
  tree : t.tree = s.tree.add s.cwd name k free
  cwd : t.cwd = s.cwd
  created : t.created = s.created ++ [s.cwd ++ [name]]

variable {s t u : Sys} {name path : Name} {names : List Name} {k : Kind}

theorem Same.tick (s : Sys) : Same s s.tick := ⟨rfl, rfl, rfl⟩

theorem Same.trans (h : Same s t) (h' : Same t u) : Same s u :=
  ⟨h'.tree.trans h.tree, h'.cwd.trans h.cwd, h'.created.trans h.created⟩

theorem Same.adds (h : Same s t) (h' : Adds name k t u) : Adds name k s u := by
  obtain ⟨tree, cwd, clock, created⟩ := s
  obtain ⟨tree', cwd', clock', created'⟩ := t
  obtain ⟨htree, hcwd, hcreated⟩ := h
  dsimp only at htree hcwd hcreated
  subst htree hcwd hcreated
  exact ⟨h'.free, h'.tree, h'.cwd, h'.created⟩

theorem Adds.le (h : Adds name k s t) : s.tree ≤ t.tree := by
  rw [h.tree]
  exact Tree.le_add h.free

theorem Adds.node (h : Adds name k s t) (p : Path) :
    t.tree.node p = if p = s.cwd ++ [name] then some k else s.tree.node p := by
  rw [h.tree]
  rfl

/-- Names whose place is in the current directory. -/
def Here (s : Sys) (path : Name) (names : List Name) (name : Name) : Prop :=
  ∀ dir last, s.place path names = some (dir, last) → dir = s.cwd ∧ last = name

theorem make_here (k : Kind) (h : Here s path names name) :
    ((s.make k (s.place path names)).1 = true ∧ Adds name k s (s.make k (s.place path names)).2) ∨
      ((s.make k (s.place path names)).1 = false ∧ Same s (s.make k (s.place path names)).2) := by
  cases hp : s.place path names with
  | none => exact .inr ⟨rfl, Same.tick s⟩
  | some at' =>
    obtain ⟨dir, last⟩ := at'
    obtain ⟨rfl, rfl⟩ := h dir last hp
    unfold make
    dsimp only
    by_cases hfree : s.tree.node s.cwd = some .dir ∧ s.tree.node (s.cwd ++ [last]) = none
    · rw [dif_pos hfree]
      exact .inl ⟨rfl, hfree, rfl, rfl, rfl⟩
    · rw [dif_neg hfree]
      exact .inr ⟨rfl, Same.tick s⟩

theorem make_free (k : Kind) (hp : s.place path names = some (s.cwd, name))
    (hfree : s.tree.node s.cwd = some .dir ∧ s.tree.node (s.cwd ++ [name]) = none) :
    (s.make k (s.place path names)).1 = true := by
  rw [hp]
  unfold make
  dsimp only
  rw [dif_pos hfree]

end Sys

section
variable {os : Os} {s : Sys} {path name : Name}

open Sys

/-- `open` with `O_CREAT | O_EXCL` in the current directory. -/
theorem create_here (os : Os) (h : Here s path (components path) name) :
    ((create os path s).1 = os.fd s.clock ∧ Adds name .file s (create os path s).2) ∨
      ((create os path s).1 = -1 ∧ Same s (create os path s).2) := by
  unfold create
  by_cases hdeny : os.deny s.clock = true
  · rw [if_pos hdeny]
    exact .inr ⟨rfl, Same.tick s⟩
  · rw [if_neg hdeny]
    dsimp only
    rcases make_here .file h with ⟨hmade, hadds⟩ | ⟨hmade, hsame⟩
    · rw [if_pos hmade]
      exact .inl ⟨rfl, hadds⟩
    · rw [if_neg (by rw [hmade]; exact Bool.false_ne_true)]
      exact .inr ⟨rfl, hsame⟩

theorem create_free (hp : s.place path (components path) = some (s.cwd, name))
    (hdeny : os.deny s.clock = false) (hfree : s.tree.node s.cwd = some .dir ∧
      s.tree.node (s.cwd ++ [name]) = none) :
    (create os path s).1 = os.fd s.clock := by
  unfold create
  rw [if_neg (by rw [hdeny]; exact Bool.false_ne_true)]
  exact if_pos (make_free .file hp hfree)

theorem mkdir_here (os : Os) (h : Here s path ((components path).rdropWhile (· = [])) name) :
    ((mkdir os path s).1 = true ∧ Adds name .dir s (mkdir os path s).2) ∨
      ((mkdir os path s).1 = false ∧ Same s (mkdir os path s).2) := by
  unfold mkdir
  by_cases hdeny : os.deny s.clock = true
  · rw [if_pos hdeny]
    exact .inr ⟨rfl, Same.tick s⟩
  · rw [if_neg hdeny]
    exact make_here .dir h

theorem mkdir_free (hp : s.place path ((components path).rdropWhile (· = [])) = some (s.cwd, name))
    (hdeny : os.deny s.clock = false)
    (hfree : s.tree.node s.cwd = some .dir ∧ s.tree.node (s.cwd ++ [name]) = none) :
    (mkdir os path s).1 = true := by
  unfold mkdir
  rw [if_neg (by rw [hdeny]; exact Bool.false_ne_true)]
  exact make_free .dir hp hfree

/-! A name without slashes is an entry of the current directory, and so it is behind a `.` and a
slash. -/

theorem components_name (hslash : slash ∉ name) : components name = [name] :=
  List.splitOn_eq_singleton hslash

theorem head_name (hslash : slash ∉ name) : name.head? ≠ some slash :=
  fun h => hslash (List.mem_of_head? h)

theorem components_dotName (hslash : slash ∉ name) :
    components (dot ++ slash :: name) = [dot, name] := by
  rw [components_append, components_name hslash]
  rfl

theorem here_dotName (hslash : slash ∉ name) :
    Here s (dot ++ slash :: name) (components (dot ++ slash :: name)) name := by
  intro dir last hp
  rw [components_dotName hslash] at hp
  obtain ⟨hl, -, hw⟩ := place_spec hp
  have horigin : s.origin (dot ++ slash :: name) = s.cwd := rfl
  rw [horigin] at hw
  obtain ⟨q, hq, hd⟩ := Option.bind_eq_some_iff.1 hw
  have hstay : q = s.cwd ++ [dot].filter Plain := Tree.enter_down (by decide) hq
  have hnone : [dot].filter Plain = [] := by decide
  rw [hnone, List.append_nil] at hstay
  exact ⟨(Option.some_inj.1 hd).symm.trans hstay, (Option.some_inj.1 hl).symm⟩

section
variable (hplain : Plain name) (hslash : slash ∉ name)
include hplain hslash

theorem here_name : Here s name ((components name).rdropWhile (· = [])) name := by
  intro dir last hp
  rw [components_name hslash] at hp
  rw [List.rdropWhile_singleton, if_neg (by simpa using hplain.1)] at hp
  obtain ⟨hl, -, hw⟩ := place_spec hp
  rw [origin, if_neg (head_name hslash)] at hw
  exact ⟨(Option.some_inj.1 hw).symm, (Option.some_inj.1 hl).symm⟩

theorem place_name (hlen : name.length < pathMax) :
    s.place name ((components name).rdropWhile (· = [])) = some (s.cwd, name) := by
  have hvalid : Sys.valid name = true := decide_eq_true ⟨hplain.1, hlen⟩
  rw [components_name hslash, List.rdropWhile_singleton, if_neg (by simpa using hplain.1)]
  unfold place
  dsimp only [List.getLast?_singleton]
  rw [if_pos ⟨hvalid, hplain⟩, origin, if_neg (head_name hslash)]
  rfl

theorem place_dotName (hlen : (dot ++ slash :: name).length < pathMax)
    (hdir : s.tree.node s.cwd = some .dir) :
    s.place (dot ++ slash :: name) (components (dot ++ slash :: name)) = some (s.cwd, name) := by
  have hvalid : Sys.valid (dot ++ slash :: name) = true := decide_eq_true ⟨List.cons_ne_nil _ _, hlen⟩
  have hwalk : s.tree.walk s.cwd [dot] = some s.cwd := by
    show (s.tree.enter s.cwd dot).bind _ = _
    unfold Tree.enter
    rw [if_pos hdir, if_pos (.inr rfl)]
    rfl
  rw [components_dotName hslash]
  have hlast : [dot, name].getLast? = some name := rfl
  unfold place
  rw [hlast]
  dsimp only
  rw [if_pos ⟨hvalid, hplain⟩]
  show (s.tree.walk s.cwd [dot]).map _ = _
  rw [hwalk]
  rfl

theorem chdir_name (os : Os) (s : Sys) : ((chdir os name s).1 = true ∧ (chdir os name s).2.cwd =
    s.cwd ++ [name] ∧
      (chdir os name s).2.tree = s.tree ∧ (chdir os name s).2.created = s.created) ∨
    ((chdir os name s).1 = false ∧ Same s (chdir os name s).2) := by
  obtain ⟨p, hp, hmove⟩ | hstay := chdir_spec os s name
  · have hw := resolve_walk (head_name hslash) hp
    rw [components_name hslash] at hw
    have hno : dotdot ∉ [name] := fun hm => hplain.2.2 (List.mem_singleton.1 hm).symm
    have hdown : p = s.cwd ++ [name] := by
      rw [Tree.walk_down hno hw, List.filter_singleton, decide_eq_true hplain]
      rfl
    rw [hmove]
    exact .inl ⟨rfl, hdown, rfl, rfl⟩
  · rw [hstay]
    exact .inr ⟨rfl, Same.tick s⟩

theorem resolve_name (hlen : name.length < pathMax) (hdir : s.tree.node (s.cwd ++ [name]) = some .dir) :
    s.resolve name = some (s.cwd ++ [name]) := by
  have hvalid : Sys.valid name = true := decide_eq_true ⟨hplain.1, hlen⟩
  have habove : s.tree.node s.cwd = some .dir := s.tree.parent s.cwd name (by rw [hdir]; rfl)
  unfold resolve origin
  rw [if_pos hvalid, if_neg (head_name hslash), components_name hslash]
  show (s.tree.enter s.cwd name).bind _ = _
  unfold Tree.enter
  rw [if_pos habove, if_neg (not_or.2 ⟨hplain.1, hplain.2.1⟩), if_neg hplain.2.2,
    if_pos (by rw [hdir]; rfl)]
  rfl

theorem chdir_there (hlen : name.length < pathMax) (hdeny : os.deny s.clock = false)
    (hdir : s.tree.node (s.cwd ++ [name]) = some .dir) : (chdir os name s).1 = true := by
  unfold chdir
  rw [resolve_name hplain hslash hlen hdir]
  dsimp only
  rw [if_pos ⟨hdeny, hdir⟩]

end

theorem chdir_up (os : Os) (s : Sys) : ((chdir os dotdot s).1 = true ∧ (chdir os dotdot s).2.cwd =
    s.cwd.dropLast ∧
      (chdir os dotdot s).2.tree = s.tree ∧ (chdir os dotdot s).2.created = s.created) ∨
    ((chdir os dotdot s).1 = false ∧ Same s (chdir os dotdot s).2) := by
  obtain ⟨p, hp, hmove⟩ | hstay := chdir_spec os s dotdot
  · obtain ⟨q, hq, he⟩ := Option.bind_eq_some_iff.1 (resolve_walk (by decide) hp)
    rw [hmove]
    exact .inl ⟨rfl, by rw [← Tree.enter_up hq]; exact (Option.some_inj.1 he).symm, rfl, rfl⟩
  · rw [hstay]
    exact .inr ⟨rfl, Same.tick s⟩

theorem chdir_above (hdeny : os.deny s.clock = false) (hdir : s.tree.node s.cwd = some .dir) :
    (chdir os dotdot s).1 = true := by
  have hres : s.resolve dotdot = some s.cwd.dropLast := by
    unfold resolve origin
    rw [if_pos (by decide), if_neg (by decide)]
    show (s.tree.enter s.cwd dotdot).bind _ = _
    unfold Tree.enter
    rw [if_pos hdir, if_neg (by decide), if_pos rfl]
    rfl
  have habove : s.tree.node s.cwd.dropLast = some .dir := by
    obtain hnil | ⟨init, last, hinit⟩ := List.eq_nil_or_concat' s.cwd
    · rw [hnil]
      exact s.tree.root
    · rw [hinit, List.dropLast_concat]
      exact s.tree.parent init last (by rw [← hinit, hdir]; rfl)
  unfold chdir
  rw [hres]
  dsimp only
  rw [if_pos ⟨hdeny, habove⟩]

end

end Files
