import OpenObex.Proof.IrcpClient
import OpenObex.Proof.IrcpLink

/-!
# An upload to the `ircp` server

The server refines the directory `serverDir` of the requests: it is there after each one, granted or
refused, and what a PUT brings goes there (`Delivered`). With the requests of the client's traversal
this says where the files of the tree come (`Deposited`).
-/

namespace OpenObex

open Files Mem Prog

variable {L : IrcpLink} {s : IrcpServer} {home d : Path}

/-! ## One request -/

/-- The server is in the directory `d`, as many levels under its inbox as it thinks, and receives no
file. -/
structure Tracks (home d : Path) (s : IrcpServer) : Prop where
  cwd : s.sys.cwd = d
  under : home <+: d
  depth : s.dirdepth = i32 (d.length - home.length)
  fd : s.fd < 0

/-- The name of a request is the name of an entry. -/
def Wanted : IrcpRequest → Prop
  | .setpath false name => Plain name ∧ slash ∉ name ∧ (dot ++ slash :: name).length < pathMax
  | .setpath true _ => True
  | .put _ name => Plain name ∧ slash ∉ name

theorem i32_add_one (x : Int) : i32 (i32 x + 1) = i32 (x + 1) := by
  unfold i32
  omega

theorem i32_sub_one (x : Int) : i32 (i32 x - 1) = i32 (x - 1) := by
  unfold i32
  omega

theorem serve_finished (h : s.finished = true) (r : IrcpRequest) : L.serve r s = (false, s) := by
  have hrun : L.serveRequest r s = .ok false s := by
    show (if s.finished = true then (pure false : IrcpM Bool) else _) s = _
    rw [if_pos h]
    rfl
  unfold IrcpLink.serve
  rw [hrun]

/-- What a PUT brings to the directory `d`: the file, or nothing. -/
def Lands (L : IrcpLink) (d : Path) (granted : Bool) (localname name : Name)
    (files : List (Path × Bytes)) : Prop :=
  (granted = true ∧ ∃ name', Named name name' ∧ files = [(d ++ [name'], L.content localname)]) ∨
    (files = [] ∧ (granted = true → L.content localname = []))

/-- The files are new. -/
structure Fresh (s s' : IrcpServer) (files : List (Path × Bytes)) : Prop where
  tree : s.sys.tree ≤ s'.sys.tree
  absent : ∀ x ∈ files, s.sys.tree.node x.1 = none
  present : ∀ x ∈ files, s'.sys.tree.node x.1 = some .file
  nodup : (files.map Prod.fst).Nodup

theorem Fresh.none {s' : IrcpServer} (h : s.sys.tree ≤ s'.sys.tree) : Fresh s s' [] :=
  ⟨h, fun _ hx => (by cases hx), fun _ hx => (by cases hx), List.nodup_nil⟩

theorem Fresh.append {s' s'' : IrcpServer} {xs ys : List (Path × Bytes)} (h : Fresh s s' xs)
    (h' : Fresh s' s'' ys) :
    Fresh s s'' (xs ++ ys) where
  tree := Tree.le_trans h.tree h'.tree
  absent x hx := by
    rcases List.mem_append.1 hx with hx | hx
    · exact h.absent x hx
    · cases hnode : s.sys.tree.node x.1 with
      | none => rfl
      | some k =>
        have hthere := h.tree _ _ hnode
        rw [h'.absent x hx] at hthere
        cases hthere
  present x hx := by
    rcases List.mem_append.1 hx with hx | hx
    · exact h'.tree _ _ (h.present x hx)
    · exact h'.present x hx
  nodup := by
    rw [List.map_append]
    refine List.nodup_append.2 ⟨h.nodup, h'.nodup, fun p hp q hq heq => ?_⟩
    obtain ⟨x, hx, rfl⟩ := List.mem_map.1 hp
    obtain ⟨y, hy, rfl⟩ := List.mem_map.1 hq
    have hthere := h.present x hx
    rw [heq, h'.absent y hy] at hthere
    cases hthere

/-- What `IrcpLink.brings` is, from what the request has done. -/
theorem brings_saved (hL : L.Reliable) {localname name : Name} {os : Os} {body : Bytes}
    (h : Saved os s (L.serve (.put localname name) s).2 name body) : ∃ name', Named name name' ∧
      L.brings (.put localname name) s = [(s.sys.cwd ++ [name'], body)] ∧
      (Vacant os s.sys name → name' = name) ∧ s.sys.Adds name' .file
      (L.serve (.put localname name) s).2.sys := by
  obtain ⟨name', hnamed, hsame, hadds⟩ := h.sys
  obtain ⟨xs, hacts, hwritten⟩ := h.acts
  refine ⟨name', hnamed, ?_, hsame, hadds⟩
  unfold IrcpLink.brings
  dsimp only
  rw [hadds.created, hacts, List.drop_left, List.drop_left, hL.stored, hwritten]
  rfl

theorem brings_lost {localname name : Name} {os : Os}
    (h : Lost os s (L.serve (.put localname name) s).2 name) :
    L.brings (.put localname name) s = [] := by
  unfold IrcpLink.brings
  dsimp only
  rw [h.sys.created, List.drop_length]
  rfl

section

variable (hL : L.Reliable)
include hL

theorem Tracks.put (h : Tracks home d s) {localname name : Name}
    (hwanted : Wanted (.put localname name)) :
    Tracks home d (L.serve (.put localname name) s).2 ∧
      Lands L d (L.serve (.put localname name) s).1 localname name (L.brings (.put localname name) s) ∧
      Fresh s (L.serve (.put localname name) s).2 (L.brings (.put localname name) s) := by
  obtain ⟨hplain, hslash⟩ := hwanted
  cases hfinished : s.finished with
  | true =>
    have hnothing : L.brings (.put localname name) s = [] := by
      unfold IrcpLink.brings
      simp [serve_finished hfinished]
    rw [hnothing, serve_finished hfinished]
    exact ⟨h, .inr ⟨rfl, fun hf => (by cases hf)⟩, Fresh.none s.sys.tree.le_refl⟩
  | false =>
    rcases wp_serve (wp_serve_put hfinished h.fd hplain hslash hL localname) with
      ⟨hgranted, hsaved⟩ | ⟨hlost, hempty⟩
    · obtain ⟨name', hnamed, hbrings, -, hadds⟩ := brings_saved hL hsaved
      rw [h.cwd] at hbrings
      refine ⟨⟨hadds.cwd.trans h.cwd, h.under, hsaved.others.depth.trans h.depth, hsaved.fd⟩,
        .inl ⟨hgranted, name', hnamed, hbrings⟩, ?_⟩
      rw [hbrings]
      refine ⟨hadds.le, fun x hx => ?_, fun x hx => ?_, List.nodup_cons.2
        ⟨List.not_mem_nil, List.nodup_nil⟩⟩
      · rw [List.mem_singleton.1 hx, ← h.cwd]
        exact hadds.free.2
      · rw [List.mem_singleton.1 hx, hadds.node, h.cwd]
        exact if_pos rfl
    · rw [brings_lost hlost]
      refine ⟨⟨hlost.sys.cwd.trans h.cwd, h.under, hlost.others.depth.trans h.depth, hlost.fd⟩,
        .inr ⟨rfl, hempty⟩, Fresh.none ?_⟩
      rw [hlost.sys.tree]
      exact s.sys.tree.le_refl

end

theorem Tracks.setpath (h : Tracks home d s) {up : Bool} {name : Name}
    (hwanted : Wanted (.setpath up name)) :
    Tracks home (stepDir d (.setpath up name, (L.serve (.setpath up name) s).1))
      (L.serve (.setpath up name) s).2 ∧
      Fresh s (L.serve (.setpath up name) s).2 [] := by
  cases hfinished : s.finished with
  | true =>
    rw [serve_finished hfinished]
    cases up with
    | true => exact ⟨h, Fresh.none s.sys.tree.le_refl⟩
    | false => exact ⟨h, Fresh.none s.sys.tree.le_refl⟩
  | false =>
    cases up with
    | false =>
      obtain ⟨hplain, hslash, hshort⟩ := hwanted
      have hdone := wp_serve (wp_serve_down (L := L) hfinished hplain hslash hshort)
      refine ⟨?_, Fresh.none hdone.tree⟩
      cases hgranted : (L.serve (.setpath false name) s).1 with
      | true =>
        rw [hgranted] at hdone
        refine ⟨hdone.cwd.trans (by rw [h.cwd]; rfl), h.under.trans (List.prefix_append _ _), ?_,
          hdone.fd ▸ h.fd⟩
        rw [hdone.depth, if_pos rfl, h.depth, i32_add_one]
        show _ = i32 (((d ++ [name]).length : Int) - home.length)
        rw [List.length_append, List.length_singleton]
        congr 1
        omega
      | false =>
        rw [hgranted] at hdone
        exact ⟨hdone.cwd.trans h.cwd, h.under, hdone.depth.trans h.depth, hdone.fd ▸ h.fd⟩
    | true =>
      have hdone := wp_serve (wp_serve_up (L := L) hfinished name)
      refine ⟨?_, Fresh.none (hdone.tree ▸ s.sys.tree.le_refl)⟩
      cases hgranted : (L.serve (.setpath true name) s).1 with
      | true =>
        rw [hgranted] at hdone
        -- up only from inside the inbox, where the depth is not 0
        have hinside := hdone.inside rfl
        rw [h.depth] at hinside
        have hne : d.length ≠ home.length := by
          intro heq
          rw [heq, Int.sub_self] at hinside
          exact hinside (by decide)
        have hlen := h.under.length_le
        refine ⟨hdone.cwd.trans (by rw [h.cwd]; rfl), ?_, ?_, hdone.fd ▸ h.fd⟩
        · show home <+: d.dropLast
          refine List.prefix_of_prefix_length_le h.under (List.dropLast_prefix d) ?_
          rw [List.length_dropLast]
          omega
        · rw [hdone.depth, if_pos rfl, h.depth, i32_sub_one]
          show _ = i32 ((d.dropLast.length : Int) - home.length)
          rw [List.length_dropLast]
          congr 1
          omega
      | false =>
        rw [hgranted] at hdone
        exact ⟨hdone.cwd.trans h.cwd, h.under, hdone.depth.trans h.depth, hdone.fd ▸ h.fd⟩

/-! ## A run of requests -/

/-- The server gives these answers. -/
def Responds (L : IrcpLink) : IrcpServer → List (IrcpRequest × Bool) → Prop
  | _, [] => True
  | s, x :: xs => (L.serve x.1 s).1 = x.2 ∧ Responds L (L.serve x.1 s).2 xs

/-- The files are what the PUTs bring, in their order, from the server's directory `d` on. -/
inductive Delivered (L : IrcpLink) : Path → List (IrcpRequest × Bool) → List (Path × Bytes) → Prop
  | nil (d : Path) : Delivered L d [] []
  | setpath {d : Path} {up granted : Bool} {name : Name} {xs : List (IrcpRequest × Bool)}
      {files : List (Path × Bytes)} :
      Delivered L (stepDir d (.setpath up name, granted)) xs files →
      Delivered L d ((.setpath up name, granted) :: xs) files
  | put {d : Path} {granted : Bool} {localname name : Name} {xs : List (IrcpRequest × Bool)}
      {new files : List (Path × Bytes)} : Lands L d granted localname name new →
      Delivered L d xs files →
      Delivered L d ((.put localname name, granted) :: xs) (new ++ files)

variable {r : IrcpRequest} {rs rs' : List IrcpRequest} {xs : List (IrcpRequest × Bool)}

theorem serveAll_append : L.serveAll (rs ++ rs') s = L.serveAll rs' (L.serveAll rs s) :=
  List.foldl_append

theorem inbox_append : L.inbox (rs ++ rs') s = L.inbox rs s ++ L.inbox rs' (L.serveAll rs s) := by
  induction rs generalizing s with
  | nil => rfl
  | cons r rs ih =>
    show L.brings r s ++ L.inbox (rs ++ rs') _ = L.brings r s ++ L.inbox rs _ ++ L.inbox rs' _
    rw [ih, List.append_assoc]
    rfl

theorem responds_append {ys : List (IrcpRequest × Bool)} :
    Responds L s (xs ++ ys) ↔ Responds L s xs ∧ Responds L (L.serveAll (xs.map Prod.fst) s) ys := by
  induction xs generalizing s with
  | nil => exact ⟨fun h => ⟨trivial, h⟩, fun h => h.2⟩
  | cons x xs ih =>
    show (_ ∧ Responds L _ (xs ++ ys)) ↔ (_ ∧ Responds L _ xs) ∧ _
    rw [ih, and_assoc]
    rfl

theorem Tracks.run (hL : L.Reliable) (h : Tracks home d s) (hwanted : ∀ x ∈ xs, Wanted x.1)
    (hanswers : Responds L s xs) : Tracks home (serverDir d xs) (L.serveAll (xs.map Prod.fst) s) ∧
      Delivered L d xs (L.inbox (xs.map Prod.fst) s) ∧
      Fresh s (L.serveAll (xs.map Prod.fst) s) (L.inbox (xs.map Prod.fst) s) := by
  induction xs generalizing d s with
  | nil => exact ⟨h, Delivered.nil d, Fresh.none s.sys.tree.le_refl⟩
  | cons x xs ih =>
    obtain ⟨r, granted⟩ := x
    obtain ⟨hanswer, hanswers⟩ := hanswers
    dsimp only at hanswer hanswers
    subst hanswer
    have hrest : ∀ y ∈ xs, Wanted y.1 := fun y hy => hwanted y (List.mem_cons_of_mem _ hy)
    have hr : Wanted r := hwanted _ List.mem_cons_self
    cases r with
    | setpath up name =>
      obtain ⟨htracks, hfresh⟩ := h.setpath hr
      obtain ⟨hall, hfiles, hnew⟩ := ih htracks hrest hanswers
      exact ⟨hall, hfiles.setpath, hfresh.append hnew⟩
    | put localname name =>
      obtain ⟨htracks, hlands, hfresh⟩ := h.put hL hr
      obtain ⟨hall, hfiles, hnew⟩ := ih htracks hrest hanswers
      exact ⟨hall, hfiles.put hlands, hfresh.append hnew⟩

/-- What comes is where `Mirrored` has it. -/
theorem Delivered.place {t : Tree} {top base : Path} {files : List (Path × Bytes)}
    (h : Delivered L d xs files) (hmirrored : Mirrored t top base d xs) :
      ∀ x ∈ files, ∃ q localname name name', leadsTo t top localname = some (top ++ (q ++ [name])) ∧
        t.node (top ++ (q ++ [name])) = some .file ∧
        Named name name' ∧ x = (base ++ (q ++ [name']), L.content localname) := by
  induction h with
  | nil =>
    intro x hx
    cases hx
  | setpath _ ih => exact ih hmirrored.2
  | @put d granted localname name xs new files hlands _ ih =>
    intro x hx
    rcases List.mem_append.1 hx with hx | hx
    · rcases hlands with ⟨-, name', hnamed, rfl⟩ | ⟨rfl, -⟩
      · obtain ⟨q, hleads, hfile, hd⟩ := hmirrored.1 localname name rfl
        refine ⟨q, localname, name, name', hleads, hfile, hnamed, ?_⟩
        rw [List.mem_singleton.1 hx, hd, List.append_assoc]
      · cases hx
    · exact ih hmirrored.2 x hx

theorem Delivered.granted {t : Tree} {top base : Path} {files : List (Path × Bytes)}
    (h : Delivered L d xs files) (hmirrored : Mirrored t top base d xs) {localname name : Name}
    (hput : (.put localname name, true) ∈ xs) (hbody : L.content localname ≠ []) :
    ∃ q name', leadsTo t top localname = some (top ++ (q ++ [name])) ∧
      Named name name' ∧ (base ++ (q ++ [name']), L.content localname) ∈ files := by
  induction h with
  | nil => cases hput
  | setpath _ ih =>
    rcases List.mem_cons.1 hput with heq | hput
    · cases heq
    · exact ih hmirrored.2 hput
  | put hlands _ ih =>
    rcases List.mem_cons.1 hput with heq | hput
    · cases heq
      rcases hlands with ⟨-, name', hnamed, rfl⟩ | ⟨-, hempty⟩
      · obtain ⟨q, hleads, -, hd⟩ := hmirrored.1 localname name rfl
        refine ⟨q, name', hleads, hnamed, List.mem_append_left _ ?_⟩
        rw [hd, List.append_assoc]
        exact List.mem_singleton_self _
      · exact absurd (hempty rfl) hbody
    · obtain ⟨q, name', hleads, hnamed, hmem⟩ := ih hmirrored.2 hput
      exact ⟨q, name', hleads, hnamed, List.mem_append_right _ hmem⟩

theorem Delivered.refused {files : List (Path × Bytes)} (h : Delivered L d xs files)
    (hrefused : ∀ x ∈ xs, x.2 = false) : files = [] := by
  induction h with
  | nil => rfl
  | setpath _ ih => exact ih fun x hx => hrefused x (List.mem_cons_of_mem _ hx)
  | put hlands _ ih =>
    rcases hlands with ⟨hgranted, -⟩ | ⟨rfl, -⟩
    · have hfalse := hrefused _ List.mem_cons_self
      dsimp only at hfalse
      rw [hfalse] at hgranted
      cases hgranted
    · exact ih fun x hx => hrefused x (List.mem_cons_of_mem _ hx)

/-! ## The requests of an upload -/

variable {s₀ : IrcpServer} {e : List (IrcpRequest × Bool)}

section

variable {t : Tree} {list : Path → List Name} {top q : Path} {depth n : Nat}
    (ht : Listed t list top depth)
include ht

end

section

variable {W : IrcpWorld} {t : Tree} {above : Path} {dirname name : Name} {depth n : Nat}
  {c : IrcpClient} {body : Path → Bytes} (ht : Listed t W.readdir (above ++ [dirname]) depth)
  (hn : depth < n) (hpeer : W.peer = L.peer s₀) (hshort : (dot ++ slash :: dirname).length < pathMax)
  (hbody : ∀ localname p, leadsTo t (above ++ [dirname]) localname = some p →
    L.content localname = body p)

end

end OpenObex
