import OpenObex.Proof.Delivery

/-!
# An upload to a free place

On a willing system, and where the name of the top directory is free in the inbox, the requests of the
plan put the tree itself there (`Planted`): each request one node of it, by induction over the levels of
the plan and, on each, over the entries.
-/

namespace OpenObex

open Files Mem Prog

section

variable (L : IrcpLink) (t : Tree) (top base home : Path) (body : Path → Bytes)

/-- From `s` to `s'` the part `G` of the tree has come under `base`, and nothing else has changed. -/
structure Grown (G : Path → Prop) (s s' : IrcpServer) (files : List (Path × Bytes)) : Prop where
  node : ∀ g, G g → s'.sys.tree.node (base ++ g) = t.node (top ++ g)
  frame : ∀ p, (∀ g, G g → p ≠ base ++ g) → s'.sys.tree.node p = s.sys.tree.node p
  files : ∀ x, x ∈ files ↔ ∃ g, G g ∧ t.node (top ++ g) = some .file ∧ x = (base ++ g, body (top ++ g))

/-- The requests `rs` are granted in the state `s`; they bring `G` and leave the server in `d`. -/
structure Planted (G : Path → Prop) (d : Path) (s : IrcpServer) (rs : List IrcpRequest) : Prop where
  answers : Responds L s (succeeded rs)
  going : (L.serveAll rs s).finished = false
  tracks : Tracks home d (L.serveAll rs s)
  grown : Grown t top base body G s (L.serveAll rs s) (L.inbox rs s)

end

variable {L : IrcpLink} {t : Tree} {top base home d d' q : Path} {body : Path → Bytes}
  {G G' : Path → Prop} {s s' : IrcpServer} {rs rs' : List IrcpRequest} {name : Name}

/-! ## Composition -/

theorem map_fst_succeeded (rs : List IrcpRequest) : (succeeded rs).map Prod.fst = rs := by
  unfold succeeded
  rw [List.map_map]
  exact List.map_id rs

theorem Planted.nil (hgoing : s.finished = false) (h : Tracks home d s) :
    Planted L t top base home body (fun _ => False) d s [] where
  answers := trivial
  going := hgoing
  tracks := h
  grown := ⟨fun _ hg => hg.elim, fun _ _ => rfl, fun _ =>
    ⟨fun hx => (by cases hx), fun ⟨_, hg, _⟩ => hg.elim⟩⟩

theorem Planted.congr (h : Planted L t top base home body G d s rs) (hG : ∀ g, G g ↔ G' g) :
    Planted L t top base home body G' d s rs := by
  obtain rfl : G = G' := funext fun g => propext (hG g)
  exact h

theorem Planted.append (h : Planted L t top base home body G d s rs)
    (h' : Planted L t top base home body G' d' (L.serveAll rs s) rs') :
    Planted L t top base home body (fun g => G g ∨ G' g) d' s (rs ++ rs') where
  answers := by
    have happend : succeeded (rs ++ rs') = succeeded rs ++ succeeded rs' := List.map_append
    rw [happend, responds_append, map_fst_succeeded]
    exact ⟨h.answers, h'.answers⟩
  going := by
    rw [serveAll_append]
    exact h'.going
  tracks := by
    rw [serveAll_append]
    exact h'.tracks
  grown := by
    rw [serveAll_append, inbox_append]
    constructor
    · intro g hg
      by_cases hnew : G' g
      · exact h'.grown.node g hnew
      · have hold : G g := hg.resolve_right hnew
        rw [h'.grown.frame (base ++ g) fun g' hg' heq => hnew (List.append_cancel_left heq ▸ hg'),
          h.grown.node g hold]
    · intro p hp
      rw [h'.grown.frame p fun g hg => hp g (.inr hg), h.grown.frame p fun g hg => hp g (.inl hg)]
    · intro x
      rw [List.mem_append, h.grown.files, h'.grown.files]
      constructor
      · rintro (⟨g, hg, hx⟩ | ⟨g, hg, hx⟩)
        · exact ⟨g, .inl hg, hx⟩
        · exact ⟨g, .inr hg, hx⟩
      · rintro ⟨g, hg | hg, hx⟩
        · exact .inl ⟨g, hg, hx⟩
        · exact .inr ⟨g, hg, hx⟩

/-! ## One request -/

section

variable (hwilling : ∀ k, L.os.deny k = false) (hgoing : s.finished = false)
include hwilling hgoing

end

/-! ## The plan -/

/-- What the tree has at or under an entry. -/
def Under (t : Tree) (top p g : Path) : Prop := p <+: g ∧ (t.node (top ++ g)).isSome

section

variable {list : Path → List Name} {depth n : Nat} (ht : Listed t list top depth)

variable (hwilling : ∀ k, L.os.deny k = false) (hL : L.Reliable) (hunder : home <+: base)
  (hnear : base.length ≤ home.length + 1)
  (hbody : ∀ localname p, leadsTo t top localname = some p → L.content localname = body p)

include ht hwilling hL hunder hnear hbody

end

/-! ## The upload -/

section

variable {W : IrcpWorld} {above : Path} {dirname : Name} {depth n : Nat} {c : IrcpClient}
  {s₀ : IrcpServer} {e : List (IrcpRequest × Bool)} (ht : Listed t W.readdir (above ++ [dirname]) depth)
  (hn : depth < n) (hL : L.Reliable) (hshort : (dot ++ slash :: dirname).length < pathMax)
  (hbody : ∀ localname p, leadsTo t (above ++ [dirname]) localname = some p →
  L.content localname = body p) (hwilling : ∀ k, L.os.deny k = false)

end

end OpenObex
