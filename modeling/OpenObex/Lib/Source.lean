import Mathlib.Data.List.Basic

/-!
# Data that is handed out in chunks

A `Source` hands its data out chunk by chunk when it is asked, and says which chunk is the last one;
that one may be empty. A consumer with a limited space takes what is pending and asks for more, until
the space is full, the last chunk has been handed out, or, if it is told so, one chunk has been taken
(`Draws`). Whatever the chunks and the space are, what is taken and what is left is what there was
(`Draws.left`), and with any space there is less to do afterwards (`Draws.weight_lt`).
-/

namespace Chunked

/-- `pending` has been handed out and is still to be taken; `last` is `none` once the last chunk has
been handed out. -/
structure Source (α : Type) where
  pending : List α
  chunks : List (List α)
  last : Option (List α)
  deriving DecidableEq

namespace Source

variable {α : Type}

/-- Only the last chunk may be empty, and it comes last. -/
structure Sound (s : Source α) : Prop where
  full : ∀ c ∈ s.chunks, c ≠ []
  exhausted : s.last = none → s.chunks = []

/-- What is pending and the chunks in front of the last one. -/
def front (s : Source α) : List α := s.pending ++ s.chunks.flatten

/-- What is still to be taken. -/
def left (s : Source α) : List α := s.front ++ s.last.getD []

/-- The chunks still to be handed out, each with whether it is the last one. -/
def answers (s : Source α) : List (Bool × List α) :=
  s.chunks.map (fun c => (false, c)) ++ (s.last.map fun c => (true, c)).toList

/-- The last chunk has been handed out. -/
def ended (s : Source α) : Source α := { pending := s.last.getD [], chunks := [], last := none }

/-- The next chunk is handed out. -/
def ask (s : Source α) : Source α := match s.chunks with
  | c :: cs => { s with pending := c, chunks := cs }
  | [] => s.ended

/-- `n` items of what is pending are taken. -/
def skip (s : Source α) (n : Nat) : Source α := { s with pending := s.pending.drop n }

/-- What there is to take, and whether the source can be asked for the last chunk. -/
def weight (s : Source α) : Nat := s.left.length + if s.last.isSome then 1 else 0

/-- One round of the consumer for each chunk, one for what is pending and one for the last chunk. -/
def rounds (s : Source α) : Nat := s.chunks.length + if s.pending = [] then 1 else 2

/-- There is nothing more to take, and nothing more to ask for. -/
def Over (s : Source α) : Prop := s.last = none ∧ s.pending = []

section
variable {s : Source α}

theorem sound_ended (s : Source α) : s.ended.Sound :=
  ⟨fun _ hc => (List.not_mem_nil hc).elim, fun _ => rfl⟩

theorem Sound.ask (h : s.Sound) : s.ask.Sound := by
  unfold Source.ask
  cases hc : s.chunks with
  | nil => exact sound_ended s
  | cons c cs =>
    refine ⟨fun d hd => h.full d (by rw [hc]; exact List.mem_cons_of_mem _ hd), fun ho => ?_⟩
    have hnil := h.exhausted ho
    rw [hc] at hnil
    cases hnil

theorem Sound.skip (h : s.Sound) (n : Nat) : (s.skip n).Sound := ⟨h.full, h.exhausted⟩

theorem Sound.left_of_over (h : s.Sound) (ho : s.Over) : s.left = [] := by
  rw [left, front, ho.2, h.exhausted ho.1, ho.1]
  rfl

theorem answers_ask (s : Source α) : s.ask.answers = s.answers.tail := by
  unfold ask answers
  cases s.chunks with
  | nil => cases s.last <;> rfl
  | cons c cs => rfl

theorem left_ended (hp : s.pending = []) (hc : s.chunks = []) : s.ended.left = s.left := by
  unfold left front ended
  rw [hp, hc]
  simp

theorem front_ask (hp : s.pending = []) (hc : s.chunks ≠ []) : s.ask.front = s.front := by
  unfold ask front
  rw [hp]
  cases h : s.chunks with
  | nil => exact absurd h hc
  | cons c cs => rfl

theorem last_ask (hc : s.chunks ≠ []) : s.ask.last = s.last := by
  unfold ask
  cases h : s.chunks with
  | nil => exact absurd h hc
  | cons c cs => rfl

theorem left_ask (hp : s.pending = []) : s.ask.left = s.left := by
  by_cases hc : s.chunks = []
  · have he : s.ask = s.ended := by
      unfold ask
      rw [hc]
    rw [he, left_ended hp hc]
  · rw [left, left, front_ask hp hc, last_ask hc]

theorem front_skip (s : Source α) (n : Nat) : s.pending.take n ++ (s.skip n).front = s.front := by
  unfold front skip
  dsimp only
  rw [← List.append_assoc, List.take_append_drop]

theorem left_skip (s : Source α) (n : Nat) : s.pending.take n ++ (s.skip n).left = s.left := by
  have hf := front_skip s n
  unfold left
  rw [← List.append_assoc, hf]
  rfl

theorem front_skip_all (s : Source α) : s.pending ++ (s.skip s.pending.length).front = s.front := by
  have hf := front_skip s s.pending.length
  rwa [List.take_length] at hf

theorem left_skip_all (s : Source α) : s.pending ++ (s.skip s.pending.length).left = s.left := by
  have hl := left_skip s s.pending.length
  rwa [List.take_length] at hl

theorem pending_skip_all (s : Source α) : (s.skip s.pending.length).pending = [] := List.drop_length

theorem Sound.pending_ask (h : s.Sound) (hc : s.chunks ≠ []) : s.ask.pending ≠ [] := by
  unfold Source.ask
  cases hs : s.chunks with
  | nil => exact absurd hs hc
  | cons c cs => exact h.full c (by rw [hs]; exact List.mem_cons_self)

end

/-! ## Taking -/

/-- What one call takes at most: one chunk if `single`, otherwise everything in front of the last
one. -/
def ready (s : Source α) (single : Bool) : Nat :=
  if single then (if s.pending = [] then s.chunks.headD [] else s.pending).length else s.front.length

/-- With space for `n` items the consumer takes `d`. -/
inductive Draws (single : Bool) : Source α → Nat → List α → Source α → Prop
  /-- There is nothing to take but the last chunk, which is left for the next call. -/
  | last {s : Source α} {n : Nat} (hp : s.pending = []) (hc : s.chunks = []) :
    Draws single s n [] s.ended
  | ask {s s' : Source α} {n : Nat} {d : List α} (hp : s.pending = []) (hc : s.chunks ≠ [])
      (h : Draws single s.ask n d s') : Draws single s n d s'
  /-- The space is full. -/
  | full {s : Source α} {n : Nat} (hp : s.pending ≠ []) (hn : n < s.pending.length) :
      Draws single s n (s.pending.take n) (s.skip n)
  | stop {s : Source α} {n : Nat} (hp : s.pending ≠ []) (hn : s.pending.length ≤ n)
      (hs : single = true ∨ s.pending.length = n) :
      Draws single s n s.pending (s.skip s.pending.length)
  | more {s s' : Source α} {n : Nat} {d : List α} (hp : s.pending ≠ []) (hn : s.pending.length < n)
      (hs : single = false) (h : Draws single (s.skip s.pending.length) (n - s.pending.length) d s') :
      Draws single s n (s.pending ++ d) s'

namespace Draws

variable {single : Bool} {s s' : Source α} {n : Nat} {d : List α}

theorem exists_of_pending (h : ∀ n, ∃ d s', Draws single (s.skip s.pending.length) n d s')
    (hp : s.pending ≠ []) (n : Nat) : ∃ d s', Draws single s n d s' := by
  by_cases hn : n < s.pending.length
  · exact ⟨_, _, .full hp hn⟩
  · by_cases hs : single = true ∨ s.pending.length = n
    · exact ⟨_, _, .stop hp (by omega) hs⟩
    · obtain ⟨hs, hne⟩ := not_or.1 hs
      obtain ⟨d, s', hd⟩ := h (n - s.pending.length)
      exact ⟨_, _, .more hp (by omega) (by simpa using hs) hd⟩

theorem length_ask (hc : s.chunks ≠ []) : s.ask.chunks.length + 1 = s.chunks.length := by
  unfold Source.ask
  cases h : s.chunks with
  | nil => exact absurd h hc
  | cons c cs => rfl

/-- By induction on the number of chunks. -/
theorem exists_of_sound (single : Bool) (hs : s.Sound) (n : Nat) : ∃ d s', Draws single s n d s' := by
  induction hk : s.chunks.length using Nat.strongRecOn generalizing s n with
  | _ k ih =>
    have hempty (t : Source α) (ht : t.Sound) (hl : t.chunks.length = k) (hp : t.pending = [])
      (n : Nat) :
        ∃ d s', Draws single t n d s' := by
      by_cases hc : t.chunks = []
      · exact ⟨_, _, .last hp hc⟩
      · have hlen := length_ask hc
        obtain ⟨d, s', hd⟩ := ih t.ask.chunks.length (by omega) ht.ask n rfl
        exact ⟨d, s', .ask hp hc hd⟩
    by_cases hp : s.pending = []
    · exact hempty s hs hk hp n
    · exact exists_of_pending (hempty (s.skip s.pending.length) (hs.skip _) hk s.pending_skip_all) hp n

theorem left (h : Draws single s n d s') : d ++ s'.left = s.left := by
  induction h with
  | last hp hc => exact left_ended hp hc
  | ask hp hc _ ih => rw [ih, left_ask hp]
  | full hp hn => exact left_skip _ _
  | stop hp hn _ => exact left_skip_all _
  | more hp hn _ _ ih => rw [List.append_assoc, ih, left_skip_all]

theorem sound (h : Draws single s n d s') (hs : s.Sound) : s'.Sound := by
  induction h with
  | last hp hc => exact sound_ended _
  | ask hp hc _ ih => exact ih hs.ask
  | full hp hn => exact hs.skip _
  | stop hp hn _ => exact hs.skip _
  | more hp hn _ _ ih => exact ih (hs.skip _)

theorem ready_ask (hs : s.Sound) (hp : s.pending = []) (hc : s.chunks ≠ []) (single : Bool) :
    s.ask.ready single = s.ready single := by
  unfold ready
  cases single with
  | false => rw [if_neg Bool.false_ne_true, if_neg Bool.false_ne_true, front_ask hp hc]
  | true =>
    have hne := hs.pending_ask hc
    rw [if_pos rfl, if_pos rfl, if_neg hne, if_pos hp]
    unfold Source.ask
    cases h : s.chunks with
    | nil => exact absurd h hc
    | cons c cs => rfl

theorem pending_le_ready (hp : s.pending ≠ []) (single : Bool) : s.pending.length ≤ s.ready single := by
  unfold ready
  cases single with
  | true =>
    rw [if_pos rfl]
    exact Nat.le_of_eq (congrArg List.length (if_neg hp)).symm
  | false =>
    rw [if_neg Bool.false_ne_true, front, List.length_append]
    exact Nat.le_add_right _ _

/-- As much is taken as there is space, or ready. -/
theorem length (h : Draws single s n d s') (hs : s.Sound) : d.length = min n (s.ready single) := by
  induction h with
  | @last s n hp hc =>
    have hready : s.ready single = 0 := by
      unfold ready front
      rw [hp, hc]
      cases single <;> rfl
    rw [hready, Nat.min_zero, List.length_nil]
  | ask hp hc _ ih => rw [ih hs.ask, ready_ask hs hp hc]
  | full hp hn =>
    have hle := pending_le_ready hp single
    rw [List.length_take]
    omega
  | @stop s n hp hn hstop =>
    have hle := pending_le_ready hp single
    cases hstop with
    | inl hsingle =>
      have hready : s.ready single = s.pending.length := by
        unfold ready
        rw [if_pos hsingle, if_neg hp]
      omega
    | inr heq => omega
  | @more s s' n d hp hn hsingle _ ih =>
    have hready : s.ready single = s.pending.length + (s.skip s.pending.length).ready single := by
      unfold ready
      rw [if_neg (by simp [hsingle]), if_neg (by simp [hsingle]), ← s.front_skip_all,
        List.length_append]
    rw [List.length_append, ih (hs.skip _)]
    omega

/-- With space left behind what is ready, the last chunk has been handed out. -/
theorem ended (h : Draws false s n d s') (hs : s.Sound) (hn : s.ready false < n) : s' = s.ended := by
  induction h with
  | last hp hc => rfl
  | @ask s s' n d hp hc _ ih =>
    rw [ih hs.ask (by rwa [ready_ask hs hp hc]), Source.ended, Source.ended, last_ask hc]
  | full hp hlt =>
    have hle := pending_le_ready hp false
    omega
  | stop hp hle hstop =>
    have hle := pending_le_ready hp false
    cases hstop with
    | inl hsingle => cases hsingle
    | inr heq => omega
  | @more s s' n d hp hlt hsingle _ ih =>
    have hready : s.ready false = s.pending.length + (s.skip s.pending.length).ready false := by
      unfold ready
      rw [if_neg Bool.false_ne_true, if_neg Bool.false_ne_true, ← s.front_skip_all, List.length_append]
    exact ih (hs.skip _) (by omega)

theorem chunks_le (h : Draws single s n d s') : s'.chunks.length ≤ s.chunks.length := by
  induction h with
  | last hp hc => exact Nat.zero_le _
  | ask hp hc _ ih =>
    have hlen := length_ask hc
    omega
  | full hp hn => exact Nat.le_refl _
  | stop hp hn _ => exact Nat.le_refl _
  | more hp hn _ _ ih => exact ih

theorem weight_skip (s : Source α) (n : Nat) : (s.pending.take n).length + (s.skip n).weight =
    s.weight := by
  have hl := congrArg List.length (s.left_skip n)
  rw [List.length_append] at hl
  unfold weight
  rw [← hl, Nat.add_assoc]
  rfl

theorem weight_skip_all (s : Source α) :
    s.pending.length + (s.skip s.pending.length).weight = s.weight := by
  have hw := weight_skip s s.pending.length
  rwa [List.take_length] at hw

theorem weight_ended (hp : s.pending = []) (hc : s.chunks = []) :
    s.weight = s.ended.weight + if s.last.isSome then 1 else 0 := by
  unfold weight
  rw [left_ended hp hc]
  rfl

theorem weight_ask (hp : s.pending = []) (hc : s.chunks ≠ []) : s.ask.weight = s.weight := by
  unfold weight
  rw [left_ask hp, last_ask hc]

theorem weight_le (h : Draws single s n d s') : s'.weight ≤ s.weight := by
  induction h with
  | last hp hc =>
    rw [weight_ended hp hc]
    exact Nat.le_add_right _ _
  | ask hp hc _ ih => rwa [weight_ask hp hc] at ih
  | @full s n hp hn =>
    have hw := weight_skip s n
    omega
  | @stop s n hp hn _ =>
    have hw := weight_skip_all s
    omega
  | @more s s' n d hp hn _ _ ih =>
    have hw := weight_skip_all s
    omega

/-- With any space something is taken, or the last chunk has been handed out. -/
theorem weight_lt (h : Draws single s n d s') (hs : s.Sound) (hn : 0 < n) (ho : ¬ s.Over) :
    s'.weight < s.weight := by
  induction h with
  | @last s n hp hc =>
    have hw := weight_ended hp hc
    cases hl : s.last with
    | none => exact absurd ⟨hl, hp⟩ ho
    | some e =>
      rw [hl] at hw
      have hone : s.weight = s.ended.weight + 1 := hw
      omega
  | ask hp hc _ ih =>
    have hlt := ih hs.ask hn fun hover => hs.pending_ask hc hover.2
    rwa [weight_ask hp hc] at hlt
  | @full s n hp hlt =>
    have hw := weight_skip s n
    rw [List.length_take] at hw
    omega
  | @stop s n hp hle _ =>
    have hw := weight_skip_all s
    have hpos := List.length_pos_iff.2 hp
    omega
  | @more s s' n d hp hlt _ h _ =>
    have hw := weight_skip_all s
    have hpos := List.length_pos_iff.2 hp
    have hle := h.weight_le
    omega

end Draws

end Source

end Chunked
