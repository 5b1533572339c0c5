import OpenObex.Proof.Stream

/-!
# The packets of a stream

A stream header is sent in fragments, in as many packets as it takes, with other headers in front of
it and behind it. What the packets carry is a list of headers with the fragments in it (`Carries`):
their payloads are what the application has handed out, and the last fragment, and no other, is a
BODY_END. This holds as long as no packet is `Cramped`: with one or two bytes left for a fragment the
space is taken for a huge one, and a packet that outgrows its block is written to where it was.
-/

namespace OpenObex

open Mem Prog Chunked

/-! ## What the packets carry -/

/-- The headers `hs` take what is left of a stream from `x` to `y`, where `none` is a stream that has
been sent. -/
inductive Carries : Option Bytes → List Head → Option Bytes → Prop
  | nil (x : Option Bytes) : Carries x [] x
  | other {x y : Option Bytes} {h : Head} {hs : List Head} (hv : h.Valid) (hb : h.isBody = false)
      (hc : Carries x hs y) : Carries x (h :: hs) y
  | more {y : Option Bytes} {d rest : Bytes} {hs : List Head} (hv : (fragment false d).Valid)
      (hc : Carries (some rest) hs y) : Carries (some (d ++ rest)) (fragment false d :: hs) y
  | last {y : Option Bytes} {d : Bytes} {hs : List Head} (hv : (fragment true d).Valid)
      (hc : Carries none hs y) : Carries (some d) (fragment true d :: hs) y

/-- The BODY and BODY_END headers. -/
def bodies (hs : List Head) : List Head := hs.filter Head.isBody

theorem bodies_cons_body {h : Head} (hs : List Head) (hb : h.isBody = true) :
    bodies (h :: hs) = h :: bodies hs := List.filter_cons_of_pos hb

theorem bodies_cons_other {h : Head} (hs : List Head) (hb : h.isBody = false) :
    bodies (h :: hs) = bodies hs := List.filter_cons_of_neg (by simp [hb])

theorem fragment_isBody (final : Bool) (d : Bytes) : (fragment final d).isBody = true := by
  cases final with
  | true => exact decide_eq_true (.inr rfl)
  | false => exact decide_eq_true (.inl rfl)

namespace Carries

variable {x y z : Option Bytes} {hs hs' : List Head}

theorem append (h : Carries x hs y) (h' : Carries y hs' z) : Carries x (hs ++ hs') z := by
  induction h with
  | nil x => exact h'
  | other hv hb _ ih => exact .other hv hb (ih h')
  | more hv _ ih => exact .more hv (ih h')
  | last hv _ ih => exact .last hv (ih h')

theorem valid (h : Carries x hs y) : ∀ e ∈ hs, e.Valid := by
  induction h with
  | nil x => exact fun _ he => (List.not_mem_nil he).elim
  | other hv _ _ ih => exact List.forall_mem_cons.2 ⟨hv, ih⟩
  | more hv _ ih => exact List.forall_mem_cons.2 ⟨hv, ih⟩
  | last hv _ ih => exact List.forall_mem_cons.2 ⟨hv, ih⟩

/-- The payloads and what is left are what was left before. -/
theorem payload (h : Carries x hs y) : (bodies hs).flatMap Head.value ++ y.getD [] = x.getD [] := by
  induction h with
  | nil x => rfl
  | other hv hb _ ih => rwa [bodies_cons_other _ hb]
  | more hv _ ih =>
    rw [bodies_cons_body _ (fragment_isBody _ _), List.flatMap_cons, List.append_assoc, ih]
    rfl
  | last hv _ ih =>
    rw [bodies_cons_body _ (fragment_isBody _ _), List.flatMap_cons, List.append_assoc, ih]
    exact List.append_nil _

theorem sent (h : Carries none hs y) : y = none ∧ bodies hs = [] := by
  generalize hx : (none : Option Bytes) = x at h
  induction h with
  | nil x => exact ⟨rfl, rfl⟩
  | other hv hb _ ih =>
    rw [bodies_cons_other _ hb]
    exact ih hx
  | more hv _ ih => cases hx
  | last hv _ ih => cases hx

/-- As long as there is something left, the fragments are BODY headers. -/
theorem unfinished {r : Bytes} (h : Carries x hs (some r)) : ∀ e ∈ bodies hs, e.hi = obexHdrBody := by
  generalize hy : some r = y at h
  induction h with
  | nil x => exact fun _ he => (List.not_mem_nil he).elim
  | other hv hb _ ih =>
    rw [bodies_cons_other _ hb]
    exact ih hy
  | more hv _ ih =>
    rw [bodies_cons_body _ (fragment_isBody _ _)]
    exact List.forall_mem_cons.2 ⟨rfl, ih hy⟩
  | last hv hc ih =>
    have hnone := hc.sent.1
    rw [← hy] at hnone
    cases hnone

theorem finished {r : Bytes} (h : Carries (some r) hs none) :
    ∃ fs d, bodies hs = fs ++ [fragment true d] ∧
    ∀ e ∈ fs, e.hi = obexHdrBody := by
  generalize hx : some r = x at h
  generalize hy : (none : Option Bytes) = y at h
  induction h generalizing r with
  | nil x =>
    rw [← hx] at hy
    cases hy
  | other hv hb _ ih =>
    rw [bodies_cons_other _ hb]
    exact ih hx hy
  | more hv _ ih =>
    obtain ⟨fs, d, hfs, hbody⟩ := ih rfl hy
    rw [bodies_cons_body _ (fragment_isBody _ _), hfs]
    exact ⟨_ :: fs, d, rfl, List.forall_mem_cons.2 ⟨rfl, hbody⟩⟩
  | @last y d hs hv hc ih =>
    rw [bodies_cons_body _ (fragment_isBody _ _), hc.sent.2]
    exact ⟨[], d, rfl, fun _ he => (List.not_mem_nil he).elim⟩

end Carries

/-! ## Headers that are no bodies -/

/-- A queued header other than a body, with its encoding in the buffer and not longer than the MTU. -/
structure Solid (mtuTx : Nat) (h : HeaderElement) : Prop where
  plain : h.stream = false
  other : h.hi ≠ obexHdrBody ∧ h.hi ≠ obexHdrBodyEnd
  small : h.length ≤ mtuTx
  value : h.hi ≠ obexHdrEmpty → ∃ x : Head, x.Valid ∧ x.hi = h.hi ∧
    ∃ b, h.buf = some b ∧ b.contents = x.encode ∧ b.dataSize = h.length

section
variable {C : Ctx} {s : Obex} {p : Ptr} {o : ObexObject} {m : Buf} {queue hs : List HeaderElement}
  {suspend : Bool} {R : Stop → Obex → Prop} {h : HeaderElement} {B left : Nat}

theorem wp_insert_snug {d : Bytes} (hm : ∀ k, C.malloc k = true) (hsnug : Snug B m)
    {Q : Unit → Obex → Prop} (hq : ∀ m', Snug B m' → m'.contents = m.contents ++ d →
      Q () (filling s p o m' queue suspend)) :
    wp (txInsertEnd C d) Q R (filling s p o m queue suspend) := by
  rw [txInsertEnd, wp_bind, wp_get, wp_bind, wp_require, filling_txMsg]
  refine ⟨fun m' hins => ?_, fun hno => ?_⟩
  · obtain ⟨hdata, hlen⟩ := bufInsertEnd_length hins
    obtain ⟨hcont, hsize⟩ := bufInsertEnd_some hins
    refine hq m' ⟨hdata.trans hsnug.data, ?_⟩ hcont
    have hdata' := hsnug.data
    have hlen' := hsnug.size
    omega
  · obtain ⟨m', hins⟩ := bufInsertEnd_total hm m d
    rw [hins] at hno
    cases hno

/-- A header that waits in an empty packet blocks the queue. -/
theorem Solid.blocked {mtuTx : Nat} (hh : Solid mtuTx h) (hno : ¬ h.Whole left) :
    Blocked mtuTx left (h :: hs) := by
  unfold HeaderElement.Whole at hno
  rw [if_neg hh.other.1] at hno
  by_cases he : h.hi = obexHdrEmpty
  · rw [if_pos he] at hno
    exact absurd trivial hno
  · rw [if_neg he] at hno
    exact ⟨h, hs, rfl, hh.other.1, he, Nat.lt_of_not_le hno, hh.small⟩

/-- Such a header goes into the packet whole, or waits. -/
theorem wp_sendSolid (hh : Solid s.mtuTx h) (hd : Distinct (h :: hs)) (hm : ∀ k, C.malloc k = true)
    (hsnug : Snug B m) {Q : Option (Nat × Bool) → Obex → Prop}
    (hwhole : h.Whole left → ∀ xs m', (∀ y, Carries y xs y) → Snug B m' →
      m'.contents = m.contents ++ xs.flatMap Head.encode → m'.dataSize = m.dataSize + h.taken →
      Q (some (left - h.taken, true)) (filling s p o m' hs h.flags.suspend))
    (hwaits : ¬ h.Whole left → Q (some (left, false)) (filling s p o m (h :: hs) false)) :
    wp (sendHeader C p h left) Q R (filling s p o m (h :: hs) false) := by
  have hbody := hh.other.1
  have hfirst := slistRemove_first hd
  unfold HeaderElement.Whole HeaderElement.taken at hwhole
  unfold HeaderElement.Whole at hwaits
  rw [if_neg hbody] at hwhole hwaits
  rw [if_neg hbody] at hwhole
  rw [sendHeader, wp_bind, wp_get, hh.plain, if_neg Bool.false_ne_true, if_neg hbody]
  by_cases he : h.hi = obexHdrEmpty
  · rw [if_pos he] at hwhole
    rw [if_pos he] at hwhole
    rw [if_pos he, wp_bind]
    refine wp_filling_suspend ?_
    rw [wp_bind]
    refine wp_filling_update rfl ?_
    show wp (pure (some (left, true))) Q R
      (filling s p o m (slistRemove (h :: hs) h) (false || h.flags.suspend))
    rw [hfirst, Bool.false_or]
    exact hwhole trivial [] m .nil hsnug (List.append_nil _).symm rfl
  · rw [if_neg he] at hwhole hwaits
    rw [if_neg he] at hwhole
    rw [if_neg he]
    obtain ⟨x, hv, hhi, b, hb, hc, hlen⟩ := hh.value he
    by_cases hfits : h.length ≤ left
    · have hpeek : bufPeek b 0 h.length = some x.encode := by
        rw [bufPeek_of_le (by omega), ← hlen, ← hc, ← length_contents]
        exact congrArg some (List.take_of_length_le (Nat.le_refl _))
      -- it is no part of a body, so the stream is not touched
      have hother : x.isBody = false := by
        refine decide_eq_false fun hor => ?_
        rw [hhi] at hor
        exact hor.elim hh.other.1 hh.other.2
      rw [if_pos hfits, wp_bind, wp_require, hb]
      refine ⟨fun b' hb' => ?_, fun hno => by cases hno⟩
      cases hb'
      rw [wp_bind, peek, wp_require, hpeek]
      refine ⟨fun d hd' => ?_, fun hno => by cases hno⟩
      cases hd'
      rw [wp_bind]
      refine wp_insert_snug hm hsnug fun m' hsnug' hcont => ?_
      rw [wp_bind]
      refine wp_filling_suspend ?_
      rw [wp_bind]
      refine wp_filling_update rfl ?_
      show wp (pure (some (left - h.length, true))) Q R
        (filling s p o m' (slistRemove (h :: hs) h) (false || h.flags.suspend))
      rw [hfirst, Bool.false_or]
      refine hwhole hfits [x] m' (fun y => .other hv hother (.nil y)) hsnug' ?_ ?_
      · rw [hcont, List.flatMap_cons, List.flatMap_nil, List.append_nil]
      · have hds := congrArg List.length hcont
        rw [List.length_append, length_contents, length_contents, ← hc, length_contents] at hds
        omega
    · rw [if_neg hfits, filling_mtuTx, if_neg (Nat.not_lt.2 hh.small)]
      exact hwaits hfits

end

/-! ## When a fragment does not fit -/

/-- The space behind the header of a fragment, as the unsigned number that the code computes. -/
def room (left : Nat) : Nat := u32 ((left : Int) - 3)

/-- With `left` bytes of the packet behind `front` others, the fragment of one call of `send_stream`
outgrows a block of `B` bytes, or is too long for its length field. -/
def Pinched (B : Nat) (σ : Source UInt8) (single : Bool) (front left : Nat) : Prop :=
  0 < min (room left) (σ.ready single) ∧ B < front + 3 + min (room left) (σ.ready single) ∨
    65536 ≤ min (room left) (σ.ready single) + 3

instance (B : Nat) (σ : Source UInt8) (single : Bool) (front left : Nat) :
    Decidable (Pinched B σ single front left) := inferInstanceAs (Decidable (_ ∨ _))

/-- This fragment, or the one with the last chunk in the same packet. -/
def Choked (B : Nat) (σ : Source UInt8) (single : Bool) (front left : Nat) : Prop :=
  Pinched B σ single front left ∨
    single = false ∧ σ.ready false < room left ∧ σ.last.getD [] ≠ [] ∧
      u16 ((left : Int) - (3 + σ.ready false : Nat)) ≠ 0 ∧
      Pinched B σ.ended false (front + 3 + σ.ready false)
        (u16 ((left : Int) - (3 + σ.ready false : Nat)))

instance (B : Nat) (σ : Source UInt8) (single : Bool) (front left : Nat) :
    Decidable (Choked B σ single front left) := inferInstanceAs (Decidable (_ ∨ _))

/-- The stream is reached behind the headers in front of it, in a packet that chokes on it. -/
def Cramped (B : Nat) (σ : Source UInt8) : List HeaderElement → Nat → Nat → Prop
  | [], _, _ => False
  | h :: hs, front, left =>
    if h.stream then Choked B σ h.flags.suspend front left
    else h.Whole left ∧ h.flags.suspend = false ∧ left - h.taken ≠ 0 ∧
      Cramped B σ hs (front + h.taken) (left - h.taken)

/-! ## One packet -/

/-- The stream header waits in a queue of other headers, and `σ` is left of the stream. -/
structure Underway (E : Env) (mtuTx : Nat) (σ : Source UInt8) (log : List Obs) (o : ObexObject)
    (queue : List HeaderElement) : Prop where
  sound : σ.Sound
  opened : ¬ σ.Over
  cursor : Cursor σ o
  supplies : Supplies E (asks log) σ
  queue : ∃ pre st post, queue = pre ++ st :: post ∧ st.stream = true ∧ ∀ h ∈ pre ++ post, Solid mtuTx h

/-- What is left of the stream; `none` if it has been sent. -/
def Course (E : Env) (mtuTx : Nat) (x : Option (Source UInt8)) (log : List Obs) (o : ObexObject)
    (queue : List HeaderElement) : Prop := match x with
  | some σ => Underway E mtuTx σ log o queue
  | none => ∀ h ∈ queue, Solid mtuTx h

section
variable {E : Env} {mtuTx : Nat} {x : Option (Source UInt8)} {log : List Obs} {o : ObexObject}
  {h : HeaderElement} {hs : List HeaderElement}

/-- A header in front of the stream leaves the queue. -/
theorem Course.plain (hx : Course E mtuTx x log o (h :: hs)) (hh : h.stream = false) :
    Solid mtuTx h ∧ Course E mtuTx x log o hs := by
  cases x with
  | none =>
    obtain ⟨hsolid, hrest⟩ := List.forall_mem_cons.1 hx
    exact ⟨hsolid, hrest⟩
  | some σ =>
    obtain ⟨hσ, hopen, hc, hs', pre, st, post, hq, hst, hsolid⟩ := hx
    cases pre with
    | nil =>
      cases hq
      rw [hh] at hst
      cases hst
    | cons e pre =>
      cases hq
      obtain ⟨he, hrest⟩ := List.forall_mem_cons.1 hsolid
      exact ⟨he, hσ, hopen, hc, hs', pre, st, post, rfl, hst, hrest⟩

theorem Course.stream (hx : Course E mtuTx x log o (h :: hs)) (hh : h.stream = true) :
    ∃ σ, x = some σ ∧ Underway E mtuTx σ log o (h :: hs) ∧ ∀ e ∈ hs, Solid mtuTx e := by
  cases x with
  | none =>
    have hplain := (hx h List.mem_cons_self).plain
    rw [hh] at hplain
    cases hplain
  | some σ =>
    refine ⟨σ, rfl, hx, ?_⟩
    obtain ⟨-, -, -, -, pre, st, post, hq, -, hsolid⟩ := hx
    cases pre with
    | nil =>
      cases hq
      exact hsolid
    | cons e pre =>
      cases hq
      have hplain := (hsolid h List.mem_cons_self).plain
      rw [hh] at hplain
      cases hplain

end

/-- What is still to be sent. -/
def remains (x : Option (Source UInt8)) : Option Bytes := x.map Source.left

/-- Rounds that do not take a header off the queue. -/
def again (x : Option (Source UInt8)) : Nat := match x with
  | some σ => if σ.last.isSome then 1 else 0
  | none => 0

/-- The number of chunks to be asked for. -/
def chunksLeft (x : Option (Source UInt8)) : Nat := match x with
  | some σ => σ.chunks.length
  | none => 0

/-- What there is to send: headers, bytes of the stream and the last chunk. -/
def weigh (x : Option (Source UInt8)) (queue : List HeaderElement) : Nat :=
  queue.length + match x with
    | some σ => σ.weight
    | none => 0

/-- No packet is cramped. -/
def Clears (B : Nat) (x : Option (Source UInt8)) (queue : List HeaderElement)
    (front left : Nat) : Prop :=
  ∀ σ, x = some σ → ¬ Cramped B σ queue front left

/-- A packet has been filled with the headers `hs`. -/
structure Fills (E : Env) (B : Nat) (x x' : Option (Source UInt8)) (hs : List Head) (s : Obex)
    (o : ObexObject) (m : Buf) (queue : List HeaderElement) (xs : List Obs) (o' : ObexObject) (m' : Buf)
    (queue' : List HeaderElement) : Prop where
  onlyAsks : ∀ x ∈ xs, x.isAsk = true
  moved : Moved o o'
  course : Course E s.mtuTx x' (s.log ++ xs) o' queue'
  suffix : queue' <:+ queue
  snug : Snug B m'
  contents : m'.contents = m.contents ++ hs.flatMap Head.encode
  carries : Carries (remains x) hs (remains x')
  chunks : chunksLeft x' ≤ chunksLeft x
  weighs : weigh x' queue' ≤ weigh x queue

section
variable {E : Env} {n B : Nat} {x x' x'' : Option (Source UInt8)} {hs hs' : List Head}
  {s : Obex} {p : Ptr} {o o' o'' : ObexObject} {m m' m'' : Buf}
  {queue queue' queue'' : List HeaderElement} {xs xs' : List Obs} {suspend : Bool}
  {R : Stop → Obex → Prop}

theorem Fills.trans (h : Fills E B x x' hs s o m queue xs o' m' queue')
    (h' : Fills E B x' x'' hs' (logged s xs) o' m' queue' xs' o'' m'' queue'') :
    Fills E B x x'' (hs ++ hs') s o m queue (xs ++ xs') o'' m'' queue'' := by
  refine ⟨fun y hy => ?_, h.moved.trans h'.moved, ?_, h'.suffix.trans h.suffix, h'.snug, ?_,
    h.carries.append h'.carries, Nat.le_trans h'.chunks h.chunks, Nat.le_trans h'.weighs h.weighs⟩
  · cases List.mem_append.1 hy with
    | inl hy => exact h.onlyAsks y hy
    | inr hy => exact h'.onlyAsks y hy
  · rw [← List.append_assoc]
    exact h'.course
  · rw [h'.contents, h.contents, List.flatMap_append, List.append_assoc]

theorem Fills.refl (hx : Course E s.mtuTx x s.log o queue) (hsnug : Snug B m) :
    Fills E B x x [] s o m queue [] o m queue :=
  ⟨fun _ hy => (List.not_mem_nil hy).elim, .refl o, by rwa [List.append_nil], List.suffix_refl _, hsnug,
    (List.append_nil _).symm, .nil _, Nat.le_refl _, Nat.le_refl _⟩

theorem wp_goOn {C : Ctx} {fuel left : Nat} {addmore : Bool} {Q : Bool → Obex → Prop}
    (hgo : addmore = true → suspend = false → left ≠ 0 →
      wp (sendHeaders C p fuel left) Q R (filling s p o m queue false))
    (hend : Q true (filling s p o m queue suspend)) :
    wp (do
      let o ← deref p
      if addmore ∧ ¬ o.suspend ∧ left ≠ 0 then sendHeaders C p fuel left
      else pure true) Q R (filling s p o m queue suspend) := by
  rw [wp_bind, wp_deref, filling_objects]
  refine ⟨fun o' ho' => ?_, fun hno => by cases hno⟩
  cases ho'
  rw [wp_ite]
  refine ⟨fun hc => ?_, fun _ => hend⟩
  have hsus : suspend = false := by
    have hno : ¬ suspend = true := hc.2.1
    simpa using hno
  have hrest := hgo hc.1 hsus hc.2.2
  rwa [← hsus] at hrest

theorem fragment_valid {d : Bytes} (final : Bool) (hd : d.length + 3 < 65536) :
    (fragment final d).Valid := by
  have hk := Head.sized_of_isBody (fragment_isBody final d)
  unfold Head.Valid
  rw [hk]
  exact hd

/-- The stream header at the head of the queue, with space for a fragment. -/
theorem wp_sendFragment {h : HeaderElement} {hs : List HeaderElement} {σ : Source UInt8} {left : Nat}
    (hm : ∀ k, E.malloc k = true) (hst : h.stream = true) (hx : Underway E s.mtuTx σ s.log o (h :: hs))
    (hpost : ∀ e ∈ hs, Solid s.mtuTx e) (hd : Distinct (h :: hs)) (hc : s.object = some p)
    (hrounds : σ.rounds ≤ n + 1) (hsnug : Snug B m)
    (hclear : ¬ Pinched B σ h.flags.suspend m.dataSize left) {Q : Option (Nat × Bool) → Obex → Prop}
    (hq : ∀ σ' d xs o' m', Source.Draws h.flags.suspend σ (room left) d σ' → d.length + 3 < 65536 →
      m'.dataSize = m.dataSize + 3 + d.length →
      (σ'.Over → Fills E B (some σ) none [fragment true d] s o m (h :: hs) xs o' m' hs →
        Q (some (u16 ((left : Int) - (3 + d.length : Nat)), true))
          (filling (logged s xs) p o' m' hs h.flags.suspend)) ∧
      (¬ σ'.Over → Fills E B (some σ) (some σ') [fragment false d] s o m (h :: hs) xs o' m' (h :: hs) →
        Q (some (u16 ((left : Int) - (3 + d.length : Nat)), true))
          (filling (logged s xs) p o' m' (h :: hs) h.flags.suspend))) :
    wp (sendHeader (E.ctx .all (n + 1)) p h left) Q R (filling s p o m (h :: hs) false) := by
  obtain ⟨hσ, -, hcur, hsup, -⟩ := hx
  obtain ⟨d, σ', hdraw⟩ := Source.Draws.exists_of_sound h.flags.suspend hσ (room left)
  have hlen := hdraw.length hσ
  have hlong : d.length + 3 < 65536 := by
    refine Nat.not_le.1 fun hle => hclear (.inr ?_)
    rwa [← hlen]
  have hroom : d = [] ∨ m.dataSize + 3 + d.length ≤ B := by
    by_cases hzero : d.length = 0
    · exact .inl (List.length_eq_zero_iff.1 hzero)
    · refine .inr (Nat.not_lt.1 fun hlt => hclear (.inl ⟨by omega, ?_⟩))
      rwa [← hlen]
  have hmem : addr h ∈ (h :: hs).map addr := List.mem_cons_self
  have hvalid (final : Bool) := fragment_valid final hlong
  have hds {final : Bool} {m' : Buf} (hcont : m'.contents = m.contents ++ (fragment final d).encode) :
      m'.dataSize = m.dataSize + 3 + d.length := by
    have hl := congrArg List.length hcont
    rw [fragment_encode, length_contents, List.length_append, length_contents, List.length_append,
      List.length_cons, length_be16] at hl
    omega
  have hsplit := hdraw.left
  have hflat (final : Bool) : (fragment final d).encode = [fragment final d].flatMap Head.encode := by
    rw [List.flatMap_cons, List.flatMap_nil, List.append_nil]
  rw [sendHeader, wp_bind, wp_get, hst, if_pos rfl, wp_bind]
  refine wp_filling_suspend ?_
  rw [Bool.false_or, wp_bind]
  -- a stream that has ended leaves the queue with a BODY_END, any other stays with a BODY
  by_cases hover : σ'.Over
  · refine wp_sendStream true hdraw (by simp [hover]) hlong hσ hcur hsup hc hrounds hm hmem hsnug hroom
      fun xs o' m' hasks hmoved hcur' hsup' hsnug' hcont => ?_
    have hdone : σ.left = d := by rw [← hsplit, (hdraw.sound hσ).left_of_over hover, List.append_nil]
    rw [if_pos rfl, slistRemove_first hd]
    refine (hq σ' d xs o' m' hdraw hlong (hds hcont)).1 hover
      ⟨hasks, hmoved, hpost, List.suffix_cons _ _, hsnug', ?_, ?_, Nat.zero_le _, ?_⟩
    · rw [hcont, hflat]
    · rw [show remains (some σ) = some d from congrArg some hdone]
      exact .last (hvalid true) (.nil none)
    · show hs.length + 0 ≤ (h :: hs).length + σ.weight
      rw [List.length_cons]
      omega
  · refine wp_sendStream false hdraw (by simp [hover]) hlong hσ hcur hsup hc hrounds hm hmem hsnug hroom
      fun xs o' m' hasks hmoved hcur' hsup' hsnug' hcont => ?_
    rw [if_neg Bool.false_ne_true]
    refine (hq σ' d xs o' m' hdraw hlong (hds hcont)).2 hover
      ⟨hasks, hmoved, ⟨hdraw.sound hσ, hover, hcur', hsup', [], h, hs, rfl, hst, hpost⟩,
        List.suffix_refl _, hsnug', ?_, ?_, hdraw.chunks_le, Nat.add_le_add_left hdraw.weight_le _⟩
    · rw [hcont, hflat]
    · rw [show remains (some σ) = some (d ++ σ'.left) from congrArg some hsplit.symm]
      exact .more (hvalid false) (.nil _)

/-- By induction on the rounds. -/
theorem wp_streamHeaders (hm : ∀ k, E.malloc k = true) (hn : 1 ≤ n) (fuel : Nat) :
    ∀ {left : Nat} {x : Option (Source UInt8)} {s : Obex} {o : ObexObject} {m : Buf}
      {queue : List HeaderElement}
      {Q : Bool → Obex → Prop}, Course E s.mtuTx x s.log o queue → Distinct queue → s.object = some p →
      0 < left → left < 65536 → queue.length + again x < fuel → (∀ σ, x = some σ → σ.rounds ≤ n + 1) →
      Snug B m → Clears B x queue m.dataSize left →
      (∀ x' hs xs o' m' q b, Fills E B x x' hs s o m queue xs o' m' q →
        (queue ≠ [] → 4 ≤ left → ¬ Blocked s.mtuTx left queue → weigh x' q < weigh x queue) →
        Q true (filling (logged s xs) p o' m' q b)) →
      wp (sendHeaders (E.ctx .all (n + 1)) p fuel left) Q R (filling s p o m queue false) := by
  have hm' : ∀ k, (E.ctx .all (n + 1)).malloc k = true := fun k => by rw [ctx_malloc]; exact hm k
  induction fuel with
  | zero =>
    intro left x s o m queue Q hx hd hc hpos hlt hfuel
    omega
  | succ fuel ih =>
    intro left x s o m queue Q hx hd hc hpos hlt hfuel hrounds hsnug hclear hq
    have hrefl (hno : queue ≠ [] → ¬ Blocked s.mtuTx left queue → False) :
      Q true (filling s p o m queue false) := by
      have hend := hq x [] [] o m queue false (.refl hx hsnug) fun hne _ hfree => (hno hne hfree).elim
      rwa [logged_nil] at hend
    rw [sendHeaders, wp_bind, wp_deref, filling_objects]
    refine ⟨fun o₁ ho₁ => ?_, fun hno => by cases hno⟩
    cases ho₁
    cases queue with
    | nil => exact hrefl fun hne => absurd rfl hne
    | cons h hs =>
      rw [List.length_cons] at hfuel
      show wp (sendHeader (E.ctx .all (n + 1)) p h left >>= _) _ _ _
      rw [wp_bind]
      by_cases hst : h.stream = true
      · obtain ⟨σ, rfl, hunder, hpost⟩ := hx.stream hst
        have hfree : ¬ Choked B σ h.flags.suspend m.dataSize left := by
          have hcr := hclear σ rfl
          rwa [Cramped, if_pos hst] at hcr
        have hσ := hunder.sound
        have hleft (k : Int) : u16 k < 65536 := by
          unfold u16
          omega
        refine wp_sendFragment hm hst hunder hpost hd hc (hrounds σ rfl) hsnug
          (fun hp => hfree (.inl hp))
          fun σ' d xs o' m' hdraw hlong hds => ⟨fun _ hpk => ?_, fun hopen hpk => ?_⟩
        · have hless : weigh none hs < weigh (some σ) (h :: hs) := by
            show hs.length + 0 < (h :: hs).length + σ.weight
            rw [List.length_cons]
            omega
          refine wp_goOn (fun _ _ hne => ?_) (hq _ _ _ _ _ _ _ hpk fun _ _ _ => hless)
          refine ih hpk.course (List.nodup_cons.1 hd).2 hc (Nat.pos_of_ne_zero hne) (hleft _) ?_
            (fun _ hno => by cases hno) hpk.snug (fun _ hno => by cases hno) fun x' hs' ys o'' m'' q b
            h' _ => ?_
          · show hs.length + 0 < fuel
            omega
          · rw [logged_logged]
            exact hq x' _ _ o'' m'' q b (hpk.trans h') fun _ _ _ => Nat.lt_of_le_of_lt h'.weighs hless
        · have hless (h4 : 4 ≤ left) : weigh (some σ') (h :: hs) < weigh (some σ) (h :: hs) :=
            Nat.add_lt_add_left (hdraw.weight_lt hσ (by unfold room u32; omega) hunder.opened) _
          refine wp_goOn (fun _ hsus hne => ?_) (hq _ _ _ _ _ _ _ hpk fun _ h4 _ => hless h4)
          -- the last chunk has been handed out, and goes into the same packet
          have hlen := hdraw.length hσ
          rw [hsus] at hdraw hlen hfree
          have hready : σ.ready false < room left := by
            by_contra hfull
            rw [Nat.min_eq_left (Nat.not_lt.1 hfull)] at hlen
            refine hne ?_
            rw [hlen]
            unfold room at hlen ⊢
            unfold u32 at hlen ⊢
            unfold u16
            omega
          have hended := hdraw.ended hσ hready
          have hsome : σ.last.getD [] ≠ [] := fun hnil => hopen (by rw [hended]; exact ⟨rfl, hnil⟩)
          have hagain : again (some σ) = 1 := by
            show (if σ.last.isSome then 1 else 0) = 1
            cases hl : σ.last with
            | none => exact absurd (by rw [hl]; rfl) hsome
            | some e => rfl
          have hrounds' : σ.ended.rounds ≤ n + 1 := by
            have htwo : σ.ended.rounds ≤ 2 := by
              unfold Source.rounds
              show 0 + _ ≤ 2
              split <;> omega
            omega
          rw [hended] at hpk hless
          refine ih hpk.course hd hc (Nat.pos_of_ne_zero hne) (hleft _) ?_ (fun τ hτ => ?_) hpk.snug
            (fun τ hτ => ?_) fun x' hs' ys o'' m'' q b h' _ => ?_
          · show hs.length + 1 + 0 < fuel
            omega
          · cases hτ
            exact hrounds'
          · cases hτ
            rw [Cramped, if_pos hst, hsus, hds]
            rw [hlen, Nat.min_eq_right (Nat.le_of_lt hready)] at hne ⊢
            rintro (hp | ⟨-, -, hno, -⟩)
            · exact hfree (.inr ⟨rfl, hready, hsome, hne, hp⟩)
            · exact hno rfl
          · rw [logged_logged]
            exact hq x' _ _ o'' m'' q b (hpk.trans h') fun _ h4 _ => Nat.lt_of_le_of_lt h'.weighs
              (hless h4)
      · have hst' : h.stream = false := by simpa using hst
        obtain ⟨hsolid, hrest⟩ := hx.plain hst'
        refine wp_sendSolid hsolid hd hm' hsnug (fun hw ys m' hcar hsnug' hcont hds => ?_)
          fun hwaits => ?_
        · have hless : weigh x hs < weigh x (h :: hs) := Nat.add_lt_add_right (Nat.lt_succ_self _) _
          have hpk : Fills E B x x ys s o m (h :: hs) [] o m' hs := by
            exact ⟨fun _ hy => (List.not_mem_nil hy).elim, .refl o, by rwa [List.append_nil],
              List.suffix_cons _ _, hsnug', hcont, hcar _, Nat.le_refl _,
              Nat.le_of_lt hless⟩
          refine wp_goOn (fun _ hsus hne => ?_) ?_
          · refine ih hrest (List.nodup_cons.1 hd).2 hc (Nat.pos_of_ne_zero hne) (by omega)
              (by omega) hrounds
              hsnug' (fun σ hσ hcr => ?_) fun x' hs' xs o' m'' q b h' _ => ?_
            · rw [hds] at hcr
              refine hclear σ hσ ?_
              rw [Cramped, if_neg hst]
              exact ⟨hw, hsus, hne, hcr⟩
            · have h'' := hpk.trans (by rwa [logged_nil])
              exact hq x' _ _ o' m'' q b h'' fun _ _ _ => Nat.lt_of_le_of_lt h'.weighs hless
          · have hend := hq x _ _ _ _ _ h.flags.suspend hpk fun _ _ _ => hless
            rwa [logged_nil] at hend
        · refine wp_goOn (fun hno => absurd hno Bool.false_ne_true) (hrefl fun _ hfree => hfree ?_)
          exact hsolid.blocked hwaits

/-! ## One call of `obex_object_send` -/

theorem asks_append (log xs : List Obs) : asks (log ++ xs) = asks log + asks xs := List.countP_append

theorem asks_quiet {xs : List Obs} (hxs : ∀ x ∈ xs, x.isAsk = false) : asks xs = 0 :=
  List.countP_eq_zero.2 fun x hx => by rw [hxs x hx]; exact Bool.false_ne_true

theorem Course.log {log ys : List Obs} (hx : Course E n x log o queue)
    (hys : ∀ y ∈ ys, y.isAsk = false) :
    Course E n x (log ++ ys) o queue := by
  cases x with
  | none => exact hx
  | some σ =>
    refine ⟨hx.sound, hx.opened, hx.cursor, ?_, hx.queue⟩
    rw [asks_append, asks_quiet hys, Nat.add_zero]
    exact hx.supplies

/-- The object at `p` is being sent, with `x` of its stream left. -/
structure Streams (E : Env) (p : Ptr) (x : Option (Source UInt8)) (s : Obex) (o : ObexObject) :
    Prop where
  object : s.objects p = some o
  course : Course E s.mtuTx x s.log o o.txHeaderq
  distinct : Distinct o.txHeaderq

/-- The call has handed a packet with the headers `hs` to the transport. -/
structure SentPacket (E : Env) (p : Ptr) (x x' : Option (Source UInt8)) (s : Obex) (o : ObexObject)
    (hs : List Head) (t : Obex) (o' : ObexObject) : Prop where
  sending : Streams E p x' t o'
  nonhdr : o'.txNonhdrData = none
  mtuTx : t.mtuTx = s.mtuTx
  carries : Carries (remains x) hs (remains x')
  chunks : chunksLeft x' ≤ chunksLeft x
  weighs : weigh x' o'.txHeaderq ≤ weigh x o.txHeaderq
  less : o.txHeaderq ≠ [] → ¬ Blocked s.mtuTx (initialTxLeft s) o.txHeaderq →
    weigh x' o'.txHeaderq < weigh x o.txHeaderq
  log : ∃ xs kind opcode ys, (∀ y ∈ xs, y.isAsk = true) ∧ Answers ys ∧
    t.log = s.log ++ xs ++ .write (some p) kind
      (packet opcode (o.nonhdr ++ hs.flatMap Head.encode)) :: ys

/-- One packet of the stream. -/
theorem Streams.send (h : Streams E p x s o) (hm : ∀ k, E.malloc k = true) (hc : s.object = some p)
    (hsus : o.suspend = false) (hmtu : 255 ≤ s.mtuTx ∧ s.mtuTx ≤ 65535)
    (hn : o.txHeaderq.length + 1 ≤ n) (hrounds : ∀ σ, x = some σ → σ.rounds ≤ n + 1)
    (hclear : Clears s.txMsg.buffer.length x o.txHeaderq o.nonhdr.length (initialTxLeft s))
    (allowfinalcmd forcefinalbit : Bool) :
    wp (obexObjectSend (E.ctx .all (n + 1)) p allowfinalcmd forcefinalbit)
      (fun _ t => ∃ x' hs o', SentPacket E p x x' s o hs t o') (fun _ _ => False) s := by
  obtain ⟨ho, hx, hd⟩ := h
  obtain ⟨hlow, hhigh⟩ := initialTxLeft_bounds hmtu
  have hself (m : Buf) : filling s p o m o.txHeaderq false = s.setTxMsg m := by
    have hs : sending o o.txHeaderq false = o := by
      unfold sending
      rw [← hsus]
    have ho' : (s.setTxMsg m).objects p = some o := ho
    rw [filling, hs, setObject_self ho']
  rw [obexObjectSend, wp_bind, wp_deref]
  refine ⟨fun o' ho' => ?_, fun hno => by rw [ho] at hno; cases hno⟩
  rw [ho] at ho'
  cases ho'
  rw [hsus, if_neg Bool.false_ne_true, wp_bind, wp_get, wp_bind, wp_set, wp_bind, ← hself]
  refine wp_sendNonhdr (fun m hcont hdata hlen => ?_) fun hno =>
    (hno fun k => by rw [ctx_malloc]; exact hm k).elim
  have hds : m.dataSize = o.nonhdr.length := by rw [← length_contents, hcont]
  have hagain : again x ≤ 1 := by
    cases x with
    | none => exact Nat.zero_le 1
    | some σ =>
      show (if σ.last.isSome then 1 else 0) ≤ 1
      split <;> omega
  rw [wp_bind]
  refine wp_streamHeaders (B := s.txMsg.buffer.length) hm (by omega) _ (x := x)
    (o := { o with txNonhdrData := none }) ?_ hd hc (by omega) hhigh (by show _ < n + 1; omega) hrounds
    ⟨hdata, hlen⟩
    (by rwa [hds]) fun x' hs xs o' m' q b hpk hless => ?_
  · cases x with
    | none => exact hx
    | some σ => exact ⟨hx.sound, hx.opened, ⟨hx.cursor.stop, hx.cursor.len, hx.cursor.data⟩,
      hx.supplies, hx.queue⟩
  rw [if_pos rfl, wp_bind, wp_deref, filling_objects]
  refine ⟨fun o₁ ho₁ => ?_, fun hno => by cases hno⟩
  cases ho₁
  rw [wp_bind]
  refine wp_conseq (wp_dataRequest_total hm (some p) _ _ _) fun r t ht => ?_
  obtain ⟨ys, hys, ⟨m'', rfl⟩, -, -⟩ := ht
  have hcourse : Course E s.mtuTx x' (s.log ++ xs) (sending o' q b) q := by
    have hpkc := hpk.course
    cases x' with
    | none => exact hpkc
    | some σ =>
      exact ⟨hpkc.sound, hpkc.opened, ⟨hpkc.cursor.stop, hpkc.cursor.len, hpkc.cursor.data⟩,
        hpkc.supplies, hpkc.queue⟩
  have hquiet (kind : PacketKind) (d : Bytes) :
      ∀ y ∈ Obs.write (some p) kind d :: ys, y.isAsk = false := by
    refine List.forall_mem_cons.2 ⟨rfl, fun y hy => ?_⟩
    obtain ⟨_, _, rfl⟩ := hys y hy
    rfl
  have hnonhdr : o'.txNonhdrData = none := by
    obtain ⟨_, _, _, _, rfl⟩ := hpk.moved
    rfl
  -- which opcode is chosen does not matter to the stream
  generalize (chooseOpcode (sending o' q b) allowfinalcmd forcefinalbit).1 = kind
  generalize (chooseOpcode (sending o' q b) allowfinalcmd forcefinalbit).2 = opcode
  have hdist : Distinct q := hd.sublist (hpk.suffix.sublist.map _)
  have hsent : SentPacket E p x x' s o hs { filling (logged s xs) p o' m' q b with
      txMsg := m''
      log := s.log ++ xs ++ .write (some p) kind (packet opcode m'.contents) :: ys }
        (sending o' q b) := by
    refine ⟨⟨filling_objects _ _ _ _ _ _, hcourse.log (hquiet kind (packet opcode m'.contents)), hdist⟩,
      hnonhdr, rfl, hpk.carries, hpk.chunks, hpk.weighs, fun hne hfree => hless hne hlow hfree, xs,
      kind, opcode, ys, hpk.onlyAsks, hys, ?_⟩
    rw [hpk.contents, hcont]
  rw [wp_ite]
  exact ⟨fun _ => ⟨x', hs, _, hsent⟩, fun _ => ⟨x', hs, _, hsent⟩⟩

end

end OpenObex
