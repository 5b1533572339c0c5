import OpenObex.Proof.Streaming

/-!
# The space in a packet

`obex_object_send` keeps count of the space left in a packet. The count is right for a BODY or stream
header if what it is decreased by is what has been put into the packet (`Charged`). What a stream puts
there is what the application has ready: `Tap` is its end of the stream, and `Tap.draw` the bytes it
yields for a given space, whatever its answers to `OBEX_EV_STREAMEMPTY` are.
-/

namespace OpenObex

open Mem Prog

/-! ## The application's end of a stream -/

/-- The data handed out and not yet sent (`none` is the null pointer), whether it is said to be the
last, and whether the object is suspended. -/
structure Tap where
  buf : Option Bytes
  stop : Bool
  suspend : Bool

namespace Tap

def pending (t : Tap) : Bytes := t.buf.getD []

/-- What a call in the answer to an `OBEX_EV_STREAMEMPTY` does. -/
def call (t : Tap) : Call → Tap
  | .objectAddHeader _ _ hv size flags =>
    { t with buf := hv.bs.map (·.take size.toNat), stop := t.stop || flags.streamDataend }
  | .suspendRequest _ => { t with suspend := true }
  | _ => t

def ask (t : Tap) (calls : List Call) : Tap := calls.foldl call { t with buf := none }

/-- The bytes for `space` bytes: what is pending first, and `rest` if there is space left. -/
def pour (t : Tap) (space : Nat) (rest : Tap → Nat → Option (Option Bytes)) : Option (Option Bytes) :=
  if space < t.pending.length then some (some (t.pending.take space))
  else if t.suspend = true ∨ space = t.pending.length then some (some t.pending)
  else (rest { t with buf := some [] } (space - t.pending.length)).map (·.map (t.pending ++ ·))

/-- The bytes for `space` bytes from an application that answers the `k`-th question with `answers k`:
`some none` if it has none although it neither stops nor suspends, `none` if it takes more than the
given number of questions and chunks. -/
def draw (answers : Nat → List Call) : Nat → Nat → Tap → Nat → Option (Option Bytes)
  | 0, _, _, _ => none
  | n + 1, k, t, space =>
    if t.pending = [] then
      let t' := t.ask (answers k)
      if t'.stop then some (some [])
      else if t'.buf = none then some (if t'.suspend then some [] else none)
      else t'.pour space (draw answers n (k + 1))
    else t.pour space (draw answers n k)

end Tap

/-- A call that feeds the stream of the object at `p`, or suspends it. -/
inductive Feeds (p : Ptr) : Call → Prop
  | data (object : Ptr) (hi : UInt8) (hv : HeaderData) (size : UInt32) (flags : Flags)
      (h : flags.streamData = true ∨ flags.streamDataend = true)
      (hsize : size.toNat ≤ (hv.bs.getD []).length) : Feeds p (.objectAddHeader object hi hv size flags)
  | suspend (q : Option Ptr) (h : q = none ∨ q = some p) : Feeds p (.suspendRequest q)

/-- The application answers the `k`-th `OBEX_EV_STREAMEMPTY` with the calls `answers k`. -/
def Replies (E : Env) (answers : Nat → List Call) : Prop :=
  ∀ log n, n.event = .streamempty → E.app (log ++ [.event n]) = answers (asks log)

/-- The object is where the application's end of the stream is. -/
structure Taps (t : Tap) (o : ObexObject) : Prop where
  stop : o.sStop = t.stop
  len : o.sLen = t.pending.length
  null : o.sBuf = none ↔ t.buf = none
  data : ∀ b, o.sBuf = some b → o.sOffset + o.sLen ≤ b.length ∧ slice b o.sOffset o.sLen = t.pending

section

variable {E : Env} {n : Nat} {s : Obex} {p : Ptr} {o : ObexObject} {m : Buf}
  {queue : List HeaderElement} {t : Tap} {R : Stop → Obex → Prop} {answers : Nat → List Call}

theorem Taps.withCursor {buf : Option Bytes} {b : Bool} {len : Nat} (h : len ≤ (buf.getD []).length)
    (hstop : b = t.stop) :
    Taps { t with buf := buf.map (·.take len) } (withCursor o buf len 0 b) := by
  cases buf with
  | none => exact ⟨hstop, Nat.le_zero.1 h, Iff.rfl, fun _ hb => by cases hb⟩
  | some d =>
    have hlen : (d.take len).length = len := List.length_take_of_le h
    refine ⟨hstop, hlen.symm, ⟨fun hno => ?_, fun hno => ?_⟩, fun b' hb => ?_⟩
    · cases hno
    · cases hno
    · cases hb
      refine ⟨?_, rfl⟩
      show 0 + len ≤ d.length
      rw [Nat.zero_add]
      exact h

theorem wp_filling_moved {b b' : Bool} {f : ObexObject → ObexObject} {Q : Unit → Obex → Prop}
    (o' : ObexObject) (hf : f (sending o queue b) = sending o' queue b')
    (h : Q () (filling s p o' m queue b')) :
    wp (update p f) Q R (filling s p o m queue b) := by
  rw [wp_update, filling_objects]
  refine ⟨fun o₁ ho₁ => ?_, fun hno => by cases hno⟩
  cases ho₁
  rw [hf, filling_setObject]
  exact h

/-- A call from the answer. -/
theorem wp_feeds {c : Call} (hc : Feeds p c) (hs : s.object = some p) (ht : Taps t o)
    (hoff : o.sOffset = 0) {Q : Unit → Obex → Prop}
    (hq : ∀ o', Moved o o' → Taps (t.call c) o' → o'.sOffset = 0 →
      Q () (filling s p o' m queue (t.call c).suspend)) :
    wp (nestedCall (E.ctx .all n) .all c) Q R (filling s p o m queue t.suspend) := by
  have hcurrent : (filling s p o m queue t.suspend).object = some p := hs
  rw [nestedCall, wp_bind, wp_get, wp_bind, wp_allowed]
  refine ⟨fun _ => ?_, fun hf => by cases hf⟩
  rw [wp_bind]
  cases hc with
  | suspend q hq' =>
    have hsuspend : wp (obexObjectSuspend p) (fun _ u => Q () u) R
      (filling s p o m queue t.suspend) := by
      rw [obexObjectSuspend, wp_bind]
      exact wp_filling_update rfl (hq o (Moved.refl o) ⟨ht.stop, ht.len, ht.null, ht.data⟩ hoff)
    rw [api, obexSuspendRequest, wp_bind, wp_get, hcurrent]
    rcases hq' with rfl | rfl
    · exact hsuspend
    · exact hsuspend
  | data object hi hv size flags hflags hsize =>
    have hset {b : Bool} (hb : b = (t.stop || flags.streamDataend)) :
        Q () (filling s p (withCursor o hv.bs size.toNat 0 b) m queue t.suspend) :=
      hq _ ⟨_, _, _, _, rfl⟩ (Taps.withCursor (t := ⟨none, t.stop || flags.streamDataend, t.suspend⟩)
        hsize hb) rfl
    rw [api, obexObjectAddheader, wp_bind, wp_get]
    cases hend : flags.streamDataend with
    | true =>
      rw [hend, Bool.or_true] at hset
      rw [if_pos rfl, hcurrent]
      dsimp only
      rw [wp_bind]
      refine wp_filling_moved (withCursor o hv.bs size.toNat 0 true) ?_ (hset rfl)
      rw [← hoff]
      rfl
    | false =>
      rw [hend, Bool.or_false] at hset
      have hdata : flags.streamData = true := by
        rcases hflags with h | h
        · exact h
        · rw [hend] at h
          cases h
      rw [if_neg Bool.false_ne_true, hdata, if_pos rfl, hcurrent]
      dsimp only
      rw [wp_bind]
      refine wp_filling_moved (withCursor o hv.bs size.toNat 0 o.sStop) ?_ (hset ht.stop)
      rw [← hoff]
      rfl

theorem wp_feeds_all {calls : List Call} (hc : ∀ c ∈ calls, Feeds p c) (hs : s.object = some p)
    (ht : Taps t o) (hoff : o.sOffset = 0) {Q : Unit → Obex → Prop}
    (hq : ∀ o', Moved o o' → Taps (calls.foldl Tap.call t) o' →
      Q () (filling s p o' m queue (calls.foldl Tap.call t).suspend)) :
    wp (iterate (nestedCall (E.ctx .all n) .all) calls) Q R (filling s p o m queue t.suspend) := by
  induction calls generalizing t o with
  | nil => exact hq o (Moved.refl o) ht
  | cons c cs ih =>
    rw [iterate, wp_bind]
    refine wp_feeds (hc c List.mem_cons_self) hs ht hoff fun o' hmoved ht' hoff' => ?_
    exact ih (fun c' hc' => hc c' (List.mem_cons_of_mem c hc')) ht' hoff' fun o'' hmoved' =>
      hq o'' (hmoved.trans hmoved')

/-- The question for data, and what the loop makes of the answer. -/
theorem wp_askTap (hr : Replies E answers) (hf : ∀ c ∈ answers (asks s.log), Feeds p c)
    (hs : s.object = some p) (ht : Taps t o) (hp : t.pending = []) {Q : StreamRound → Obex → Prop}
    (hq : ∀ x o', x.event = .streamempty → Moved o o' → Taps (t.ask (answers (asks s.log))) o' →
      Q (if (t.ask (answers (asks s.log))).stop then .stop
        else if (t.ask (answers (asks s.log))).buf = none then
          if (t.ask (answers (asks s.log))).suspend then .stop else .failed
        else .data) (filling (s.emit (.event x)) p o' m queue (t.ask (answers (asks s.log))).suspend)) :
    wp (askForData (E.ctx .all (n + 1)) p) Q R (filling s p o m queue t.suspend) := by
  generalize ha : answers (asks s.log) = calls at *
  have hlen : o.sLen = 0 := by
    rw [ht.len, hp]
    rfl
  rw [askForData, wp_bind, wp_deref, filling_objects]
  refine ⟨fun o₁ ho₁ => ?_, fun hno => by cases hno⟩
  cases ho₁
  rw [if_pos (show (sending o queue t.suspend).sLen = 0 from hlen), wp_bind]
  refine wp_filling_moved (withCursor o none o.sLen 0 o.sStop) rfl ?_
  rw [wp_bind]
  refine wp_streamempty fun x hx => ?_
  have hstart : Taps { t with buf := none } (withCursor o none o.sLen 0 o.sStop) :=
    ⟨ht.stop, hlen, ⟨fun _ => rfl, fun _ => rfl⟩, fun _ hb => by cases hb⟩
  show wp (iterate (nestedCall (E.ctx .all n) .all) (E.app (s.log ++ [.event x]))) _ R
    (filling (s.emit (.event x)) p (withCursor o none o.sLen 0 o.sStop) m queue t.suspend)
  rw [hr s.log x hx, ha]
  refine wp_feeds_all (s := s.emit (.event x)) (t := { t with buf := none }) hf hs hstart rfl
    fun o' hmoved ht' => ?_
  change Taps (t.ask calls) o' at ht'
  have hpost := hq x o' hx (Moved.trans ⟨_, _, _, _, rfl⟩ hmoved) ht'
  rw [wp_bind, wp_deref, filling_objects]
  refine ⟨fun o₁ ho₁ => ?_, fun hno => by cases hno⟩
  cases ho₁
  show wp (if o'.sStop = true then (pure .stop : M StreamRound)
    else if (t.ask calls).suspend = true ∧ o'.sBuf = none then pure .stop
    else if o'.sBuf = none then pure .failed else pure .data) _ _ _
  rw [show o'.sStop = (t.ask calls).stop from ht'.stop]
  by_cases hstop : (t.ask calls).stop = true
  · rw [if_pos hstop] at hpost
    rw [if_pos hstop]
    exact hpost
  rw [if_neg hstop] at hpost ⊢
  by_cases hnull : o'.sBuf = none
  · rw [if_pos (ht'.null.1 hnull)] at hpost
    by_cases hsus : (t.ask calls).suspend = true
    · rw [if_pos hsus] at hpost
      rw [if_pos ⟨hsus, hnull⟩]
      exact hpost
    · rw [if_neg hsus] at hpost
      rw [if_neg fun h => hsus h.1, if_pos hnull]
      exact hpost
  · rw [if_neg fun h => hnull (ht'.null.2 h)] at hpost
    rw [if_neg fun h => hnull h.2, if_neg hnull]
    exact hpost

/-! ## The loop -/

/-- `d` has been put behind the message `m`; its block has grown only as much as it must. -/
structure Poured (m : Buf) (d : Bytes) (m' : Buf) : Prop where
  data : m'.data = m.data
  contents : m'.contents = m.contents ++ d
  size : m'.buffer.length = max m.buffer.length (m.data + m.dataSize + d.length)

theorem Poured.refl (m : Buf) : Poured m [] m :=
  ⟨rfl, (List.append_nil _).symm, (Nat.max_eq_left m.end_le).symm⟩

theorem Poured.dataSize {d : Bytes} {m m' : Buf} (h : Poured m d m') :
    m'.dataSize = m.dataSize + d.length := by
  rw [← length_contents, h.contents, List.length_append, length_contents]

theorem Poured.trans {d d' : Bytes} {m m' m'' : Buf} (h : Poured m d m') (h' : Poured m' d' m'') :
    Poured m (d ++ d') m'' := by
  refine ⟨h'.data.trans h.data, ?_, ?_⟩
  · rw [h'.contents, h.contents, List.append_assoc]
  · rw [h'.size, h.size, h.data, h.dataSize, List.length_append]
    omega

theorem wp_pour {C : Ctx} {b : Bool} {d : Bytes} (hm : ∀ k, C.malloc k = true) {Q : Unit → Obex → Prop}
    (hq : ∀ m', Poured m d m' → Q () (filling s p o m' queue b)) :
    wp (txInsertEnd C d) Q R (filling s p o m queue b) := by
  obtain ⟨m', hins⟩ := bufInsertEnd_total hm m d
  rw [txInsertEnd, wp_bind, wp_get, wp_bind, wp_require, filling_txMsg, hins]
  refine ⟨fun m₁ hm₁ => ?_, fun hno => by cases hno⟩
  cases hm₁
  obtain ⟨hdata, hsize⟩ := bufInsertEnd_length hins
  exact hq m' ⟨hdata, (bufInsertEnd_some hins).1, hsize⟩

/-- The next `k` bytes of what is pending. -/
theorem wp_copyTap {Q : Bytes → Obex → Prop} (ht : Taps t o) {k : Nat} (hk : k ≤ t.pending.length)
    (hb : o.sBuf ≠ none) (hq : Q (t.pending.take k) s) : wp (copyFrom o.sBuf o.sOffset k) Q R s := by
  cases hbuf : o.sBuf with
  | none => exact absurd hbuf hb
  | some b =>
    obtain ⟨hle, hd⟩ := ht.data b hbuf
    have hlen := ht.len
    show wp (if o.sOffset + k ≤ b.length then pure (slice b o.sOffset k) else fault .outOfBounds) _ _ _
    rw [if_pos (by omega), wp_pure]
    have htake : slice b o.sOffset k = t.pending.take k := by
      rw [← hd, take_slice, Nat.min_eq_left (by omega)]
    rw [htake]
    exact hq

/-- The loop behind the question. -/
def pourData (C : Ctx) (object : Ptr) (fuel txLeft actual : Nat) : M (Option Nat) := do
  let o ← deref object
  if txLeft < o.sLen then do
    let bs ← copyFrom o.sBuf o.sOffset txLeft
    txInsertEnd C bs
    update object fun o => { o with sLen := o.sLen - txLeft, sOffset := o.sOffset + txLeft }
    pure (some (actual + txLeft))
  else do
    let bs ← copyFrom o.sBuf o.sOffset o.sLen
    txInsertEnd C bs
    update object fun o => { o with sLen := 0, sOffset := o.sOffset + o.sLen }
    let txLeft := if o.suspend then 0 else txLeft - o.sLen
    if 0 < txLeft then sendStreamLoop C object fuel txLeft (actual + o.sLen)
    else pure (some (actual + o.sLen))

theorem sendStreamLoop_succ (C : Ctx) (object : Ptr) (fuel txLeft actual : Nat) :
    sendStreamLoop C object (fuel + 1) txLeft actual = (do
      match ← askForData C object with
      | .failed => pure none
      | .stop => pure (some actual)
      | .data => pourData C object fuel txLeft actual) := rfl

/-- The result of the loop is what is drawn: an error, or `actual` and its length. -/
def Yields (drawn : Option (Option Bytes)) (s : Obex) (p : Ptr) (m : Buf) (queue : List HeaderElement)
    (actual : Nat) (r : Option Nat) (u : Obex) : Prop :=
  (drawn = some none ∧ r = none) ∨ ∃ d, drawn = some (some d) ∧ r = some (actual + d.length) ∧
    ∃ log o m' b, u = filling { s with log } p o m' queue b ∧ Poured m d m'

theorem Yields.mono {drawn : Option (Option Bytes)} {m' : Buf} {d : Bytes} {actual : Nat}
    {r : Option Nat} {u : Obex} (h : Yields drawn s p m' queue (actual + d.length) r u)
    (hp : Poured m d m') :
    Yields (drawn.map (·.map (d ++ ·))) s p m queue actual r u := by
  rcases h with ⟨hdrawn, hr⟩ | ⟨d', hdrawn, hr, log, o', m'', b, hu, hp'⟩
  · exact .inl ⟨by rw [hdrawn]; rfl, hr⟩
  · refine .inr ⟨d ++ d', by rw [hdrawn]; rfl, ?_, log, o', m'', b, hu, hp.trans hp'⟩
    rw [hr, List.length_append, Nat.add_assoc]

theorem wp_pourData {C : Ctx} {fuel T actual : Nat} (rest : Tap → Nat → Option (Option Bytes))
    (ht : Taps t o) (hb : o.sBuf ≠ none) (hm : ∀ k, C.malloc k = true)
    (hrest : ∀ T' a o' m', Taps { t with buf := some [] } o' → wp (sendStreamLoop C p fuel T' a)
      (Yields (rest { t with buf := some [] } T') s p m' queue a)
      (fun e _ => e = .timeout ∧ rest { t with buf := some [] } T' = none)
      (filling s p o' m' queue t.suspend)) :
    wp (pourData C p fuel T actual) (Yields (t.pour T rest) s p m queue actual)
      (fun e _ => e = .timeout ∧ t.pour T rest = none) (filling s p o m queue t.suspend) := by
  have hlen : (sending o queue t.suspend).sLen = t.pending.length := ht.len
  unfold Tap.pour
  rw [pourData, wp_bind, wp_deref, filling_objects]
  refine ⟨fun o₁ ho₁ => ?_, fun hno => by cases hno⟩
  cases ho₁
  rw [hlen]
  by_cases hfull : T < t.pending.length
  · rw [if_pos hfull, if_pos hfull, wp_bind]
    refine wp_copyTap ht (Nat.le_of_lt hfull) hb ?_
    rw [wp_bind]
    refine wp_pour hm fun m' hpoured => ?_
    rw [wp_bind]
    refine wp_filling_moved (withCursor o o.sBuf (o.sLen - T) (o.sOffset + T) o.sStop) rfl ?_
    refine .inr ⟨_, rfl, ?_, s.log, _, m', _, rfl, hpoured⟩
    rw [List.length_take_of_le (Nat.le_of_lt hfull)]
  · rw [if_neg hfull, if_neg hfull, wp_bind]
    refine wp_copyTap ht (Nat.le_refl _) hb ?_
    rw [wp_bind, List.take_length]
    refine wp_pour hm fun m' hpoured => ?_
    have hempty : Taps { t with buf := some [] }
      (withCursor o o.sBuf 0 (o.sOffset + o.sLen) o.sStop) := by
      refine ⟨ht.stop, rfl, ⟨fun hno => absurd hno hb, fun hno => by cases hno⟩, fun b hbuf => ?_⟩
      exact ⟨(ht.data b hbuf).1, slice_zero _ _⟩
    rw [wp_bind]
    refine wp_filling_moved (withCursor o o.sBuf 0 (o.sOffset + o.sLen) o.sStop) rfl ?_
    show wp (if 0 < (if t.suspend = true then 0 else T - t.pending.length) then
        sendStreamLoop C p fuel (if t.suspend = true then 0 else T - t.pending.length)
          (actual + t.pending.length)
      else pure (some (actual + t.pending.length))) _ _ _
    by_cases hlast : t.suspend = true ∨ T = t.pending.length
    · have hzero : (if t.suspend = true then 0 else T - t.pending.length) = 0 := by
        split
        · rfl
        · have := hlast.resolve_left ‹_›
          omega
      rw [if_pos hlast, hzero, if_neg (Nat.lt_irrefl 0)]
      exact .inr ⟨_, rfl, rfl, s.log, _, m', _, rfl, hpoured⟩
    · have hsus : ¬ t.suspend = true := fun h => hlast (.inl h)
      have hne : T ≠ t.pending.length := fun h => hlast (.inr h)
      rw [if_neg hlast, if_neg hsus, if_pos (by omega)]
      refine wp_mono (hrest _ _ _ m' hempty) (fun r u hy => hy.mono hpoured) fun e _ he => ⟨he.1, ?_⟩
      rw [he.2]
      rfl

/-- The loop sends what the application has ready. -/
theorem wp_tapLoop (hr : Replies E answers) (hf : ∀ k, ∀ c ∈ answers k, Feeds p c)
    (hm : ∀ k, E.malloc k = true) {fuel T actual : Nat} (hs : s.object = some p) (ht : Taps t o) :
    wp (sendStreamLoop (E.ctx .all (n + 1)) p fuel T actual)
      (Yields (t.draw answers fuel (asks s.log) T) s p m queue actual)
      (fun e _ => e = .timeout ∧ t.draw answers fuel (asks s.log) T = none)
      (filling s p o m queue t.suspend) := by
  induction fuel generalizing s o m t T actual with
  | zero => exact ⟨rfl, rfl⟩
  | succ fuel ih =>
    rw [sendStreamLoop_succ, wp_bind]
    unfold Tap.draw
    by_cases hp : t.pending = []
    · rw [if_pos hp]
      dsimp only
      refine wp_askTap hr (hf _) hs ht hp fun x o' hx hmoved ht' => ?_
      have hk : asks (s.emit (.event x)).log = asks s.log + 1 := asks_emit hx
      generalize t.ask (answers (asks s.log)) = t' at ht' ⊢
      by_cases hstop : t'.stop = true
      · rw [if_pos hstop, if_pos hstop]
        exact .inr ⟨[], rfl, rfl, _, o', m, _, rfl, .refl m⟩
      rw [if_neg hstop, if_neg hstop]
      by_cases hnull : t'.buf = none
      · rw [if_pos hnull, if_pos hnull]
        by_cases hsus : t'.suspend = true
        · rw [if_pos hsus, if_pos hsus]
          exact .inr ⟨[], rfl, rfl, _, o', m, _, rfl, .refl m⟩
        · rw [if_neg hsus, if_neg hsus]
          exact .inl ⟨rfl, rfl⟩
      rw [if_neg hnull, if_neg hnull]
      refine wp_pourData (s := s.emit (.event x)) _ ht' (fun hno => hnull (ht'.null.1 hno)) hm
        fun T' a o₁ m' h₁ => ?_
      have hloop := @ih (s.emit (.event x)) o₁ m' _ T' a hs h₁
      rw [hk] at hloop
      exact hloop
    · rw [if_neg hp]
      have hbuf : o.sBuf ≠ none := by
        intro hno
        refine hp ?_
        unfold Tap.pending
        rw [ht.null.1 hno]
        rfl
      have hlen : ¬ (sending o queue t.suspend).sLen = 0 := by
        show ¬ o.sLen = 0
        rw [ht.len]
        exact fun h0 => hp (List.length_eq_zero_iff.1 h0)
      rw [askForData, wp_bind, wp_deref, filling_objects]
      refine ⟨fun o₁ ho₁ => ?_, fun hno => by cases hno⟩
      cases ho₁
      rw [if_neg hlen, wp_pure]
      exact wp_pourData _ ht hbuf hm fun T' a o₁ m' h₁ => ih hs h₁

/-- No more is drawn than there is space. -/
theorem draw_length {fuel k T : Nat} {d : Bytes} (h : t.draw answers fuel k T = some (some d)) :
    d.length ≤ T := by
  induction fuel generalizing t k T d with
  | zero => cases h
  | succ fuel ih =>
    have hpour (t : Tap) (k : Nat) (h : t.pour T (Tap.draw answers fuel k) = some (some d)) :
      d.length ≤ T := by
      unfold Tap.pour at h
      split at h
      · cases h
        exact List.length_take_le _ _
      split at h
      · cases h
        omega
      · obtain ⟨d', hd', hmap⟩ := Option.map_eq_some_iff.1 h
        obtain ⟨d'', rfl, rfl⟩ := Option.map_eq_some_iff.1 hmap
        have hle := ih hd'
        rw [List.length_append]
        omega
    unfold Tap.draw at h
    split at h
    · dsimp only at h
      split at h
      · cases h
        exact Nat.zero_le _
      split at h
      · split at h
        · cases h
          exact Nat.zero_le _
        · cases h
      · exact hpour _ _ h
    · exact hpour _ _ h

/-! ## One header -/

/-- A fragment of `n` data bytes does not move the block of the packet. -/
def Unmoved (m : Buf) (n : Nat) : Prop := n = 0 ∨ m.dataSize + 3 + n ≤ m.buffer.length

/-- A call of `send_stream` puts a header and what is drawn into the packet; where the block moves, the
header is written to where it was. -/
theorem wp_sendTap {h : HeaderElement} {S : Nat} (hr : Replies E answers)
    (hf : ∀ k, ∀ c ∈ answers k, Feeds p c) (hm : ∀ k, E.malloc k = true) (hs : s.object = some p)
    (ht : Taps t o) (hmem : addr h ∈ queue.map addr) (hreused : m.data = 0) :
    wp (sendStream (E.ctx .all n) h S)
      (fun r u => (t.draw answers n (asks s.log) (u32 ((S : Int) - 3)) = some none ∧ r = none) ∨
        ∃ d, t.draw answers n (asks s.log) (u32 ((S : Int) - 3)) = some (some d) ∧ Unmoved m d.length ∧
          r = some (3 + d.length) ∧ ∃ hi, (hi = obexHdrBody ∨ hi = obexHdrBodyEnd) ∧
            u.txMsg.contents = m.contents ++ (hi :: be16 (u16 ((3 + d.length : Nat) : Int)) ++ d))
      (fun e _ => (e = .timeout ∧ t.draw answers n (asks s.log) (u32 ((S : Int) - 3)) = none) ∨
        ∃ d, t.draw answers n (asks s.log) (u32 ((S : Int) - 3)) = some (some d) ∧
          ¬ Unmoved m d.length ∧
          e = .fault .dangling) (filling s p o m queue t.suspend) := by
  obtain ⟨⟨msg, dest⟩, hres⟩ : ∃ r, bufReserveEnd E.malloc m 3 = some r :=
    bufReserveEnd_iff.2 (.inr (hm _))
  obtain ⟨hdata, hdest, hds, -⟩ := bufReserveEnd_some hres
  have hlen := bufReserveEnd_length hres
  have hend := msg.end_le
  have hcurrent : (filling s p o m queue t.suspend).object = some p := hs
  rw [sendStream, wp_bind, wp_selfObject, hcurrent]
  refine ⟨fun q hq' => ?_, fun hno => by cases hno⟩
  cases hq'
  rw [wp_bind, wp_get, wp_bind, wp_require, ctx_malloc, filling_txMsg, hres]
  refine ⟨fun r hr' => ?_, fun hno => by cases hno⟩
  cases hr'
  dsimp only
  rw [wp_bind, wp_set, filling_setTxMsg, wp_bind]
  cases n with
  | zero => exact .inl ⟨rfl, rfl⟩
  | succ n =>
    refine wp_mono (wp_tapLoop (T := u32 ((S : Int) - 3)) hr hf hm hs ht) (fun r u hy => ?_)
      fun e _ he => .inl he
    rcases hy with ⟨hdrawn, rfl⟩ | ⟨d, hdrawn, rfl, log, o', m', b, rfl, hpoured⟩
    · exact .inl ⟨hdrawn, rfl⟩
    dsimp only
    rw [wp_bind, wp_deref, filling_objects]
    refine ⟨fun o₁ ho₁ => ?_, fun hno => by cases hno⟩
    cases ho₁
    have hsize := hpoured.size
    have hunmoved : Unmoved m d.length ↔ m'.buffer.length = msg.buffer.length := by
      unfold Unmoved
      omega
    rw [if_neg fun hno => hno.2 hmem, wp_bind]
    have hqueue : wp (when ((sending o' queue b).sStop = true ∧ (sending o' queue b).sLen = 0)
        (update p fun o => { o with txHeaderq := slistRemove o.txHeaderq h }))
        (fun _ u => ∃ q, u = filling { s with log } p o' m' q b) (fun _ _ => False)
        (filling { s with log } p o' m' queue b) := by
      rw [wp_when]
      refine ⟨fun _ => ?_, fun _ => ⟨queue, rfl⟩⟩
      exact wp_filling_update rfl ⟨_, rfl⟩
    refine wp_mono hqueue (fun _ u hu => ?_) fun _ _ hf => hf.elim
    obtain ⟨q, rfl⟩ := hu
    rw [wp_bind, wp_get, filling_txMsg]
    -- the application's data has moved the buffer exactly when the header's place is not where it
    -- was reserved
    refine wp_ite.2 ⟨fun hmoved => .inr ⟨d, hdrawn, fun h => hmoved (hunmoved.1 h), rfl⟩,
      fun hsame => ?_⟩
    have hsame' : m'.buffer.length = msg.buffer.length := not_not.1 hsame
    generalize hhi : (if (sending o' queue b).sStop = true ∧ (sending o' queue b).sLen = 0
      then obexHdrBodyEnd else obexHdrBody) = hi
    have hbody : hi = obexHdrBody ∨ hi = obexHdrBodyEnd := by
      rw [← hhi]
      split
      · exact .inr rfl
      · exact .inl rfl
    obtain ⟨m'', hm''⟩ : ∃ m'', bufPoke m' dest (hi :: be16 (u16 ((3 + d.length : Nat) : Int))) =
      some m'' := by
      refine bufPoke_of_le ?_
      rw [List.length_cons, length_be16]
      omega
    rw [hm'', wp_bind, wp_require]
    refine ⟨fun c hc => ?_, fun hno => by cases hno⟩
    cases hc
    rw [wp_bind, wp_set, wp_pure]
    refine .inr ⟨d, hdrawn, hunmoved.2 hsame', rfl, hi, hbody, ?_⟩
    exact contents_poke_reserved hres hpoured.data hpoured.contents hm''

end

/-! ## The count -/

theorem length_fragment (final : Bool) (d : Bytes) : (fragment final d).encode.length =
    d.length + 3 := by
  rw [fragment_encode, List.length_append, List.length_cons, length_be16, Nat.add_comm]

/-- The library counts the space right for the header `h`: what it takes off is the length of what it
has put into the packet, which is a header of the length it says. -/
def Charged (C : Ctx) (p : Ptr) (h : HeaderElement) (txLeft : Nat) (s : Obex) : Prop :=
  wp (sendHeader C p h txLeft)
    (fun r t => ∀ left more, r = some (left, more) → ∃ x : Head, x.isBody = true ∧ x.Valid ∧
      t.txMsg.contents = s.txMsg.contents ++ x.encode ∧ (txLeft : Int) - left = x.encode.length ∧
      x.encode.length ≤ txLeft)
    (fun e _ => e = .timeout) s

section

variable {C : Ctx} {E : Env} {n : Nat} {s : Obex} {p : Ptr} {o : ObexObject} {h : HeaderElement}
    {txLeft : Nat}

theorem filling_self (ho : s.objects p = some o) : filling s p o s.txMsg o.txHeaderq o.suspend = s :=
  setObject_self (s := s) ho

/-- What is done with a body, and that this never takes long. -/
theorem wp_sendHeader_body (txLeft : Nat) (ho : s.objects p = some o) (hplain : h.stream = false)
    (hbody : h.hi = obexHdrBody) (hm : ∀ k, C.malloc k = true) :
    wp (sendHeader C p h txLeft)
      (fun r t => ∃ x, fillHeader s.mtuTx h o.txHeaderq txLeft = some x ∧
        r = some (x.txLeft, x.addmore) ∧
        t.txMsg.contents = s.txMsg.contents ++ x.bytes)
      (fun e _ => fillHeader s.mtuTx h o.txHeaderq txLeft = none ∧ e ≠ .timeout) s := by
  have hwp : wp (sendHeader C p h txLeft)
      (fun r t => ∃ x, fillHeader s.mtuTx h o.txHeaderq txLeft = some x ∧
        r = some (x.txLeft, x.addmore) ∧
        t.txMsg.contents = s.txMsg.contents ++ x.bytes)
      (fun e _ => fillHeader s.mtuTx h o.txHeaderq txLeft = none ∧ e ≠ .timeout)
      (filling s p o s.txMsg o.txHeaderq o.suspend) := wp_fillHeader hplain
    (fun x m' hx hm' => ⟨x, hx, rfl, hm'⟩) (fun hlong => absurd hbody hlong.1)
    fun e _ _ he _ hne => ⟨not_not.1 fun hsome => he (.inl hsome) hm, hne⟩
  rwa [filling_self ho] at hwp

theorem charged_body {b : Buf} (ho : s.objects p = some o) (hplain : h.stream = false)
    (hbody : h.hi = obexHdrBody) (hb : h.bodyBuf = some b)
    (hsize : b.buffer.length < 9223372036854775808) (hleft : txLeft < 65536)
    (hm : ∀ k, C.malloc k = true) : Charged C p h txLeft s ↔ 3 ≤ txLeft ∧ txLeft < b.dataSize + 3 := by
  have hrun := wp_sendHeader_body txLeft ho hplain hbody hm
  have hfill : fillHeader s.mtuTx h o.txHeaderq txLeft = fillBody h b o.txHeaderq txLeft := by
    rw [fillHeader, if_pos hbody, hb, Option.bind_some]
  rw [hfill] at hrun
  have hend := b.end_le
  constructor
  · intro hcharged
    -- with less than 3 bytes left nothing can be put in; a body that is sent whole is counted
    -- without the 3 bytes in front of it
    by_contra hno
    refine not_wp_false (wp_mono (wp_and hcharged hrun) (fun r t hr => ?_) fun e t he => ?_)
    · obtain ⟨hcount, x, hx, rfl, hcont⟩ := hr
      obtain ⟨y, hy, hvalid, hcont', hleft', -⟩ := hcount _ _ rfl
      have heq : y.encode = x.bytes := List.append_cancel_left (hcont'.symm.trans hcont)
      unfold fillBody at hx
      split at hx
      · -- less than a header's length of space: the length of the data is negative
        obtain ⟨d, hd, -⟩ := Option.map_eq_some_iff.1 hx
        unfold bufPeek at hd
        rw [if_neg (by unfold sizeT; omega)] at hd
        cases hd
      · cases hx
        have hlen := congrArg List.length heq
        rw [List.length_append, List.length_cons, length_be16, length_contents] at hlen
        change (txLeft : Int) - u16 ((txLeft : Int) - b.dataSize) = _ at hleft'
        unfold u16 at hleft'
        omega
    · exact he.2.2 he.1
  · rintro ⟨hroom, hmore⟩
    obtain ⟨d, hd, hlen⟩ : ∃ d, bufPeek b 0 (txLeft - 3) = some d ∧ d.length + 3 = txLeft := by
      refine ⟨_, bufPeek_of_le (by omega), ?_⟩
      rw [length_slice (by rw [length_contents]; omega)]
      omega
    have hspace : sizeT ((txLeft : Int) - 3) = txLeft - 3 := by
      unfold sizeT
      omega
    have hu : u16 (txLeft : Int) = txLeft := by
      unfold u16
      omega
    have hput : fillBody h b o.txHeaderq txLeft = some {
        bytes := (fragment false d).encode
        queue := o.txHeaderq.map fun e => if addr e = addr h then
          { h with buf := some (bufRemoveBegin b (txLeft - 3)), bodyTouched := true } else e
        txLeft := 0, addmore := true } := by
      unfold fillBody
      rw [if_pos hmore, hspace, hd, hu, fragment_encode, Int.sub_self, hlen]
      rfl
    rw [hput] at hrun
    refine wp_mono hrun (fun r t hr left more hsome => ?_) fun e t he => by cases he.1
    obtain ⟨x, hx, rfl, hcont⟩ := hr
    cases hx
    cases hsome
    refine ⟨fragment false d, fragment_isBody false d, fragment_valid false (by omega), hcont, ?_, ?_⟩
    · rw [length_fragment]
      show (txLeft : Int) - (0 : Nat) = _
      omega
    · rw [length_fragment]
      omega

/-- What is done with a stream. -/
theorem wp_sendHeader_tap (n txLeft : Nat) {t : Tap} {answers : Nat → List Call}
    (ho : s.objects p = some o) (hstream : h.stream = true) (hr : Replies E answers)
    (hf : ∀ k, ∀ c ∈ answers k, Feeds p c) (hm : ∀ k, E.malloc k = true) (hs : s.object = some p)
    (ht : Taps t o) (hsus : t.suspend = (o.suspend || h.flags.suspend)) (hmem : h ∈ o.txHeaderq)
    (hreused : s.txMsg.data = 0) :
    wp (sendHeader (E.ctx .all n) p h txLeft)
      (fun r u => (t.draw answers n (asks s.log) (u32 ((txLeft : Int) - 3)) = some none ∧ r = none) ∨
        ∃ d, t.draw answers n (asks s.log) (u32 ((txLeft : Int) - 3)) = some (some d) ∧
          Unmoved s.txMsg d.length ∧
          r = some (u16 ((txLeft : Int) - (3 + d.length : Nat)), true) ∧
            ∃ hi, (hi = obexHdrBody ∨ hi = obexHdrBodyEnd) ∧
            u.txMsg.contents = s.txMsg.contents ++ (hi :: be16 (u16 ((3 + d.length : Nat) : Int)) ++ d))
      (fun e _ => (e = .timeout ∧ t.draw answers n (asks s.log) (u32 ((txLeft : Int) - 3)) = none) ∨
        ∃ d, t.draw answers n (asks s.log) (u32 ((txLeft : Int) - 3)) = some (some d) ∧
          ¬ Unmoved s.txMsg d.length ∧
          e = .fault .dangling) s := by
  rw [sendHeader, wp_bind, wp_get, hstream, if_pos rfl, wp_bind]
  have hstart := filling_self ho
  have hsuspend : wp (suspendAfter p h) (fun _ u => u = filling s p o s.txMsg o.txHeaderq t.suspend)
    (fun _ _ => False) s := by
    have hwp : wp (suspendAfter p h) (fun _ u => u = filling s p o s.txMsg o.txHeaderq t.suspend)
      (fun _ _ => False)
        (filling s p o s.txMsg o.txHeaderq o.suspend) := wp_filling_suspend (by rw [hsus])
    rwa [hstart] at hwp
  refine wp_mono hsuspend (fun _ u hu => ?_) fun _ _ hf => hf.elim
  rw [hu, wp_bind]
  refine wp_mono (wp_sendTap hr hf hm hs ht (List.mem_map_of_mem hmem) hreused) (fun r u hr => ?_)
    fun e _ he => he
  rcases hr with ⟨hdrawn, rfl⟩ | ⟨d, hdrawn, hunmoved, rfl, hi, hbody, hcont⟩
  · exact .inl ⟨hdrawn, rfl⟩
  · exact .inr ⟨d, hdrawn, hunmoved, rfl, hi, hbody, hcont⟩

theorem charged_stream {t : Tap} {answers : Nat → List Call} (ho : s.objects p = some o)
    (hstream : h.stream = true) (hr : Replies E answers) (hf : ∀ k, ∀ c ∈ answers k, Feeds p c)
    (hm : ∀ k, E.malloc k = true) (hs : s.object = some p) (ht : Taps t o)
    (hsus : t.suspend = (o.suspend || h.flags.suspend)) (hmem : h ∈ o.txHeaderq)
    (hreused : s.txMsg.data = 0) (hleft : txLeft < 65536) :
    Charged (E.ctx .all n) p h txLeft s ↔
      ∀ d, t.draw answers n (asks s.log) (u32 ((txLeft : Int) - 3)) = some (some d) →
        3 ≤ txLeft ∧ Unmoved s.txMsg d.length := by
  have hrun := wp_sendHeader_tap n txLeft ho hstream hr hf hm hs ht hsus hmem hreused
  constructor
  · intro hcharged d hdrawn
    by_contra hno
    refine not_wp_false (wp_mono (wp_and hcharged hrun) (fun r u hr => ?_) fun e u he => ?_)
    · obtain ⟨hcount, hr⟩ := hr
      rcases hr with ⟨hdrawn', -⟩ | ⟨d', hdrawn', hunmoved, rfl, hi, -, hcont⟩
      · cases hdrawn.symm.trans hdrawn'
      · cases hdrawn.symm.trans hdrawn'
        obtain ⟨y, -, -, hcont', -, hfits⟩ := hcount _ _ rfl
        have heq := List.append_cancel_left (hcont'.symm.trans hcont)
        have hlen := congrArg List.length heq
        rw [List.length_append, List.length_cons, length_be16] at hlen
        exact hno ⟨by omega, hunmoved⟩
    · obtain ⟨rfl, he⟩ := he
      rcases he with ⟨-, hnone⟩ | ⟨d', -, -, hfault⟩
      · cases hdrawn.symm.trans hnone
      · cases hfault
  · intro hcond
    refine wp_mono hrun (fun r u hr left more hsome => ?_) fun e u he => ?_
    · rcases hr with ⟨-, rfl⟩ | ⟨d, hdrawn, -, rfl, hi, hbody, hcont⟩
      · cases hsome
      · obtain ⟨hroom, -⟩ := hcond d hdrawn
        have hfits := draw_length hdrawn
        have hspace : u32 ((txLeft : Int) - 3) = txLeft - 3 := by
          unfold u32
          omega
        rw [hspace] at hfits
        have hu : u16 ((3 + d.length : Nat) : Int) = d.length + 3 := by
          unfold u16
          omega
        obtain ⟨final, hover⟩ : ∃ final, hi = (fragment final d).hi := by
          rcases hbody with rfl | rfl
          · exact ⟨false, rfl⟩
          · exact ⟨true, rfl⟩
        rw [hu, hover, ← fragment_encode] at hcont
        injection hsome with hpair
        injection hpair with hleft' hmore
        refine ⟨fragment final d, fragment_isBody final d, fragment_valid final (by omega),
          hcont, ?_, ?_⟩
        · rw [length_fragment, ← hleft']
          unfold u16
          omega
        · rw [length_fragment]
          omega
    · rcases he with ⟨htime, -⟩ | ⟨d, hdrawn, hmoved, -⟩
      · exact htime
      · exact absurd (hcond d hdrawn).2 hmoved

end

/-- The space is counted right for a body iff the packet does not end it and has space for the header of
a fragment, and for a stream iff there is space for that header wherever there is data or an end, and
the data does not move the packet. -/
theorem space_accounting (E : Env) (answers : Nat → List Call) (n : Nat) (p : Ptr) (s : Obex)
    (o : ObexObject) (h : HeaderElement) (txLeft : Nat) (hr : Replies E answers)
    (hf : ∀ k, ∀ c ∈ answers k, Feeds p c) (hm : ∀ k, E.malloc k = true) (ho : s.objects p = some o)
    (hmem : h ∈ o.txHeaderq) (hreused : s.txMsg.data = 0) (hleft : txLeft < 65536) :
    (∀ b, h.stream = false → h.hi = obexHdrBody → h.bodyBuf = some b → b.buffer.length <
      9223372036854775808 →
      (Charged (E.ctx .all n) p h txLeft s ↔ 3 ≤ txLeft ∧ txLeft < b.dataSize + 3)) ∧
    (∀ t, h.stream = true → s.object = some p → Taps t o → t.suspend = (o.suspend || h.flags.suspend) →
      (Charged (E.ctx .all n) p h txLeft s ↔
        ∀ d, t.draw answers n (asks s.log) (u32 ((txLeft : Int) - 3)) = some (some d) →
          3 ≤ txLeft ∧ Unmoved s.txMsg d.length)) :=
  ⟨fun _ hplain hbody hb hsize =>
      charged_body ho hplain hbody hb hsize hleft fun k => by rw [ctx_malloc, hm],
    fun _ hstream hs ht hsus => charged_stream ho hstream hr hf hm hs ht hsus hmem hreused hleft⟩

/-- A body of 5 bytes, with a fragment sent before. -/
def bodyOfFive : HeaderElement where
  addr := 1
  buf := bufInsertEnd (fun _ => true) (freshBuf 5) [1, 2, 3, 4, 5]
  hi := obexHdrBody
  flags := {}
  length := 8
  bodyTouched := true
  stream := false

def streamHeader : HeaderElement where
  addr := 1
  buf := none
  hi := obexHdrBody
  flags := {}
  length := 0
  bodyTouched := false
  stream := true

/-- The request object at 0 is being sent, with one header. -/
def sendingOne (h : HeaderElement) : Obex :=
  { obexInit .inet with object := some 0 }.setObject 0 (some { zeroObject with txHeaderq := [h] })

def twoAnswers : Nat → List Call
  | 0 => [.objectAddHeader 0 obexHdrBody { bs := some [1, 2] } 2 { streamData := true }]
  | _ => [.objectAddHeader 0 obexHdrBody { bs := some [3] } 1 { streamDataend := true }]

def twoAnswersPeer : Env := { quietPeer with app := fun log => twoAnswers (asks log.dropLast) }

theorem twoAnswersPeer_replies : Replies twoAnswersPeer twoAnswers := by
  intro log n _
  show twoAnswers (asks (log ++ [Obs.event n]).dropLast) = _
  rw [List.dropLast_concat]

theorem twoAnswers_feeds : ∀ k, ∀ c ∈ twoAnswers k, Feeds 0 c
  | 0, c, hc => by
    rw [List.mem_singleton.1 hc]
    exact .data _ _ _ _ _ (.inl rfl) (Nat.le_refl _)
  | _ + 1, c, hc => by
    rw [List.mem_singleton.1 hc]
    exact .data _ _ _ _ _ (.inr rfl) (Nat.le_refl _)

theorem space_accounting_two :
    Charged (twoAnswersPeer.ctx .all 8) 0 bodyOfFive 6 (sendingOne bodyOfFive) ∧
    Charged (twoAnswersPeer.ctx .all 8) 0 streamHeader 252 (sendingOne streamHeader) := by
  obtain ⟨s, hs, o, ho, hmem, hdata⟩ : ∃ s, s = sendingOne bodyOfFive ∧ ∃ o, s.objects 0 = some o ∧
      bodyOfFive ∈ o.txHeaderq ∧ s.txMsg.data = 0 := ⟨_, rfl, _, rfl, List.mem_singleton_self _, rfl⟩
  obtain ⟨s', hs', o', ho', hmem', hdata', hcurrent, hlog, hsize, hlen, htaps, hsus⟩ :
    ∃ s', s' = sendingOne streamHeader ∧
      ∃ o', s'.objects 0 = some o' ∧ streamHeader ∈ o'.txHeaderq ∧ s'.txMsg.data = 0 ∧
        s'.object = some 0 ∧
        asks s'.log = 0 ∧ s'.txMsg.dataSize = 0 ∧ s'.txMsg.buffer.length = 1024 ∧
          Taps ⟨none, false, false⟩ o' ∧
        o'.suspend = false :=
    ⟨_, rfl, _, rfl, List.mem_singleton_self _, rfl, rfl, rfl, rfl, List.length_replicate,
      ⟨rfl, rfl, Iff.rfl, fun _ hb => by cases hb⟩, rfl⟩
  obtain ⟨b, hb, hbsize, hblen⟩ : ∃ b, bodyOfFive.bodyBuf = some b ∧ b.dataSize = 5 ∧
    b.buffer.length = 5 :=
    ⟨_, rfl, rfl, rfl⟩
  rw [← hs, ← hs']
  constructor
  · refine ((space_accounting twoAnswersPeer twoAnswers 8 0 s o bodyOfFive 6 twoAnswersPeer_replies
      twoAnswers_feeds
      (fun _ => rfl) ho hmem hdata (by decide)).1 b rfl rfl hb (by omega)).2 ?_
    omega
  · refine ((space_accounting twoAnswersPeer twoAnswers 8 0 s' o' streamHeader 252
      twoAnswersPeer_replies twoAnswers_feeds
      (fun _ => rfl) ho' hmem' hdata' (by decide)).2 ⟨none, false, false⟩ rfl hcurrent htaps
        (by rw [hsus]; rfl)).2 ?_
    intro d hdrawn
    rw [hlog] at hdrawn
    have hd : d = [1, 2] := by
      have h12 : Tap.draw twoAnswers 8 0 ⟨none, false, false⟩ (u32 (((252 : Nat) : Int) - 3)) =
          some (some [1, 2]) := by
        decide
      rw [h12] at hdrawn
      cases hdrawn
      rfl
    rw [hd]
    exact ⟨by decide, .inr (by rw [hsize, hlen]; decide)⟩

/-- Of the 8 bytes of the last fragment of a body only the 5 of its data are counted. -/
theorem last_fragment_miscounted :
    ¬ ∀ (C : Ctx) (p : Ptr) (s : Obex) (o : ObexObject) (h : HeaderElement) (b : Buf)
      (txLeft : Nat), (∀ k, C.malloc k = true) → s.objects p = some o → h ∈ o.txHeaderq →
    s.txMsg.data = 0 → txLeft < 65536 → h.stream = false → h.hi = obexHdrBody → h.bodyBuf = some b →
    b.buffer.length < 9223372036854775808 → Charged C p h txLeft s := by
  intro hall
  obtain ⟨s, o, ho, hmem, hdata⟩ : ∃ s : Obex, ∃ o, s.objects 0 = some o ∧ bodyOfFive ∈ o.txHeaderq ∧
    s.txMsg.data = 0 :=
    ⟨sendingOne bodyOfFive, _, rfl, List.mem_singleton_self _, rfl⟩
  obtain ⟨b, hb, hbsize, hblen⟩ : ∃ b, bodyOfFive.bodyBuf = some b ∧ b.dataSize = 5 ∧
    b.buffer.length = 5 :=
    ⟨_, rfl, rfl, rfl⟩
  have hm : ∀ k, (quietPeer.ctx .all 8).malloc k = true := fun _ => rfl
  have hcharged := hall (quietPeer.ctx .all 8) 0 s o bodyOfFive b 252 hm ho hmem hdata (by decide) rfl
    rfl hb (by omega)
  have := ((charged_body ho rfl rfl hb (by omega) (by decide) hm).1 hcharged).2
  omega

end OpenObex
