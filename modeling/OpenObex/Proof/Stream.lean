import OpenObex.Lib.Source
import OpenObex.Proof.Packing
import OpenObex.Proof.Reception

/-!
# Sending a stream

The body of a stream header comes from the application, asked with `OBEX_EV_STREAMEMPTY`: a
`Chunked.Source` stands for what it still hands out (`Supplies`) and what it has left in the cursor of
the object (`Cursor`). The loop of `send_stream` draws from it (`wp_streamLoop`), and one call puts what
it has drawn into the packet as one BODY or BODY_END header (`wp_sendStream`), if that is not too long
for the length field and the block of the packet is not moved meanwhile.
-/

namespace OpenObex

open Mem Prog Chunked

/-- An `OBEX_EV_STREAMEMPTY`. -/
def Obs.isAsk : Obs → Bool
  | .event n => decide (n.event = .streamempty)
  | _ => false

/-- How often the application has been asked for data. -/
def asks (log : List Obs) : Nat := log.countP Obs.isAsk

theorem asks_emit {s : Obex} {n : Notice} (hn : n.event = .streamempty) :
    asks (s.emit (.event n)).log = asks s.log + 1 := by
  show (s.log ++ [Obs.event n]).countP Obs.isAsk = _
  rw [List.countP_append, List.countP_singleton, if_pos (show Obs.isAsk (.event n) = true from
    decide_eq_true hn)]
  rfl

/-- The call hands out the chunk `x.2`, with `OBEX_FL_STREAM_DATAEND` if `x.1`. -/
def Hands (c : Call) (x : Bool × Bytes) : Prop :=
  ∃ object hi hv size flags, c = .objectAddHeader object hi hv size flags ∧ flags.streamDataend = x.1 ∧
    (x.1 = false → flags.streamData = true) ∧ (hv.bs.getD []).take size.toNat = x.2 ∧
    size.toNat = x.2.length

/-- Asked `k` times before, the application goes on with what `σ` hands out. -/
def Supplies (E : Env) (k : Nat) (σ : Source UInt8) : Prop :=
  ∀ log n i, n.event = .streamempty → asks log = k + i → match σ.answers[i]? with
    | some x => ∃ c, E.app (log ++ [.event n]) = [c] ∧ Hands c x
    | none => E.app (log ++ [.event n]) = []

theorem Supplies.ask {E : Env} {k : Nat} {σ : Source UInt8} (h : Supplies E k σ) :
    Supplies E (k + 1) σ.ask := by
  intro log n i hn hi
  have hnext := h log n (i + 1) hn (by omega)
  rwa [σ.answers_ask, List.getElem?_tail]

/-- What `send_stream` and the callback write. -/
def withCursor (o : ObexObject) (buf : Option Bytes) (len offset : Nat) (stop : Bool) : ObexObject :=
  { o with sBuf := buf, sLen := len, sOffset := offset, sStop := stop }

def Moved (o o' : ObexObject) : Prop := ∃ buf len offset stop, o' = withCursor o buf len offset stop

theorem Moved.refl (o : ObexObject) : Moved o o := ⟨o.sBuf, o.sLen, o.sOffset, o.sStop, rfl⟩

theorem Moved.trans {o o' o'' : ObexObject} (h : Moved o o') (h' : Moved o' o'') : Moved o o'' := by
  obtain ⟨_, _, _, _, rfl⟩ := h
  obtain ⟨buf, len, offset, stop, rfl⟩ := h'
  exact ⟨buf, len, offset, stop, rfl⟩

/-- The cursor of the object is at what is pending. -/
structure Cursor (σ : Source UInt8) (o : ObexObject) : Prop where
  stop : o.sStop = σ.last.isNone
  len : o.sLen = σ.pending.length
  data : σ.pending ≠ [] → ∃ b, o.sBuf = some b ∧ o.sOffset + o.sLen ≤ b.length ∧
    slice b o.sOffset o.sLen = σ.pending

theorem Cursor.skip {σ : Source UInt8} {o : ObexObject} (h : Cursor σ o) {n : Nat} (hn : n ≤ o.sLen) :
    Cursor (σ.skip n) (withCursor o o.sBuf (o.sLen - n) (o.sOffset + n) o.sStop) := by
  refine ⟨h.stop, ?_, fun hne => ?_⟩
  · show o.sLen - n = (σ.pending.drop n).length
    rw [List.length_drop, h.len]
  · have hp : σ.pending ≠ [] := fun hnil => hne (by rw [Source.skip, hnil]; exact List.drop_nil)
    obtain ⟨b, hb, hle, hd⟩ := h.data hp
    refine ⟨b, hb, ?_, ?_⟩
    · show o.sOffset + n + (o.sLen - n) ≤ b.length
      omega
    · show slice b (o.sOffset + n) (o.sLen - n) = σ.pending.drop n
      rw [← hd, drop_slice]

theorem Cursor.skip_all {σ : Source UInt8} {o : ObexObject} (h : Cursor σ o) :
    Cursor (σ.skip σ.pending.length) (withCursor o o.sBuf 0 (o.sOffset + o.sLen) o.sStop) := by
  have hskip := h.skip (Nat.le_refl o.sLen)
  rw [Nat.sub_self] at hskip
  rw [← h.len]
  exact hskip

section
variable {E : Env} {n : Nat} {s : Obex} {p : Ptr} {o : ObexObject} {m : Buf}
  {queue : List HeaderElement} {suspend : Bool} {σ : Source UInt8} {R : Stop → Obex → Prop}

/-- The callback of an `OBEX_EV_STREAMEMPTY` makes its calls. -/
theorem wp_streamempty {Q : Unit → Obex → Prop} (h : ∀ x : Notice, x.event = .streamempty →
    wp (iterate (nestedCall (E.ctx .all n) .all) (E.app (s.log ++ [.event x]))) Q R
      (s.emit (.event x))) :
    wp (obexDeliverEvent (E.ctx .all (n + 1)) .streamempty 0 0 false) Q R s := by
  rw [obexDeliverEvent, wp_bind, wp_get, wp_bind, if_neg Bool.false_ne_true, wp_set, wp_bind, wp_emit,
    wp_bind]
  rw [Env.ctx, wp_bind, wp_get, wp_bind]
  refine wp_conseq (h _ rfl) fun _ t ht => ?_
  rw [wp_bind, wp_get, wp_allowed, wp_when]
  exact ⟨fun _ => ⟨fun hf => absurd hf Bool.false_ne_true, fun _ => ht⟩, fun hf => by cases hf⟩

/-- A call that hands out data. -/
theorem wp_hands {c : Call} {x : Bool × Bytes} (hc : Hands c x) (hs : s.object = some p)
    {Q : Unit → Obex → Prop}
    (hq : ∀ buf, (x.2 ≠ [] → ∃ b, buf = some b ∧ x.2.length ≤ b.length ∧ slice b 0 x.2.length = x.2) →
      Q () (filling s p (withCursor o buf x.2.length o.sOffset (o.sStop || x.1)) m queue suspend)) :
    wp (iterate (nestedCall (E.ctx .all n) .all) [c]) Q R (filling s p o m queue suspend) := by
  obtain ⟨object, hi, hv, size, flags, rfl, hend, hdata, htake, hsize⟩ := hc
  have hbuf : x.2 ≠ [] → ∃ b, hv.bs = some b ∧ x.2.length ≤ b.length ∧ slice b 0 x.2.length = x.2 := by
    intro hne
    cases hb : hv.bs with
    | none =>
      rw [hb, Option.getD_none, List.take_nil] at htake
      exact absurd htake.symm hne
    | some b =>
      rw [hb, Option.getD_some] at htake
      have hlen := congrArg List.length htake
      rw [List.length_take] at hlen
      refine ⟨b, rfl, by omega, ?_⟩
      rw [← hsize]
      exact htake
  have hset := hq hv.bs hbuf
  have hcurrent : (filling s p o m queue suspend).object = some p := hs
  have hfill (size : Nat) (b : Bool) : (filling s p o m queue suspend).setObject p
      (some (withCursor (sending o queue suspend) hv.bs size o.sOffset b)) =
      filling s p (withCursor o hv.bs size o.sOffset b) m queue suspend :=
    filling_setObject s p o m queue suspend (withCursor o hv.bs size o.sOffset b) queue suspend
  rw [← hfill, ← hsize] at hset
  rw [iterate, wp_bind, nestedCall, wp_bind, wp_get, wp_bind, wp_allowed]
  refine ⟨fun _ => ?_, fun hf => by cases hf⟩
  rw [wp_bind, api, obexObjectAddheader, wp_bind, wp_get]
  cases hx : x.1 with
  | true =>
    rw [hx] at hend hset
    rw [hend, if_pos rfl, hcurrent]
    dsimp only
    rw [wp_bind, wp_update, filling_objects]
    refine ⟨fun o' ho' => ?_, fun hno => by cases hno⟩
    cases ho'
    rw [Bool.or_true] at hset
    exact hset
  | false =>
    rw [hx] at hend hset
    rw [hend, if_neg Bool.false_ne_true, hdata hx, if_pos rfl, hcurrent]
    dsimp only
    rw [wp_bind, wp_update, filling_objects]
    refine ⟨fun o' ho' => ?_, fun hno => by cases hno⟩
    cases ho'
    rw [Bool.or_false] at hset
    exact hset

theorem ask_pending {C : Ctx} (hh : Cursor σ o) (hp : σ.pending ≠ []) :
    askForData C p (filling s p o m queue suspend) = .ok .data (filling s p o m queue suspend) := by
  have hlen : ¬ o.sLen = 0 := by
    rw [hh.len]
    exact fun h0 => hp (List.length_eq_zero_iff.1 h0)
  have hwp : wp (askForData C p) (fun r t => r = .data ∧ t = filling s p o m queue suspend)
    (fun _ _ => False)
      (filling s p o m queue suspend) := by
    rw [askForData, wp_bind, wp_deref, filling_objects]
    refine ⟨fun o' ho' => ?_, fun hno => by cases hno⟩
    cases ho'
    rw [if_neg (show ¬ (sending o queue suspend).sLen = 0 from hlen), wp_pure]
    exact ⟨rfl, rfl⟩
  unfold wp at hwp
  split at hwp
  · rw [‹askForData C p _ = _›, hwp.1, hwp.2]
  · exact hwp.elim

/-- The loop behind the answer. -/
def afterAnswer (object : Ptr) : M StreamRound := do
  let o ← deref object
  if o.sStop then pure .stop
  else if o.suspend ∧ o.sBuf = none then pure .stop
  else if o.sBuf = none then pure .failed
  else pure .data

theorem wp_afterAnswer (hσ : σ.Sound) (hh : Cursor σ.ask o) {Q : StreamRound → Obex → Prop}
    (hq : Q (if σ.chunks = [] then .stop else .data) (filling s p o m queue suspend)) :
    wp (afterAnswer p) Q R (filling s p o m queue suspend) := by
  rw [afterAnswer, wp_bind, wp_deref, filling_objects]
  refine ⟨fun o' ho' => ?_, fun hno => by cases hno⟩
  cases ho'
  show wp (if o.sStop = true then (pure .stop : M StreamRound)
    else if suspend = true ∧ o.sBuf = none then pure .stop
    else if o.sBuf = none then pure .failed else pure .data) _ _ _
  by_cases hc : σ.chunks = []
  · have hstop : o.sStop = true := by
      rw [hh.stop, Source.ask, hc]
      rfl
    rw [if_pos hc] at hq
    rw [if_pos hstop]
    exact hq
  · have hlast : σ.last ≠ none := fun hno => hc (hσ.exhausted hno)
    have hstop : ¬ o.sStop = true := by
      rw [hh.stop, Source.last_ask hc, Option.isNone_iff_eq_none]
      exact hlast
    obtain ⟨b, hb, -⟩ := hh.data (hσ.pending_ask hc)
    have hbuf : ¬ o.sBuf = none := fun hno => by rw [hno] at hb; cases hb
    rw [if_neg hc] at hq
    rw [if_neg hstop, if_neg fun h => hbuf h.2, if_neg hbuf]
    exact hq

/-- With nothing pending the application is asked. -/
theorem wp_ask_empty (hσ : σ.Sound) (hh : Cursor σ o) (hs : Supplies E (asks s.log) σ)
    (hc : s.object = some p) (hp : σ.pending = []) {Q : StreamRound → Obex → Prop}
    (hq : ∀ x o', x.event = .streamempty → Moved o o' → Cursor σ.ask o' →
      Q (if σ.chunks = [] then .stop else .data) (filling (s.emit (.event x)) p o' m queue suspend)) :
    wp (askForData (E.ctx .all (n + 1)) p) Q R (filling s p o m queue suspend) := by
  have hlen : o.sLen = 0 := by
    rw [hh.len, hp]
    rfl
  rw [askForData, wp_bind, wp_deref, filling_objects]
  refine ⟨fun o' ho' => ?_, fun hno => by cases hno⟩
  cases ho'
  rw [if_pos (show (sending o queue suspend).sLen = 0 from hlen), wp_bind, wp_update, filling_objects]
  refine ⟨fun o' ho' => ?_, fun hno => by cases hno⟩
  cases ho'
  rw [show ({ sending o queue suspend with sOffset := 0, sBuf := none } : ObexObject) =
    sending (withCursor o none o.sLen 0 o.sStop) queue suspend from rfl, filling_setObject, wp_bind]
  refine wp_streamempty fun x hx => ?_
  have hanswer := hs s.log x 0 hx rfl
  -- the answer is a chunk, or nothing behind the last one
  have hchunk (y : Bool × Bytes) (hy : ∃ c, E.app (s.log ++ [.event x]) = [c] ∧ Hands c y)
      (hask : σ.ask.pending = y.2) (hlast : σ.ask.last.isNone = (σ.last.isNone || y.1)) :
      wp (iterate (nestedCall (E.ctx .all n) .all) (E.app (s.log ++ [.event x])))
        (fun _ t => wp (afterAnswer p) Q R t) R
        (filling (s.emit (.event x)) p (withCursor o none o.sLen 0 o.sStop) m queue suspend) := by
    obtain ⟨c, happ, hc'⟩ := hy
    rw [happ]
    refine wp_hands (s := s.emit (.event x)) hc' hc fun buf hbuf => ?_
    have hcursor : Cursor σ.ask (withCursor o buf y.2.length 0 (o.sStop || y.1)) := by
      refine ⟨?_, ?_, fun hne => ?_⟩
      · show (o.sStop || y.1) = _
        rw [hlast, hh.stop]
      · show y.2.length = _
        rw [hask]
      · rw [hask] at hne ⊢
        obtain ⟨b, hb, hle, hd⟩ := hbuf hne
        refine ⟨b, hb, ?_, hd⟩
        show 0 + y.2.length ≤ b.length
        omega
    exact wp_afterAnswer hσ hcursor (hq x _ hx ⟨_, _, _, _, rfl⟩ hcursor)
  show wp (iterate (nestedCall (E.ctx .all n) .all) (E.app (s.log ++ [.event x])))
    (fun _ t => wp (afterAnswer p) Q R t) R
    (filling (s.emit (.event x)) p (withCursor o none o.sLen 0 o.sStop) m queue suspend)
  cases hc' : σ.chunks with
  | cons c cs =>
    have hfirst : σ.answers[0]? = some (false, c) := by rw [Source.answers, hc']; rfl
    rw [hfirst] at hanswer
    refine hchunk _ hanswer ?_ ?_
    · rw [Source.ask, hc']
    · rw [Source.last_ask (by rw [hc']; exact List.cons_ne_nil _ _), Bool.or_false]
  | nil =>
    have hask : σ.ask = σ.ended := by rw [Source.ask, hc']
    cases hl : σ.last with
    | some d =>
      have hfirst : σ.answers[0]? = some (true, d) := by rw [Source.answers, hc', hl]; rfl
      rw [hfirst] at hanswer
      refine hchunk _ hanswer ?_ ?_
      · rw [hask, Source.ended, hl]
        rfl
      · rw [hask, Bool.or_true]
        rfl
    | none =>
      have hfirst : σ.answers[0]? = none := by rw [Source.answers, hc', hl]; rfl
      rw [hfirst] at hanswer
      have happ : E.app (s.log ++ [.event x]) = [] := hanswer
      have hcursor : Cursor σ.ask (withCursor o none o.sLen 0 o.sStop) := by
        refine ⟨?_, ?_, fun hne => absurd ?_ hne⟩
        · show o.sStop = _
          rw [hh.stop, hl, hask]
          rfl
        · show o.sLen = _
          rw [hlen, hask, Source.ended, hl]
          rfl
        · rw [hask, Source.ended, hl]
          rfl
      rw [happ]
      exact wp_afterAnswer hσ hcursor (hq x _ hx ⟨_, _, _, _, rfl⟩ hcursor)

/-! ## The loop -/

/-- The log goes on. -/
def logged (s : Obex) (xs : List Obs) : Obex := { s with log := s.log ++ xs }

theorem logged_logged (s : Obex) (xs ys : List Obs) :
    logged (logged s xs) ys = logged s (xs ++ ys) := by
  unfold logged
  rw [List.append_assoc]

theorem logged_nil (s : Obex) : logged s [] = s := by
  unfold logged
  rw [List.append_nil]

/-- `d` has been appended to the message, `σ` is what is left of the source. -/
structure Drawn (E : Env) (d : Bytes) (σ : Source UInt8) (o : ObexObject) (m : Buf) (log xs : List Obs)
    (o' : ObexObject) (m' : Buf) : Prop where
  onlyAsks : ∀ x ∈ xs, x.isAsk = true
  moved : Moved o o'
  cursor : Cursor σ o'
  supplies : Supplies E (asks (log ++ xs)) σ
  data : m'.data = m.data
  size : m'.buffer.length = m.buffer.length
  contents : m'.contents = m.contents ++ d

theorem wp_insert_room {C : Ctx} {d : Bytes} (hm : m.data = 0)
    (hroom : m.dataSize + d.length ≤ m.buffer.length) {Q : Unit → Obex → Prop}
    (hq : ∀ m', m'.data = m.data → m'.buffer.length = m.buffer.length → m'.contents = m.contents ++ d →
      Q () (filling s p o m' queue suspend)) :
    wp (txInsertEnd C d) Q R (filling s p o m queue suspend) := by
  have hfree : d.length ≤ m.tailAvail + m.dataAvail := by
    have hsize := m.size_eq
    have hdata := m.data_eq
    omega
  obtain ⟨m', hins, hlen⟩ : ∃ q, bufInsertEnd C.malloc m d = some q ∧ _ := bufInsertEnd_avail hfree
  rw [txInsertEnd, wp_bind, wp_get, wp_bind, wp_require, filling_txMsg, hins]
  refine ⟨fun b hb => ?_, fun hno => by cases hno⟩
  cases hb
  exact hq m' (bufInsertEnd_length hins).1 hlen (bufInsertEnd_some hins).1

/-- The next `k` bytes of what is pending. -/
theorem wp_copyPending (hh : Cursor σ o) (hp : σ.pending ≠ []) {k : Nat} (hk : k ≤ σ.pending.length)
    {Q : Bytes → Obex → Prop} (hq : Q (σ.pending.take k) s) :
    wp (copyFrom o.sBuf o.sOffset k) Q R s := by
  obtain ⟨b, hb, hle, hd⟩ := hh.data hp
  have hlen := hh.len
  rw [hb]
  show wp (if o.sOffset + k ≤ b.length then pure (slice b o.sOffset k) else fault .outOfBounds) _ _ _
  rw [if_pos (by omega), wp_pure]
  have htake : slice b o.sOffset k = σ.pending.take k := by
    rw [← hd, take_slice, Nat.min_eq_left (by omega)]
  rw [htake]
  exact hq

/-- A round with pending data that the space does not hold. -/
theorem wp_round_full (hh : Cursor σ o) (hp : σ.pending ≠ []) {fuel T actual : Nat}
    (hT : T < σ.pending.length) (hm : m.data = 0) (hroom : m.dataSize + T ≤ m.buffer.length)
    {Q : Option Nat → Obex → Prop}
    (hq : ∀ m', m'.data = m.data → m'.buffer.length = m.buffer.length →
      m'.contents = m.contents ++ σ.pending.take T → Q (some (actual + T))
        (filling s p (withCursor o o.sBuf (o.sLen - T) (o.sOffset + T) o.sStop) m' queue suspend)) :
    wp (sendStreamLoop (E.ctx .all n) p (fuel + 1) T actual) Q R (filling s p o m queue suspend) := by
  have hlt : T < (sending o queue suspend).sLen := by
    show T < o.sLen
    rw [hh.len]
    exact hT
  have htake : (σ.pending.take T).length = T := List.length_take_of_le (Nat.le_of_lt hT)
  rw [sendStreamLoop, wp_bind, wp_iff_ok (ask_pending hh hp)]
  dsimp only
  rw [wp_bind, wp_deref, filling_objects]
  refine ⟨fun o' ho' => ?_, fun hno => by cases hno⟩
  cases ho'
  rw [if_pos hlt, wp_bind]
  refine wp_copyPending hh hp (Nat.le_of_lt hT) ?_
  rw [wp_bind]
  refine wp_insert_room hm (by rw [htake]; exact hroom) fun m' hdata hsize hcont => ?_
  rw [wp_bind, wp_update, filling_objects]
  refine ⟨fun o' ho' => ?_, fun hno => by cases hno⟩
  cases ho'
  have hset := filling_setObject s p o m' queue suspend
    (withCursor o o.sBuf (o.sLen - T) (o.sOffset + T) o.sStop) queue suspend
  have hpost := hq m' hdata hsize hcont
  rw [← hset] at hpost
  exact hpost

/-- A round that empties what is pending. -/
theorem wp_round_empty (hh : Cursor σ o) (hp : σ.pending ≠ []) {fuel T actual : Nat}
    (hT : σ.pending.length ≤ T) (hm : m.data = 0)
    (hroom : m.dataSize + σ.pending.length ≤ m.buffer.length) {Q : Option Nat → Obex → Prop}
    (hq : ∀ m', m'.data = m.data → m'.buffer.length = m.buffer.length →
      m'.contents = m.contents ++ σ.pending →
      wp (if 0 < (if suspend then 0 else T - σ.pending.length) then sendStreamLoop (E.ctx .all n) p fuel
          (if suspend then 0 else T - σ.pending.length) (actual + σ.pending.length)
        else pure (some (actual + σ.pending.length))) Q R
        (filling s p (withCursor o o.sBuf 0 (o.sOffset + o.sLen) o.sStop) m' queue suspend)) :
    wp (sendStreamLoop (E.ctx .all n) p (fuel + 1) T actual) Q R (filling s p o m queue suspend) := by
  have hlen : (sending o queue suspend).sLen = σ.pending.length := hh.len
  rw [sendStreamLoop, wp_bind, wp_iff_ok (ask_pending hh hp)]
  dsimp only
  rw [wp_bind, wp_deref, filling_objects]
  refine ⟨fun o' ho' => ?_, fun hno => by cases hno⟩
  cases ho'
  rw [if_neg (by omega), wp_bind, hlen]
  refine wp_copyPending hh hp (Nat.le_refl _) ?_
  rw [wp_bind, List.take_length]
  refine wp_insert_room hm hroom fun m' hdata hsize hcont => ?_
  rw [wp_bind, wp_update, filling_objects]
  refine ⟨fun o' ho' => ?_, fun hno => by cases hno⟩
  cases ho'
  have hset := filling_setObject s p o m' queue suspend
    (withCursor o o.sBuf 0 (o.sOffset + o.sLen) o.sStop) queue suspend
  have hpost := hq m' hdata hsize hcont
  rw [← hset] at hpost
  exact hpost

/-- By induction on the draw. -/
theorem wp_streamLoop {T : Nat} {d : Bytes} {σ' : Source UInt8} (hd : Source.Draws suspend σ T d σ') :
    ∀ {fuel actual : Nat} {s : Obex} {o : ObexObject} {m : Buf}
      {Q : Option Nat → Obex → Prop}, σ.Sound →
      Cursor σ o → Supplies E (asks s.log) σ → s.object = some p → σ.rounds ≤ fuel → m.data = 0 →
      m.dataSize + d.length ≤ m.buffer.length →
      (∀ xs o' m', Drawn E d σ' o m s.log xs o' m' →
        Q (some (actual + d.length)) (filling (logged s xs) p o' m' queue suspend)) →
      wp (sendStreamLoop (E.ctx .all (n + 1)) p fuel T actual) Q R (filling s p o m queue suspend) := by
  induction hd with
  | @last σ T hp hc =>
    intro fuel actual s o m Q hσ hh hs hcur hfuel hm hroom hq
    unfold Source.rounds at hfuel
    rw [if_pos hp] at hfuel
    obtain ⟨fuel, rfl⟩ : ∃ k, fuel = k + 1 := ⟨fuel - 1, by omega⟩
    rw [sendStreamLoop, wp_bind]
    refine wp_ask_empty hσ hh hs hcur hp fun x o' hx hmoved hcursor => ?_
    have hask : σ.ask = σ.ended := by rw [Source.ask, hc]
    have hsup : Supplies E (asks (s.log ++ [.event x])) σ.ended := by
      rw [← hask, show asks (s.log ++ [.event x]) = asks s.log + 1 from asks_emit hx]
      exact hs.ask
    rw [if_pos hc]
    refine hq [.event x] o' m
      ⟨fun y hy => ?_, hmoved, by rwa [← hask], hsup, rfl, rfl, (List.append_nil _).symm⟩
    rw [List.mem_singleton.1 hy]
    exact decide_eq_true hx
  | @ask σ σ' T d hp hc hd ih =>
    intro fuel actual s o m Q hσ hh hs hcur hfuel hm hroom hq
    have hlen := Source.Draws.length_ask hc
    have hne := hσ.pending_ask hc
    unfold Source.rounds at hfuel
    rw [if_pos hp] at hfuel
    obtain ⟨fuel, rfl⟩ : ∃ k, fuel = k + 1 := ⟨fuel - 1, by omega⟩
    rw [sendStreamLoop, wp_bind]
    refine wp_ask_empty hσ hh hs hcur hp fun x o' hx hmoved hcursor => ?_
    have hsup : Supplies E (asks (s.emit (.event x)).log) σ.ask := by
      rw [asks_emit hx]
      exact hs.ask
    have hrounds : σ.ask.rounds ≤ fuel + 1 := by
      unfold Source.rounds
      rw [if_neg hne]
      omega
    -- the loop asks at the start of a round: the same round once more, now with data pending
    have hloop := @ih (fuel + 1) actual (s.emit (.event x)) o' m Q
      hσ.ask hcursor hsup hcur hrounds hm hroom fun xs o'' m' h => ?_
    · rw [sendStreamLoop, wp_bind, wp_iff_ok (ask_pending hcursor hne)] at hloop
      rw [if_neg hc]
      exact hloop
    · rw [show logged (s.emit (.event x)) xs = logged s (.event x :: xs) from logged_logged s
        [.event x] xs]
      refine hq (.event x :: xs) o'' m' ⟨fun y hy => ?_, hmoved.trans h.moved, h.cursor, ?_, h.data,
        h.size, h.contents⟩
      · cases hy with
        | head => exact decide_eq_true hx
        | tail _ hy => exact h.onlyAsks y hy
      · have hsup' := h.supplies
        rwa [show (s.emit (.event x)).log ++ xs = s.log ++ (.event x :: xs) from List.append_assoc _ _
          _] at hsup'
  | @full σ T hp hT =>
    intro fuel actual s o m Q hσ hh hs hcur hfuel hm hroom hq
    unfold Source.rounds at hfuel
    rw [if_neg hp] at hfuel
    obtain ⟨fuel, rfl⟩ : ∃ k, fuel = k + 1 := ⟨fuel - 1, by omega⟩
    have htake : (σ.pending.take T).length = T := List.length_take_of_le (Nat.le_of_lt hT)
    rw [htake] at hroom hq
    refine wp_round_full hh hp hT hm hroom fun m' hdata hsize hcont => ?_
    have hpost := hq []
    rw [logged_nil] at hpost
    refine hpost _ m' ⟨fun y hy => (List.not_mem_nil hy).elim, ⟨_, _, _, _, rfl⟩, hh.skip ?_, ?_, hdata,
      hsize, hcont⟩
    · rw [hh.len]
      exact Nat.le_of_lt hT
    · rwa [List.append_nil]
  | @stop σ T hp hT hstop =>
    intro fuel actual s o m Q hσ hh hs hcur hfuel hm hroom hq
    unfold Source.rounds at hfuel
    rw [if_neg hp] at hfuel
    obtain ⟨fuel, rfl⟩ : ∃ k, fuel = k + 1 := ⟨fuel - 1, by omega⟩
    -- the packet is full or the object suspended, so the loop ends although the chunk is used up
    refine wp_round_empty hh hp hT hm hroom fun m' hdata hsize hcont => ?_
    have hzero : (if suspend = true then 0 else T - σ.pending.length) = 0 := by
      cases hstop with
      | inl hsus => rw [if_pos hsus]
      | inr heq => rw [heq, Nat.sub_self, ite_self]
    have hpost := hq []
    rw [logged_nil] at hpost
    rw [hzero, if_neg (Nat.lt_irrefl 0)]
    refine hpost _ m' ⟨fun y hy => (List.not_mem_nil hy).elim, ⟨_, _, _, _, rfl⟩, hh.skip_all, ?_,
      hdata, hsize, hcont⟩
    rwa [List.append_nil]
  | @more σ σ' T d hp hT hsingle hd ih =>
    intro fuel actual s o m Q hσ hh hs hcur hfuel hm hroom hq
    unfold Source.rounds at hfuel
    rw [if_neg hp] at hfuel
    obtain ⟨fuel, rfl⟩ : ∃ k, fuel = k + 1 := ⟨fuel - 1, by omega⟩
    rw [List.length_append] at hroom hq
    refine wp_round_empty hh hp (Nat.le_of_lt hT) hm (by omega) fun m' hdata hsize hcont => ?_
    have hsus : ¬ suspend = true := by simp [hsingle]
    have hrounds : (σ.skip σ.pending.length).rounds ≤ fuel := by
      unfold Source.rounds
      rw [if_pos σ.pending_skip_all]
      show σ.chunks.length + 1 ≤ fuel
      omega
    have hroom' : m'.dataSize + d.length ≤ m'.buffer.length := by
      have hlen := congrArg List.length hcont
      rw [length_contents, List.length_append, length_contents] at hlen
      omega
    rw [if_neg hsus, if_pos (by omega)]
    refine ih (hσ.skip _) hh.skip_all hs hcur hrounds (hdata.trans hm) hroom' fun xs o' m'' h => ?_
    have hmoved : Moved o o' := Moved.trans ⟨_, _, _, _, rfl⟩ h.moved
    rw [Nat.add_assoc]
    refine hq xs o' m'' ⟨h.onlyAsks, hmoved, h.cursor, h.supplies, h.data.trans hdata,
      h.size.trans hsize, ?_⟩
    rw [h.contents, hcont, List.append_assoc]

/-! ## One call -/

/-- The packet is built from the beginning of a block of `B` bytes that only grows when it must. -/
structure Snug (B : Nat) (m : Buf) : Prop where
  data : m.data = 0
  size : m.buffer.length = max B m.dataSize

/-- The header of a fragment of the stream. -/
def fragment (final : Bool) (d : Bytes) : Head :=
  { hi := if final then obexHdrBodyEnd else obexHdrBody, value := d }

theorem fragment_encode (final : Bool) (d : Bytes) :
    (fragment final d).encode = (fragment final d).hi :: be16 (d.length + 3) ++ d := by
  have hk : hiType (if final then obexHdrBodyEnd else obexHdrBody) = .byteStream := by
    cases final with
    | true => decide
    | false => decide
  have hk' : hiType (fragment final d).hi = .byteStream := hk
  unfold Head.encode
  rw [hk']
  rfl

/-- One call of `send_stream` with space for a header puts one fragment into the packet, and takes the
header off the queue behind the last one. -/
theorem wp_sendStream {h : HeaderElement} {S B : Nat} {d : Bytes} {σ' : Source UInt8} (final : Bool)
    (hd : Source.Draws suspend σ (u32 ((S : Int) - 3)) d σ') (hover : final = true ↔ σ'.Over)
    (hlong : d.length + 3 < 65536)
    (hσ : σ.Sound) (hh : Cursor σ o) (hs : Supplies E (asks s.log) σ) (hc : s.object = some p)
    (hfuel : σ.rounds ≤ n + 1) (hm : ∀ k, E.malloc k = true) (hmem : addr h ∈ queue.map addr)
    (hsnug : Snug B m) (hroom : d = [] ∨ m.dataSize + 3 + d.length ≤ B) {Q : Option Nat → Obex → Prop}
    (hq : ∀ xs o' m', (∀ x ∈ xs, x.isAsk = true) → Moved o o' → Cursor σ' o' →
      Supplies E (asks (s.log ++ xs)) σ' → Snug B m' → m'.contents = m.contents ++
        (fragment final d).encode →
      Q (some (3 + d.length))
        (filling (logged s xs) p o' m' (if final then slistRemove queue h else queue) suspend)) :
    wp (sendStream (E.ctx .all (n + 1)) h S) Q R (filling s p o m queue suspend) := by
  have hu : u16 ((3 + d.length : Nat) : Int) = d.length + 3 := by
    unfold u16
    omega
  obtain ⟨hm0, hsize⟩ := hsnug
  obtain ⟨⟨msg, dest⟩, hr⟩ : ∃ r, bufReserveEnd E.malloc m 3 = some r :=
    bufReserveEnd_iff.2 (.inr (hm _))
  obtain ⟨hdata, hdest, hds, -⟩ := bufReserveEnd_some hr
  have hlen := bufReserveEnd_length hr
  have hend := msg.end_le
  have hcurrent : (filling s p o m queue suspend).object = some p := hc
  rw [sendStream, wp_bind, wp_selfObject, hcurrent]
  refine ⟨fun q hq' => ?_, fun hno => by cases hno⟩
  cases hq'
  rw [wp_bind, wp_get, wp_bind, wp_require, ctx_malloc, filling_txMsg, hr]
  refine ⟨fun r hr' => ?_, fun hno => by cases hno⟩
  cases hr'
  dsimp only
  rw [wp_bind, wp_set, filling_setTxMsg, wp_bind, show (E.ctx .all (n + 1)).fuel = n + 1 from rfl]
  refine wp_streamLoop hd hσ hh hs hc hfuel (hdata.trans hm0) ?_ fun xs o' m' hdrawn => ?_
  · rcases hroom with hnil | hle
    · rw [hnil, List.length_nil]
      omega
    · omega
  have hdone : ((sending o' queue suspend).sStop = true ∧ (sending o' queue suspend).sLen = 0) ↔
    final = true := by
    rw [hover]
    show (o'.sStop = true ∧ o'.sLen = 0) ↔ _
    rw [hdrawn.cursor.stop, hdrawn.cursor.len, Option.isNone_iff_eq_none, List.length_eq_zero_iff]
    exact Iff.rfl
  have hlast : ∃ m'', bufPoke m' dest ((fragment final d).hi :: be16 (d.length + 3)) = some m'' := by
    refine bufPoke_of_le ?_
    rw [hdrawn.size]
    show dest + 3 ≤ _
    omega
  dsimp only
  rw [wp_bind, wp_deref, filling_objects]
  refine ⟨fun o₁ ho₁ => ?_, fun hno => by cases hno⟩
  cases ho₁
  rw [if_neg fun hno => hno.2 hmem, wp_bind]
  -- the header leaves the queue behind the last fragment
  have hqueue : wp (when ((sending o' queue suspend).sStop = true ∧ (sending o' queue suspend).sLen = 0)
      (update p fun o => { o with txHeaderq := slistRemove o.txHeaderq h })) (fun _ t => t =
        filling (logged s xs) p o' m' (if final = true then slistRemove queue h else queue) suspend) R
      (filling (logged s xs) p o' m' queue suspend) := by
    rw [wp_when]
    refine ⟨fun hyes => ?_, fun hno => ?_⟩
    · rw [if_pos (hdone.1 hyes)]
      exact wp_filling_update rfl rfl
    · rw [if_neg fun hyes => hno (hdone.2 hyes)]
  refine wp_conseq hqueue fun _ t ht => ?_
  rw [ht, wp_bind, wp_get, filling_txMsg, if_neg (by simp [hdrawn.size])]
  obtain ⟨m'', hm''⟩ := hlast
  have hhi : (if (sending o' queue suspend).sStop = true ∧ (sending o' queue suspend).sLen =
    0 then obexHdrBodyEnd
      else obexHdrBody) = (fragment final d).hi := if_congr hdone rfl rfl
  rw [hhi, hu, hm'', wp_bind, wp_require]
  refine ⟨fun b hb => ?_, fun hno => by cases hno⟩
  cases hb
  obtain ⟨hq1, hq2, hq3, -⟩ := bufPoke_some hm''
  have hcont := contents_poke_reserved (x := (fragment final d).hi :: be16 (d.length + 3)) hr
    hdrawn.data
    hdrawn.contents hm''
  have hds' := congrArg List.length hcont
  rw [length_contents, List.length_append, length_contents, List.length_append, List.length_cons,
    length_be16] at hds'
  rw [wp_bind, wp_set, filling_setTxMsg, wp_pure]
  refine hq xs o' m'' hdrawn.onlyAsks hdrawn.moved hdrawn.cursor hdrawn.supplies ⟨?_, ?_⟩ ?_
  · rw [hq1, hdrawn.data, hdata, hm0]
  · rw [length_poke hm'', hdrawn.size, hlen, hds']
    rcases hroom with hnil | hle
    · rw [hnil, List.length_nil]
      omega
    · omega
  · rw [hcont, fragment_encode]

end

end OpenObex
