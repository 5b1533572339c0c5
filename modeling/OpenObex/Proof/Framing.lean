import OpenObex.Proof.Steady

/-!
# Framing of fed data

A stream of packets, cut into chunks, is fed to a handle with a custom transport. `completeIn` cuts
the packets out of what has been fed so far, however it came; `Framed` says that the library does the
same: after every chunk it has dispatched these packets and holds the bytes behind them.

`obex_data_indication` dispatches one packet for each chunk at most and drops the rest of the chunk;
it uses the pointer to the common header after the buffer may have moved, and it does not check that
there is memory for the chunk. `Fits` is what a chunk must meet for none of this to happen.
-/

namespace OpenObex

open Mem Prog

/-- A packet: its length field is its size. -/
inductive Packet : Bytes → Prop
  | mk {op a b : UInt8} {v : Bytes} (h : ofBe16 a b = v.length + 3) : Packet (op :: a :: b :: v)

/-- The packets that are complete in the first `n` bytes of a stream. -/
def completeIn : List Bytes → Nat → List Bytes
  | [], _ => []
  | p :: ps, n => if p.length ≤ n then p :: completeIn ps (n - p.length) else []

/-- The packets dispatched so far. -/
def dispatched (log : List Obs) : List Bytes :=
  log.filterMap fun x => match x with
    | .recv d => some d
    | _ => none

/-- The size of the packet that starts with `w`, 3 as long as it is not known. -/
def frameSize : Bytes → Nat
  | _ :: a :: b :: _ => max 3 (ofBe16 a b)
  | _ => 3

/-- There is room in the receive buffer `b` for the chunk `c`. -/
structure Room (malloc : Nat → Bool) (b : Buf) (c : Bytes) : Prop where
  /-- There is memory for the rest of the common header. -/
  header : Granted malloc b (min c.length (3 - b.dataSize))
  /-- There is memory for the chunk. -/
  memory : Granted malloc b c.length
  /-- Behind the common header, the last bytes of a packet come into space that is already there. -/
  still : frameSize (b.contents ++ c) ≤ (b.contents ++ c).length → 3 < (b.contents ++ c).length →
    b.data + b.dataSize + c.length ≤ b.buffer.length

/-- What `obex_data_indication` needs of a chunk `c` when the receive buffer is `b`. -/
structure Fits (malloc : Nat → Bool) (b : Buf) (c : Bytes) : Prop extends Room malloc b c where
  /-- The chunk does not go beyond the end of the packet. -/
  inside : (b.contents ++ c).length ≤ frameSize (b.contents ++ c)

section
variable (E : Env) (n : Nat)

/-- `OBEX_CustomDataFeed` -/
def feed (c : Bytes) : M Unit := runOp (E.ctx .all n) .all (.customDataFeed c)

/-- Every chunk fits when it is fed. -/
def AllFit : List Bytes → Obex → Prop
  | [], _ => True
  | c :: cs, s => Fits E.malloc s.rxMsg c ∧ wp (feed E n c) (fun _ => AllFit cs) (fun _ _ => True) s

end

/-- The bytes `fed` are the packets dispatched since `base`, followed by the bytes `held`. -/
structure InStep (packets base : List Bytes) (fed held : Bytes) (s : Obex) : Prop where
  log : dispatched s.log = base ++ completeIn packets fed.length
  rest : (completeIn packets fed.length).flatten ++ held = fed

/-- After every chunk the library is in step with the stream; it stops, if at all, in the handler of
a packet that ends with the chunk. -/
def Framed (E : Env) (n : Nat) (packets base : List Bytes) : Bytes → List Bytes → Obex → Prop
  | _, [], _ => True
  | fed, c :: cs, s =>
    wp (feed E n c)
      (fun _ s' => InStep packets base (fed ++ c) s'.rxMsg.contents s' ∧
        Framed E n packets base (fed ++ c) cs s')
      (fun _ => InStep packets base (fed ++ c) []) s

/-! ## Packets -/

theorem Packet.three_le {p : Bytes} (h : Packet p) : 3 ≤ p.length := by
  cases h with
  | mk h => simp only [List.length_cons]; omega

theorem Packet.pos {p : Bytes} (h : Packet p) :
    0 < p.length := Nat.lt_of_lt_of_le (by decide) h.three_le

theorem three_le_frameSize (w : Bytes) : 3 ≤ frameSize w := by
  unfold frameSize
  split
  · omega
  · omega

/-- The size is known once the common header is there. -/
theorem frameSize_append {w : Bytes} (h : 3 ≤ w.length) (x : Bytes) :
    frameSize (w ++ x) = frameSize w := by
  match w, h with
  | op :: a :: b :: v, _ => rfl

theorem frameSize_short {w : Bytes} (h : w.length < 3) : frameSize w = 3 := by
  match w, h with
  | [], _ => rfl
  | [_], _ => rfl
  | [_, _], _ => rfl

theorem Packet.frameSize {p : Bytes} (h : Packet p) : frameSize p = p.length := by
  cases h with
  | mk h =>
    simp only [OpenObex.frameSize, List.length_cons]
    omega

/-- A part of a stream that starts with the packet `p`. -/
theorem Packet.frameSize_prefix {p w x y : Bytes} (h : Packet p) (he : w ++ x = p ++ y)
    (hw : 3 ≤ w.length) : OpenObex.frameSize w = p.length := by
  rw [← h.frameSize, ← frameSize_append hw x, he, frameSize_append h.three_le]

theorem completeIn_nil (n : Nat) : completeIn [] n = [] := rfl

theorem completeIn_lt {p : Bytes} {ps : List Bytes} {n : Nat} (h : n < p.length) :
    completeIn (p :: ps) n = [] := if_neg (by omega)

theorem completeIn_append (p : Bytes) (ps : List Bytes) (fed : Bytes) :
    completeIn (p :: ps) (p ++ fed).length = p :: completeIn ps fed.length := by
  rw [completeIn, List.length_append, if_pos (by omega), Nat.add_sub_cancel_left]

theorem completeIn_done (done ps : List Bytes) (held : Bytes) :
    completeIn (done ++ ps) (done.flatten ++ held).length = done ++ completeIn ps held.length := by
  induction done with
  | nil => rfl
  | cons p done ih =>
    rw [List.cons_append, List.flatten_cons, List.append_assoc, completeIn_append, ih]
    rfl

@[simp] theorem dispatched_append (log : List Obs) (d : Bytes) :
    dispatched (log ++ [.recv d]) = dispatched log ++ [d] := by
  unfold dispatched
  rw [List.filterMap_append]
  rfl

theorem dispatched_other (log : List Obs) {x : Obs} (hx : ∀ d, x ≠ .recv d) :
    dispatched (log ++ [x]) = dispatched log := by
  have hnone : [x].filterMap (fun x => match x with
      | .recv d => some d
      | _ => none) = ([] : List Bytes) := by
    cases x with
    | recv d => exact absurd rfl (hx d)
    | _ => rfl
  unfold dispatched
  rw [List.filterMap_append, hnone, List.append_nil]

theorem dispatched_emit {s : Obex} {x : Obs} (hx : x.incoming = false) :
    dispatched (s.emit x).log = dispatched s.log :=
  dispatched_other s.log (by rintro d rfl; cases hx)

/-! ## One chunk -/

variable {E : Env} {n : Nat}

/-- The packets of `L` have been dispatched. -/
structure At (L : List Bytes) (s : Obex) : Prop where
  custom : s.trans.type = .custom
  log : dispatched s.log = L

theorem at_steady (L : List Bytes) : Steady (At L) where
  state s t ht hl hs := ⟨by rw [ht]; exact hs.custom, by rw [hl]; exact hs.log⟩
  emit s x hx hs := ⟨hs.custom, (dispatched_emit hx).trans hs.log⟩

theorem At.setRxMsg {L : List Bytes} {s : Obex} (h : At L s) (b : Buf) : At L (s.setRxMsg b) :=
  ⟨h.custom, h.log⟩

/-- Once the bytes are there: a whole packet is dispatched. -/
structure Taken (L : List Bytes) (w : Bytes) (whole : Prop) (s : Obex) : Prop where
  dispatched : whole → At (L ++ [w]) s ∧ s.rxMsg.contents = []
  kept : ¬ whole → At L s ∧ s.rxMsg.contents = w

/-- The run stops where the bytes come in, or later in the handler of the packet. -/
def Halted (L : List Bytes) (w : Bytes) (fit whole : Prop) (s : Obex) : Prop :=
  (fit ∧ whole ∧ At (L ++ [w]) s) ∨ (¬ fit ∧ At L s)

theorem wp_customRead {C : Ctx} {max : Nat} {c : Bytes} {Q : Int → Obex → Prop}
    {R : Stop → Obex → Prop} {s : Obex}
    (h : ∀ b, bufInsertEnd C.malloc s.rxMsg (c.take max) = some b →
      Q ((c.take max).length : Nat) (s.setRxMsg b))
    (he : ¬ Granted C.malloc s.rxMsg (c.take max).length → R (.fault .nullDeref) s) :
    wp (customRead C max c c.length) Q R s := by
  have hn : (if (max : Int) < c.length then max else (c.length : Int).toNat) = (c.take max).length := by
    rw [List.length_take]
    split <;> omega
  have hcopy : copyFrom (some c) 0 (c.take max).length = pure (c.take max) := by
    have hle : (c.take max).length ≤ c.length := List.length_take_le' _ _
    have hslice : slice c 0 (c.take max).length = c.take max := by
      rw [slice, List.drop_zero, List.length_take, List.take_eq_take_iff]
      omega
    unfold copyFrom
    dsimp only
    rw [if_pos (by omega), hslice]
  rw [customRead, wp_bind, wp_get, hn]
  dsimp only
  rw [hcopy, wp_bind, wp_pure, wp_bind, wp_require]
  refine ⟨fun r hr => ?_, fun hnone => he fun hg => ?_⟩
  · obtain ⟨m, dest⟩ := r
    obtain ⟨h1, rfl, h3, -⟩ := bufReserveEnd_some hr
    have hle := m.end_le
    have hp : s.rxMsg.data + s.rxMsg.dataSize + (c.take max).length ≤ m.buffer.length := by omega
    obtain ⟨q, hq⟩ := bufPoke_of_le hp
    rw [wp_bind, wp_require, hq]
    refine ⟨?_, by simp⟩
    rintro _ ⟨⟩
    refine h q ?_
    unfold bufInsertEnd
    rw [hr]
    exact hq
  · obtain ⟨r, hr⟩ := bufReserveEnd_iff.2 hg
    rw [hr] at hnone
    cases hnone

theorem wp_dispatch_fed {L : List Bytes} {s : Obex} (hs : At L s) (final : Bool) :
    wp (dispatch (E.ctx .all n) final)
      (fun _ s' => At (L ++ [s.rxMsg.contents]) s' ∧ s'.rxMsg.contents = [])
      (fun _ => At (L ++ [s.rxMsg.contents])) s := by
  have hrecv : At (L ++ [s.rxMsg.contents]) (s.emit (.recv s.rxMsg.contents)) := by
    refine ⟨hs.custom, ?_⟩
    rw [← hs.log]
    exact dispatched_append _ _
  rw [dispatch, ctx_recv, wp_bind]
  refine wp_packetReceived (fun _ => ?_) hrecv
  have hmode : (s.emit (.recv s.rxMsg.contents)).mode = s.mode := rfl
  rw [wp_bind, wp_get, hmode]
  refine wp_seq (P := fun _ => At (L ++ [s.rxMsg.contents])) ?_ fun ret s' hs' => ?_
  · cases s.mode with
    | srv => exact (at_steady _).toLoose.server final _ hrecv
    | cli => exact (at_steady _).toLoose.client _ hrecv
  exact ⟨hs'.setRxMsg _, contents_bufReuse _⟩

/-- The second read, when the common header is there. -/
theorem wp_indicationRest_fed {L : List Bytes} {s : Obex} {c w : Bytes} {k : Nat} (hs : At L s)
    (h3 : 3 ≤ s.rxMsg.dataSize) (hk : k = frameSize s.rxMsg.contents - s.rxMsg.dataSize)
    (hw : w = s.rxMsg.contents ++ c.take k) :
    let fit := Granted E.malloc s.rxMsg (c.take k).length ∧ (frameSize w ≤ w.length →
      s.rxMsg.data + s.rxMsg.dataSize + (c.take k).length ≤ s.rxMsg.buffer.length)
    wp (indicationRest (E.ctx .all n) (some c) c.length)
      (fun _ s' => fit ∧ Taken L w (frameSize w ≤ w.length) s')
      (fun _ => Halted L w fit (frameSize w ≤ w.length)) s := by
  intro fit
  have hlen : s.rxMsg.contents.length = s.rxMsg.dataSize := length_contents _
  have hend := s.rxMsg.end_le
  obtain ⟨op, a, b, v, hc⟩ : ∃ op a b v, s.rxMsg.contents = op :: a :: b :: v := by
    match hc : s.rxMsg.contents with
    | [] | [_] | [_, _] => rw [hc] at hlen; simp at hlen; omega
    | op :: a :: b :: v => exact ⟨op, a, b, v, rfl⟩
  have hF : frameSize s.rxMsg.contents = max 3 (ofBe16 a b) := by rw [hc]; rfl
  have hFw : frameSize w = max 3 (ofBe16 a b) := by
    rw [hw, frameSize_append (by omega), hF]
  have hwlen : w.length = s.rxMsg.dataSize + (c.take k).length := by
    rw [hw, List.length_append, hlen]
  have ha : s.rxMsg.reach[1]? = some a := by rw [Buf.reach, hc]; rfl
  have hb : s.rxMsg.reach[2]? = some b := by rw [Buf.reach, hc]; rfl
  -- what follows once the bytes are there
  have htail (s' : Obex) (hs' : At L s') (hc' : s'.rxMsg.contents = w)
      (hfit : fit ↔ (frameSize w ≤ w.length → s'.rxMsg.buffer.length = s.rxMsg.buffer.length)) :
      wp (do
        let s' ← get
        if s'.rxMsg.dataSize < ofBe16 a b then pure (s'.rxMsg.dataSize : Int)
        else if s'.rxMsg.buffer.length ≠ s.rxMsg.buffer.length then fault .dangling
        else do
          let opcode ← byteAt s'.rxMsg 0
          dispatch (E.ctx .all n) (opcode &&& obexFinal ≠ 0))
        (fun _ s' => fit ∧ Taken L w (frameSize w ≤ w.length) s')
        (fun _ => Halted L w fit (frameSize w ≤ w.length)) s' := by
    have hsize : s'.rxMsg.dataSize = w.length := by rw [← length_contents, hc']
    rw [wp_bind, wp_get, hsize]
    by_cases hshort : w.length < ofBe16 a b
    · have hno : ¬ frameSize w ≤ w.length := by omega
      rw [if_pos hshort]
      exact ⟨hfit.2 fun h => absurd h hno, fun h => absurd h hno, fun _ => ⟨hs', hc'⟩⟩
    have hwhole : frameSize w ≤ w.length := by omega
    rw [if_neg hshort]
    by_cases hmoved : s'.rxMsg.buffer.length = s.rxMsg.buffer.length
    · have hf : fit := hfit.2 fun _ => hmoved
      have hop : s'.rxMsg.reach[0]? = some op := by rw [Buf.reach, hc', hw, hc]; rfl
      rw [if_neg (by simpa using hmoved)]
      refine wp_byteAt_some hop ?_
      refine wp_mono (wp_dispatch_fed hs' _) (fun _ s'' h => ?_) fun _ s'' h => ?_
      · rw [hc'] at h
        exact ⟨hf, fun _ => h, fun h => absurd hwhole h⟩
      · rw [hc'] at h
        exact .inl ⟨hf, hwhole, h⟩
    · rw [if_pos hmoved]
      exact .inr ⟨fun hf => hmoved (hfit.1 hf hwhole), hs'⟩
  rw [indicationRest, wp_bind, wp_get]
  refine wp_byteAt_some ha (wp_byteAt_some hb ?_)
  dsimp only
  by_cases hmore : s.rxMsg.dataSize < ofBe16 a b
  · have hk' : ofBe16 a b - s.rxMsg.dataSize = k := by omega
    rw [if_pos hmore, wp_bind, wp_bind, obexTransportRead, wp_bind, wp_get, hs.custom, hk']
    show wp (customRead (E.ctx .all n) k c c.length) _ _ s
    refine wp_customRead (fun q hq => ?_) fun hg => ?_
    · obtain ⟨hqc, hqs⟩ := bufInsertEnd_some hq
      obtain ⟨-, hql⟩ := bufInsertEnd_length hq
      rw [ctx_malloc] at hq
      have hg : Granted E.malloc s.rxMsg (c.take k).length := bufInsertEnd_iff.1 ⟨q, hq⟩
      rw [wp_pure, if_neg (by simp)]
      refine htail _ (hs.setRxMsg q) (by rw [hw]; exact hqc) ?_
      have hgrow : (s.setRxMsg q).rxMsg.buffer.length = s.rxMsg.buffer.length ↔
          s.rxMsg.data + s.rxMsg.dataSize + (c.take k).length ≤ s.rxMsg.buffer.length := by
        rw [show (s.setRxMsg q).rxMsg = q from rfl, hql]
        omega
      rw [hgrow]
      exact ⟨fun h => h.2, fun h => ⟨hg, h⟩⟩
    · rw [ctx_malloc] at hg
      exact .inr ⟨fun hf => hg hf.1, hs⟩
  · have hk' : c.take k = [] := by
      rw [hk, hF, Nat.sub_eq_zero_of_le (by omega), List.take_zero]
    rw [if_neg hmore, wp_bind, wp_pure]
    refine htail s hs (by rw [hw, hk', List.append_nil]) ⟨fun _ _ => rfl, fun _ => ?_⟩
    have hz : (c.take k).length = 0 := by rw [hk']; rfl
    exact ⟨.inl (by omega), fun _ => by omega⟩

/-- The room for the bytes `d`, when the buffer `q` already has the rest of the common header. -/
theorem room_second {malloc : Nat → Bool} {b q : Buf} {d w : Bytes} {h n : Nat}
    (hqd : q.data = b.data) (hqs : q.dataSize = b.dataSize + h)
    (hql : q.buffer.length = max b.buffer.length (b.data + b.dataSize + h))
    (hg : Granted malloc b h) (hw : w = b.contents ++ d) (hh : b.dataSize + h = 3)
    (hd : d.length = h + n) :
    (Granted malloc q n ∧ (frameSize w ≤ w.length → q.data + q.dataSize + n ≤ q.buffer.length)) ↔
      Room malloc b d := by
  have hwlen : w.length = b.dataSize + d.length := by rw [hw, List.length_append, length_contents]
  have hsum : q.data + q.dataSize + n = b.data + b.dataSize + d.length := by omega
  have hmem : Granted malloc q n ↔ Granted malloc b d.length := by
    unfold Granted at *
    rw [hsum, hql]
    refine ⟨fun h => ?_, fun h => ?_⟩
    · rcases h with h | h
      · by_cases hn : n = 0
        · rw [hd, hn]
          exact hg
        · exact .inl (by omega)
      · exact .inr h
    · rcases h with h | h
      · exact .inl (by omega)
      · exact .inr h
  rw [hmem, hsum, hql]
  refine ⟨fun hr => ⟨?_, hr.1, fun h' h3 => ?_⟩, fun hr => ⟨hr.memory, fun h' => ?_⟩⟩
  · rw [show min d.length (3 - b.dataSize) = h by omega]
    exact hg
  · rw [← hw] at h' h3
    have := hr.2 h'
    omega
  · by_cases h3 : 3 < w.length
    · have := hr.still (by rw [← hw]; exact h') (by rw [← hw]; exact h3)
      omega
    · omega

/-- A chunk `c`: its first bytes `d` are taken, up to the end of the packet; the rest is dropped. -/
theorem wp_feed {L : List Bytes} {s : Obex} {c d w : Bytes} (hs : At L s)
    (hd : d = c.take (frameSize (s.rxMsg.contents ++ c) - s.rxMsg.dataSize))
    (hw : w = s.rxMsg.contents ++ d) :
    wp (feed E n c) (fun _ s' => Room E.malloc s.rxMsg d ∧ Taken L w (frameSize w ≤ w.length) s')
      (fun _ => Halted L w (Room E.malloc s.rxMsg d) (frameSize w ≤ w.length)) s := by
  have hlen : s.rxMsg.contents.length = s.rxMsg.dataSize := length_contents _
  have hend := s.rxMsg.end_le
  have hwlen : w.length = s.rxMsg.dataSize + d.length := by rw [hw, List.length_append, hlen]
  have h3 := three_le_frameSize (s.rxMsg.contents ++ c)
  have hdlen : d.length = min (frameSize (s.rxMsg.contents ++ c) - s.rxMsg.dataSize) c.length := by
    rw [hd, List.length_take]
  -- the outcome does not depend on how the condition is put
  have hread {fit : Prop} {m : M Int} {s₁ : Obex} (hfit : fit ↔ Room E.malloc s.rxMsg d)
      (h : wp m (fun _ s' => fit ∧ Taken L w (frameSize w ≤ w.length) s')
        (fun _ => Halted L w fit (frameSize w ≤ w.length)) s₁) :
      wp m (fun _ s' => Room E.malloc s.rxMsg d ∧ Taken L w (frameSize w ≤ w.length) s')
        (fun _ => Halted L w (Room E.malloc s.rxMsg d) (frameSize w ≤ w.length)) s₁ := by
    rwa [hfit] at h
  rw [feed, runOp, wp_bind, wp_get, wp_bind, wp_allowed]
  refine ⟨fun _ => ?_, fun h => by cases h⟩
  rw [wp_bind, obexDataIndication, wp_bind, wp_get]
  simp only [wp_pure]
  by_cases hshort : s.rxMsg.dataSize < 3
  · rw [if_pos hshort, wp_bind, obexTransportRead, wp_bind, wp_get, hs.custom]
    show wp (customRead (E.ctx .all n) (3 - s.rxMsg.dataSize) c c.length) _ _ s
    have hhead : min d.length (3 - s.rxMsg.dataSize) = (c.take (3 - s.rxMsg.dataSize)).length := by
      rw [hdlen, List.length_take]
      omega
    refine wp_customRead (fun q hq => ?_) fun hg => ?_
    · obtain ⟨hqc, hqs⟩ := bufInsertEnd_some hq
      obtain ⟨hqd, hql⟩ := bufInsertEnd_length hq
      rw [ctx_malloc] at hq
      have hg : Granted E.malloc s.rxMsg (c.take (3 - s.rxMsg.dataSize)).length :=
        bufInsertEnd_iff.1 ⟨q, hq⟩
      rw [if_neg (by simp), wp_bind, wp_get]
      by_cases h3q : 3 ≤ q.dataSize
      · rw [show (s.setRxMsg q).rxMsg = q from rfl, if_pos h3q]
        have hc₁ : (c.take (3 - s.rxMsg.dataSize)).length = 3 - s.rxMsg.dataSize := by
          rw [List.length_take] at hqs ⊢
          omega
        have hle : 3 - s.rxMsg.dataSize ≤ c.length := by
          rw [List.length_take] at hc₁
          omega
        rw [hc₁] at hqs hql hg
        have hF : frameSize q.contents = frameSize (s.rxMsg.contents ++ c) := by
          rw [← frameSize_append (by rw [length_contents]; exact h3q) (c.drop (3 - s.rxMsg.dataSize)),
            hqc, List.append_assoc, List.take_append_drop]
        have hsplit : d = c.take (3 - s.rxMsg.dataSize) ++
            (c.drop (3 - s.rxMsg.dataSize)).take (frameSize q.contents - q.dataSize) := by
          rw [← List.take_add, hd, hF]
          congr 1
          omega
        have hdl := congrArg List.length hsplit
        rw [List.length_append, hc₁] at hdl
        have hbuf : advance (some c) ((c.take (3 - s.rxMsg.dataSize)).length : Nat) =
            some (c.drop (3 - s.rxMsg.dataSize)) := by
          rw [advance, hc₁, Int.toNat_natCast]
        have hbuflen : (c.length : Int) - ((c.take (3 - s.rxMsg.dataSize)).length : Nat) =
            ((c.drop (3 - s.rxMsg.dataSize)).length : Nat) := by
          rw [hc₁, List.length_drop]
          omega
        rw [hbuf, hbuflen]
        refine hread ?_ (wp_indicationRest_fed (hs.setRxMsg q) h3q rfl
          (by rw [hw, hsplit, ← List.append_assoc, ← hqc]; rfl))
        exact room_second hqd hqs hql hg hw (by omega) hdl
      · rw [show (s.setRxMsg q).rxMsg = q from rfl, if_neg h3q, wp_pure]
        have hdc : d = c.take (3 - s.rxMsg.dataSize) := by
          rw [hd, List.take_eq_take_iff]
          rw [hqs, List.length_take] at h3q
          omega
        have hshort' : ¬ frameSize w ≤ w.length := by
          have := three_le_frameSize w
          rw [hwlen, hdc, ← hqs]
          omega
        refine ⟨⟨by rw [hhead]; exact hg, by rw [hdc]; exact hg, fun h => ?_⟩, fun h => ?_, fun _ => ?_⟩
        · rw [← hw] at h
          exact absurd h hshort'
        · exact absurd h hshort'
        · exact ⟨hs.setRxMsg q, by rw [hw, hdc]; exact hqc⟩
    · rw [ctx_malloc] at hg
      exact .inr ⟨fun hf => hg (hhead ▸ hf.header), hs⟩
  · have hsize : frameSize (s.rxMsg.contents ++ c) = frameSize s.rxMsg.contents :=
      frameSize_append (by omega) c
    rw [hsize] at hd
    rw [if_neg hshort]
    refine hread ?_ (wp_indicationRest_fed hs (by omega) rfl (by rw [hw, hd]))
    rw [← hd]
    refine ⟨fun h => ⟨.inl (by omega), h.1, fun h' _ => h.2 (by rw [hw]; exact h')⟩, fun h => ?_⟩
    refine ⟨h.memory, fun h' => ?_⟩
    by_cases h0 : d.length = 0
    · omega
    · exact h.still (by rw [← hw]; exact h') (by rw [← hw]; omega)

/-! ## A run -/

/-- Between two chunks: the packets `done` have been dispatched, `ps` are still to come. -/
structure Between (base done ps : List Bytes) (s : Obex) : Prop where
  log : At (base ++ done) s
  short : ∀ p, ps.head? = some p → s.rxMsg.contents.length < p.length

theorem inStep_of {base done ps : List Bytes} {fed held : Bytes} {s : Obex}
    (hs : At (base ++ done) s) (hfed : done.flatten ++ held = fed)
    (hshort : ∀ p, ps.head? = some p → held.length < p.length) :
    InStep (done ++ ps) base fed held s := by
  have hin : completeIn (done ++ ps) fed.length = done := by
    rw [← hfed, completeIn_done]
    cases ps with
    | nil => rw [completeIn_nil, List.append_nil]
    | cons p ps => rw [completeIn_lt (hshort p rfl), List.append_nil]
  exact ⟨by rw [hs.log, hin], by rw [hin, hfed]⟩

theorem not_inStep {packets base done : List Bytes} {fed held : Bytes} {s : Obex}
    (hs : At (base ++ done) s) (hfed : done.flatten ++ held ≠ fed) :
    ¬ InStep packets base fed held s := by
  intro h
  have hlog := h.log
  rw [hs.log] at hlog
  have hin := List.append_cancel_left hlog
  have hrest := h.rest
  rw [← hin] at hrest
  exact hfed hrest

section
variable {base done ps : List Bytes} {p c rest : Bytes} {s : Obex} (h : Between base done (p :: ps) s)
  (hp : Packet p) (hcut : s.rxMsg.contents ++ c ++ rest = p ++ ps.flatten)
include h hp hcut

omit h in
/-- The library knows where the packet ends as soon as it matters. -/
theorem frameSize_cut : frameSize (s.rxMsg.contents ++ c) ≤ p.length ∧
    (3 ≤ (s.rxMsg.contents ++ c).length → frameSize (s.rxMsg.contents ++ c) = p.length) := by
  have hknown (h3 : 3 ≤ (s.rxMsg.contents ++ c).length) := hp.frameSize_prefix hcut h3
  refine ⟨?_, hknown⟩
  by_cases h3 : 3 ≤ (s.rxMsg.contents ++ c).length
  · exact Nat.le_of_eq (hknown h3)
  · rw [frameSize_short (by omega)]
    exact hp.three_le

omit h in
theorem whole_cut (hwhole : frameSize (s.rxMsg.contents ++ c) ≤ (s.rxMsg.contents ++ c).length) :
    p <+: s.rxMsg.contents ++ c := by
  have h3 := three_le_frameSize (s.rxMsg.contents ++ c)
  have hF := (frameSize_cut hp hcut).2 (by omega)
  have hle : p.length ≤ (s.rxMsg.contents ++ c).length := by omega
  have htake := congrArg (List.take p.length) hcut
  rw [List.take_append_of_le_length hle, List.take_left] at htake
  rw [← htake]
  exact List.take_prefix _ _

/-- A chunk that does not go beyond the end of the packet. -/
theorem feed_inside (hin : (s.rxMsg.contents ++ c).length ≤ frameSize (s.rxMsg.contents ++ c))
    (hps : ∀ q ∈ ps, Packet q) :
    wp (feed E n c)
      (fun _ s' => Room E.malloc s.rxMsg c ∧ ∃ done' ps', done' ++ ps' = done ++ p :: ps ∧
        ps' <:+ p :: ps ∧ Between base done' ps' s' ∧
        done'.flatten ++ s'.rxMsg.contents = done.flatten ++ (s.rxMsg.contents ++ c) ∧
        s'.rxMsg.contents ++ rest = ps'.flatten)
      (fun _ s' => (Room E.malloc s.rxMsg c ∧ s.rxMsg.contents ++ c = p ∧
        At (base ++ (done ++ [p])) s') ∨ (¬ Room E.malloc s.rxMsg c ∧ At (base ++ done) s')) s := by
  have hF := (frameSize_cut hp hcut).1
  have hlen : (s.rxMsg.contents ++ c).length = s.rxMsg.dataSize + c.length := by
    rw [List.length_append, length_contents]
  have htake : c = c.take (frameSize (s.rxMsg.contents ++ c) - s.rxMsg.dataSize) :=
    (List.take_of_length_le (by omega)).symm
  have hwhole (hw : frameSize (s.rxMsg.contents ++ c) ≤ (s.rxMsg.contents ++ c).length) :
      s.rxMsg.contents ++ c = p := ((whole_cut hp hcut hw).eq_of_length_le (by omega)).symm
  refine wp_mono (wp_feed h.log htake rfl) ?_ ?_
  · rintro _ s' ⟨hroom, ht⟩
    refine ⟨hroom, ?_⟩
    by_cases hw : frameSize (s.rxMsg.contents ++ c) ≤ (s.rxMsg.contents ++ c).length
    · obtain ⟨hs', hempty⟩ := ht.dispatched hw
      have hrest : rest = ps.flatten := by
        rw [hwhole hw] at hcut
        exact List.append_cancel_left hcut
      rw [hwhole hw] at hs' ⊢
      refine ⟨done ++ [p], ps, by simp, List.suffix_cons _ _,
        ⟨by rw [← List.append_assoc]; exact hs', ?_⟩, ?_, ?_⟩
      · intro q hq
        rw [hempty]
        exact (hps q (List.mem_of_mem_head? hq)).pos
      · rw [hempty, List.flatten_append, List.flatten_singleton, List.append_nil]
      · rw [hempty, hrest, List.nil_append]
    · obtain ⟨hs', hkept⟩ := ht.kept hw
      refine ⟨done, p :: ps, rfl, List.suffix_refl _, ⟨hs', ?_⟩,
        by rw [hkept], by rw [hkept, hcut, List.flatten_cons]⟩
      rintro q hq
      cases hq
      rw [hkept]
      omega
  · intro _ s' hhalt
    rcases hhalt with ⟨hroom, hw, hs'⟩ | ⟨hroom, hs'⟩
    · rw [hwhole hw, List.append_assoc] at hs'
      exact .inl ⟨hroom, hwhole hw, hs'⟩
    · exact .inr ⟨hroom, hs'⟩

/-- A chunk that goes beyond the end of the packet: its rest is lost. -/
theorem feed_beyond (hout : frameSize (s.rxMsg.contents ++ c) < (s.rxMsg.contents ++ c).length) :
    p.length < (s.rxMsg.contents ++ c).length ∧
    wp (feed E n c) (fun _ s' => At (base ++ (done ++ [p])) s' ∧ s'.rxMsg.contents = [])
      (fun _ s' => At (base ++ (done ++ [p])) s' ∨ At (base ++ done) s') s := by
  have h3 := three_le_frameSize (s.rxMsg.contents ++ c)
  have hF := (frameSize_cut hp hcut).2 (by omega)
  have hshort := h.short p rfl
  have hw : s.rxMsg.contents ++ c.take (frameSize (s.rxMsg.contents ++ c) - s.rxMsg.dataSize) = p := by
    have hpre := List.prefix_iff_eq_take.1 (whole_cut hp hcut (by omega))
    rw [List.take_append, List.take_of_length_le (by omega), length_contents] at hpre
    rw [hF, ← hpre]
  have hwhole : frameSize p ≤ p.length := Nat.le_of_eq hp.frameSize
  refine ⟨by omega, wp_mono (wp_feed h.log rfl hw.symm) ?_ ?_⟩
  · rintro _ s' ⟨-, ht⟩
    have := ht.dispatched hwhole
    rwa [List.append_assoc] at this
  · intro _ s' hhalt
    rcases hhalt with ⟨-, -, hs'⟩ | ⟨-, hs'⟩
    · rw [List.append_assoc] at hs'
      exact .inl hs'
    · exact .inr hs'

end

/-- The next chunk belongs to a packet that is still to come. -/
theorem exists_next {ps : List Bytes} {s : Obex} {c rest : Bytes} (hc : c ≠ [])
    (hcut : s.rxMsg.contents ++ (c ++ rest) = ps.flatten) : ∃ p qs, ps = p :: qs := by
  cases ps with
  | nil =>
    rw [List.flatten_nil, List.append_eq_nil_iff, List.append_eq_nil_iff] at hcut
    exact absurd hcut.2.1 hc
  | cons p qs => exact ⟨p, qs, rfl⟩

theorem framed_iff {base : List Bytes} {chunks : List Bytes} (hc : ∀ c ∈ chunks, c ≠ [])
    {done ps : List Bytes} {fed : Bytes} {s : Obex} (hp : ∀ p ∈ ps, Packet p)
    (h : Between base done ps s) (hfed : done.flatten ++ s.rxMsg.contents = fed)
    (hcut : s.rxMsg.contents ++ chunks.flatten = ps.flatten) :
    Framed E n (done ++ ps) base fed chunks s ↔ AllFit E n chunks s := by
  induction chunks generalizing done ps fed s with
  | nil => exact Iff.rfl
  | cons c cs ih =>
    have hc₀ : c ≠ [] := hc c List.mem_cons_self
    rw [List.flatten_cons] at hcut
    obtain ⟨p, qs, rfl⟩ := exists_next hc₀ hcut
    have hp₀ : Packet p := hp p List.mem_cons_self
    have hqs : ∀ q ∈ qs, Packet q := fun q hq => hp q (List.mem_cons_of_mem _ hq)
    rw [List.flatten_cons, ← List.append_assoc] at hcut
    have hfed' : done.flatten ++ (s.rxMsg.contents ++ c) = fed ++ c := by
      rw [← List.append_assoc, hfed]
    have hlost : done.flatten ++ [] ≠ fed ++ c := by
      rw [← hfed', List.append_nil]
      intro he
      have := List.append_right_eq_self.1 he.symm
      exact hc₀ (List.append_eq_nil_iff.1 this).2
    rw [Framed, AllFit]
    -- inside the packet the step is in order exactly when there is room; beyond it, never
    by_cases hin : (s.rxMsg.contents ++ c).length ≤ frameSize (s.rxMsg.contents ++ c)
    · have hstep := feed_inside (E := E) (n := n) h hp₀ hcut hin hqs
      cases hm : feed E n c s with
      | ok u s' =>
        obtain ⟨hroom, done', ps', hsplit, hsuf, h', hfed₁, hcut'⟩ := wp_ok hstep hm
        rw [wp_iff_ok hm, wp_iff_ok hm, ← hsplit]
        have hps' : ∀ q ∈ ps', Packet q := fun q hq => hp q (hsuf.subset hq)
        have hnext := ih (fun c hc' => hc c (List.mem_cons_of_mem _ hc')) hps' h'
          (hfed₁.trans hfed') hcut'
        have hstate := inStep_of h'.log (hfed₁.trans hfed') h'.short
        rw [hnext]
        exact ⟨fun hf => ⟨⟨hroom, hin⟩, hf.2⟩, fun hf => ⟨hstate, hf.2⟩⟩
      | error e s' =>
        rw [wp_iff_error hm, wp_iff_error hm]
        rcases wp_error hstep hm with ⟨hroom, hw, hs'⟩ | ⟨hroom, hs'⟩
        · refine ⟨fun _ => ⟨⟨hroom, hin⟩, trivial⟩, fun _ => ?_⟩
          rw [List.append_cons]
          refine inStep_of hs' ?_ fun q hq => (hqs q (List.mem_of_mem_head? hq)).pos
          rw [← hfed', hw, List.flatten_append, List.flatten_singleton, List.append_nil]
        · exact ⟨fun hf => absurd hf (not_inStep hs' hlost), fun hf => absurd hf.1.toRoom hroom⟩
    · obtain ⟨hlong, hstep⟩ := feed_beyond (E := E) (n := n) h hp₀ hcut (by omega)
      -- the bytes behind the packet are gone
      have hlost' : (done ++ [p]).flatten ++ [] ≠ fed ++ c := by
        rw [← hfed', List.flatten_append, List.flatten_singleton, List.append_nil]
        intro he
        have := congrArg List.length (List.append_cancel_left he)
        omega
      refine ⟨fun hf => ?_, fun hf => absurd hf.1.inside hin⟩
      cases hm : feed E n c s with
      | ok u s' =>
        rw [wp_iff_ok hm] at hf
        obtain ⟨hs', hempty⟩ := wp_ok hstep hm
        rw [hempty] at hf
        exact absurd hf.1 (not_inStep hs' hlost')
      | error e s' =>
        rw [wp_iff_error hm] at hf
        rcases wp_error hstep hm with hs' | hs'
        · exact absurd hf (not_inStep hs' hlost')
        · exact absurd hf (not_inStep hs' hlost)

/-! ## A whole run -/

/-- The bytes dispatched and held. -/
def accounted (s : Obex) : Nat := (dispatched s.log).flatten.length + s.rxMsg.dataSize

theorem Taken.accounted {L : List Bytes} {w : Bytes} {whole : Prop} {s : Obex}
    (h : Taken L w whole s) : s.trans.type = .custom ∧ accounted s = L.flatten.length + w.length := by
  have hlen := length_contents s.rxMsg
  unfold OpenObex.accounted
  by_cases hw : whole
  · obtain ⟨hs, hempty⟩ := h.dispatched hw
    rw [hempty, List.length_nil] at hlen
    refine ⟨hs.custom, ?_⟩
    rw [hs.log, ← hlen, List.flatten_append, List.flatten_singleton, List.length_append]
    omega
  · obtain ⟨hs, hkept⟩ := h.kept hw
    rw [hkept] at hlen
    exact ⟨hs.custom, by rw [hs.log, hlen]⟩

theorem accounted_feed {s : Obex} (hs : s.trans.type = .custom) (c : Bytes) :
    wp (feed E n c) (fun _ s' => s'.trans.type = .custom ∧ accounted s' ≤ accounted s + c.length)
      (fun _ _ => True) s := by
  refine wp_mono (wp_feed ⟨hs, rfl⟩ rfl rfl) ?_ fun _ _ _ => trivial
  rintro _ s' ⟨-, ht⟩
  obtain ⟨hs', hbytes⟩ := ht.accounted
  refine ⟨hs', ?_⟩
  rw [hbytes, List.length_append, length_contents, List.length_take]
  unfold accounted
  omega

theorem accounted_feeds {s : Obex} (hs : s.trans.type = .custom) (cs : List Bytes) :
    wp (iterate (feed E n) cs) (fun _ s' => accounted s' ≤ accounted s + cs.flatten.length)
      (fun _ _ => True) s := by
  induction cs generalizing s with
  | nil => exact Nat.le_refl _
  | cons c cs ih =>
    refine wp_seq (accounted_feed hs c) ?_
    rintro _ s₁ ⟨hs₁, hle⟩
    refine wp_conseq (ih hs₁) fun _ s' h => ?_
    rw [List.flatten_cons, List.length_append]
    omega

theorem run_feeds (cs : List Bytes) :
    run (E.ctx .all n) .all (cs.map .customDataFeed) = iterate (feed E n) cs := by
  rw [run]
  induction cs with
  | nil => rfl
  | cons c cs ih =>
    rw [List.map_cons, iterate, iterate, ih]
    rfl

/-- A run that returns. -/
theorem dispatched_iff {base : List Bytes} {chunks : List Bytes} (hc : ∀ c ∈ chunks, c ≠ [])
    {done ps : List Bytes} {s s' : Obex} (hp : ∀ p ∈ ps, Packet p) (h : Between base done ps s)
    (hcut : s.rxMsg.contents ++ chunks.flatten = ps.flatten)
    (hrun : iterate (feed E n) chunks s = .ok () s') :
    dispatched s'.log = base ++ (done ++ ps) ↔ AllFit E n chunks s := by
  induction chunks generalizing done ps s with
  | nil =>
    cases hrun
    cases ps with
    | nil => exact ⟨fun _ => trivial, fun _ => by rw [h.log.log, List.append_nil]⟩
    | cons p qs =>
      have hlen := congrArg List.length hcut
      have := h.short p rfl
      rw [List.flatten_nil, List.append_nil, List.flatten_cons, List.length_append] at hlen
      omega
  | cons c cs ih =>
    have hc₀ : c ≠ [] := hc c List.mem_cons_self
    rw [List.flatten_cons] at hcut
    obtain ⟨p, qs, rfl⟩ := exists_next hc₀ hcut
    have hp₀ : Packet p := hp p List.mem_cons_self
    have hqs : ∀ q ∈ qs, Packet q := fun q hq => hp q (List.mem_cons_of_mem _ hq)
    rw [List.flatten_cons, ← List.append_assoc] at hcut
    obtain ⟨s₁, hm, hrest⟩ : ∃ s₁, feed E n c s = .ok () s₁ ∧ iterate (feed E n) cs s₁ = .ok () s' := by
      simp only [iterate, Bind.bind, EStateM.bind] at hrun
      cases hm : feed E n c s with
      | ok u s₁ => exact ⟨s₁, rfl, by rwa [hm] at hrun⟩
      | error e s₁ => rw [hm] at hrun; cases hrun
    rw [AllFit, wp_iff_ok hm]
    by_cases hin : (s.rxMsg.contents ++ c).length ≤ frameSize (s.rxMsg.contents ++ c)
    · obtain ⟨hroom, done', ps', hsplit, hsuf, h', -, hcut'⟩ :=
        wp_ok (feed_inside (E := E) (n := n) h hp₀ hcut hin hqs) hm
      rw [← hsplit, ih (fun c hc' => hc c (List.mem_cons_of_mem _ hc'))
        (fun q hq => hp q (hsuf.subset hq))
        h' hcut' hrest]
      exact ⟨fun hf => ⟨⟨hroom, hin⟩, hf⟩, fun hf => hf.2⟩
    · obtain ⟨hlong, hstep⟩ := feed_beyond (E := E) (n := n) h hp₀ hcut (by omega)
      obtain ⟨hs₁, hempty⟩ := wp_ok hstep hm
      refine ⟨fun hlog => ?_, fun hf => absurd hf.1.inside hin⟩
      -- the bytes behind the packet are missing at the end
      have hbytes := wp_ok (accounted_feeds (E := E) (n := n) hs₁.custom cs) hrest
      have hcount := congrArg List.length hcut
      have hd := length_contents s₁.rxMsg
      rw [hempty] at hd
      unfold accounted at hbytes
      rw [hlog, hs₁.log] at hbytes
      simp only [List.flatten_append, List.flatten_cons, List.length_append, List.flatten_nil,
        List.length_nil] at hbytes hcount hlong hd
      omega

/-- The packets dispatched are those of the stream as long as every chunk fits. -/
theorem framing_iff (E : Env) (n : Nat) {s : Obex} {packets chunks : List Bytes}
    (hs : s.trans.type = .custom) (hempty : s.rxMsg.dataSize = 0) (hp : ∀ p ∈ packets, Packet p)
    (hc : ∀ c ∈ chunks, c ≠ []) (hcut : chunks.flatten = packets.flatten) :
    (Framed E n packets (dispatched s.log) [] chunks s ↔ AllFit E n chunks s) ∧
      ∀ s', run (E.ctx .all n) .all (chunks.map .customDataFeed) s = .ok () s' →
        (dispatched s'.log = dispatched s.log ++ packets ↔ AllFit E n chunks s) := by
  have hnil : s.rxMsg.contents = [] := contents_eq_nil hempty
  have h : Between (dispatched s.log) [] packets s := by
    refine ⟨⟨hs, (List.append_nil _).symm⟩, fun p h => ?_⟩
    rw [hnil]
    exact (hp p (List.mem_of_mem_head? h)).pos
  have hcut' : s.rxMsg.contents ++ chunks.flatten = packets.flatten := by rw [hnil]; exact hcut
  refine ⟨framed_iff hc hp h hnil hcut', fun s' hrun => ?_⟩
  rw [run_feeds] at hrun
  exact dispatched_iff hc hp h hcut' hrun

/-- Two PUT packets. -/
def twoPuts : List Bytes := [[0x02, 0x00, 0x03], [0x82, 0x00, 0x03]]

theorem twoPuts_packets : ∀ p ∈ twoPuts, Packet p := by
  intro p hp
  simp only [twoPuts, List.mem_cons, List.not_mem_nil, or_false] at hp
  rcases hp with rfl | rfl
  · exact .mk rfl
  · exact .mk rfl

/-- Fed at once, the second packet is lost. -/
theorem second_packet_lost :
    ¬ ∀ (E : Env) (n : Nat) (packets chunks : List Bytes), (∀ k, E.malloc k = true) →
      (∀ p ∈ packets, Packet p) → (∀ c ∈ chunks, c ≠ []) → chunks.flatten = packets.flatten →
      ∀ s', run (E.ctx .all n) .all (chunks.map .customDataFeed) (obexInit .custom) = .ok () s' →
        dispatched s'.log = packets := by
  intro h
  have hend : endsWith (run (quietPeer.ctx .all 1) .all ([twoPuts.flatten].map .customDataFeed))
      (obexInit .custom) (fun s => decide (dispatched s.log ≠ twoPuts)) = true := by
    decide +kernel
  obtain ⟨u, s', hrun, hne⟩ := exists_ok_of_endsWith hend
  have hall := h quietPeer 1 twoPuts [twoPuts.flatten] (fun _ => rfl) twoPuts_packets (by decide)
    (by decide) s' hrun
  exact of_decide_eq_true hne hall

/-- The two packets, cut where they end and elsewhere. -/
def cutPuts : List Bytes := [[0x02], [0x00, 0x03], [0x82, 0x00], [0x03]]

theorem framing_iff_twoPuts : AllFit quietPeer 1 cutPuts (obexInit .custom) := by
  have hend : endsWith (run (quietPeer.ctx .all 1) .all (cutPuts.map .customDataFeed))
      (obexInit .custom) (fun s => decide (dispatched s.log = twoPuts)) = true := by
    decide +kernel
  obtain ⟨u, s', hrun, heq⟩ := exists_ok_of_endsWith hend
  have hcut : cutPuts.flatten = twoPuts.flatten := by decide
  have hcustom : (obexInit .custom).trans.type = .custom := rfl
  obtain ⟨-, hreturns⟩ := framing_iff quietPeer 1 hcustom rfl twoPuts_packets (by decide) hcut
  exact (hreturns s' hrun).1 (of_decide_eq_true heq)

end OpenObex
