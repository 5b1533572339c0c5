import OpenObex.Proof.Events

/-!
# The environment of a run

What `Env.ctx` answers at any depth of nesting: the transport's functions log their result and ask
the guard, the event callback makes the application's calls one after the other. `wp_eventcb` turns a
statement about single calls into one about the callback.
-/

namespace OpenObex

open Mem Prog

variable {E : Env} {G : Guard} {n : Nat}

@[simp] theorem ctx_malloc : (E.ctx G n).malloc = E.malloc := by cases n <;> rfl

@[simp] theorem ctx_write : (E.ctx G n).write = E.transportWrite G := by cases n <;> rfl

@[simp] theorem ctx_read : (E.ctx G n).read = E.transportRead G := by cases n <;> rfl

@[simp] theorem ctx_recv : (E.ctx G n).recv = packetReceived G := by cases n <;> rfl

theorem wp_transportWrite {chunk : Bytes} {Q : Int → Obex → Prop} {R : Stop → Obex → Prop} {s : Obex}
    (h : G.write s (E.write s.log chunk) = true →
      Q (E.write s.log chunk) (s.emit (.io chunk (E.write s.log chunk))))
    (he : R .barred (s.emit (.io chunk (E.write s.log chunk)))) :
    wp (E.transportWrite G chunk) Q R s := by
  rw [Env.transportWrite, wp_bind, wp_get, wp_bind, wp_emit, wp_bind, wp_allowed]
  exact ⟨h, fun _ => he⟩

theorem wp_transportRead {valid : Bool} {max : Nat} {Q : Option Bytes → Obex → Prop}
    {R : Stop → Obex → Prop} {s : Obex}
    (h : ∀ r, G.read s r = true → Q r (s.emit (.read r)))
    (he : ∀ r, R .barred (s.emit (.read r))) :
    wp (E.transportRead G valid max) Q R s := by
  rw [Env.transportRead, wp_bind, wp_get, wp_bind, wp_emit, wp_bind, wp_allowed]
  exact ⟨h _, fun _ => he _⟩

theorem wp_packetReceived {Q : Unit → Obex → Prop} {R : Stop → Obex → Prop} {s : Obex}
    (h : G.recv s = true → Q () (s.emit (.recv s.rxMsg.contents)))
    (he : R .barred (s.emit (.recv s.rxMsg.contents))) : wp (packetReceived G) Q R s := by
  rw [packetReceived, wp_bind, wp_get, wp_bind, wp_emit, wp_allowed]
  exact ⟨h, fun _ => he⟩

/-- A bare response keeps what depends neither on the transmit buffer nor on the log. -/
theorem keeps_ctx_response {P : Obex → Prop} {R : Stop → Obex → Prop} (hR : Stops P R)
    (htx : ∀ s b, P s → P (s.setTxMsg b)) (hemit : ∀ s x, P s → P (s.emit x)) (opcode : UInt8) :
    Keeps P R (obexResponseRequest (E.ctx G n) opcode) := by
  refine keeps_responseRequest ⟨hR, htx, fun chunk s hs => ?_, by simp⟩ fun s b hs _ =>
    hemit _ _ (htx s b hs)
  rw [ctx_write]
  exact wp_transportWrite (fun _ => ⟨hemit s _ hs, by simp⟩) (hR _ _ (by simp) (hemit s _ hs))

/-! ## Reading -/

/-- What the read function of the transport may do; with `total` it has data. -/
structure ReadFrame (G : Guard) (P : Obex → Prop) (R : Stop → Obex → Prop) (total : Prop) : Prop where
  stop : Stops P R
  rxMsg : ∀ s b, P s → P (s.setRxMsg b)
  read : ∀ s r, P s → P (s.emit (.read r))
  some : total → ∀ s r, P s → G.read s r = true → ∃ b bs, r = some (b :: bs)

namespace ReadFrame

variable {P : Obex → Prop} {R : Stop → Obex → Prop} {total : Prop} (F : ReadFrame G P R total)
include F

theorem transportRead (valid : Bool) (max : Nat) :
    Yields P R (fun r => total → ∃ b bs, r = Option.some (b :: bs)) (E.transportRead G valid max) :=
  fun s hs => wp_transportRead (fun r hr => ⟨F.read s r hs, fun ht => F.some ht s r hs hr⟩) fun r =>
    F.stop _ _ (by simp) (F.read s r hs)

theorem transportRead_false (max : Nat) :
    Yields P R (fun _ => ¬ total) (E.transportRead G false max) := by
  intro s hs
  rw [Env.transportRead, wp_bind, wp_get, wp_bind, wp_emit, wp_bind, wp_allowed]
  refine ⟨fun hr => ⟨F.read s _ hs, fun ht => ?_⟩, fun _ => F.stop _ _ (by simp) (F.read s _ hs)⟩
  obtain ⟨b, bs, h⟩ := F.some ht s _ hs hr
  simp at h

theorem socketRead {max : Nat} (hmax : 0 < max) :
    Yields P R (fun r => total → 0 < r) (socketRead (E.ctx G n) max) := by
  refine Yields.get_bind fun s hs => ?_
  rw [ctx_malloc, ctx_read]
  split
  · exact Yields.bind (F.transportRead_false max) fun _ h => Yields.pure fun ht => absurd ht h
  refine Yields.bind_keeps (Keeps.set (F.rxMsg s _ hs)) fun _ => ?_
  refine Yields.bind (F.transportRead true max) fun r hr => ?_
  cases r with
  | none => exact Yields.pure fun ht => by simpa using hr ht
  | some bs =>
    refine Yields.bind_keeps (keeps_require F.stop (by simp) _) fun m => ?_
    refine Yields.bind_keeps (Keeps.modify fun s hs => F.rxMsg s _ hs) fun _ => ?_
    refine Yields.pure fun ht => ?_
    obtain ⟨b, bs', h⟩ := hr ht
    simp only [Option.some.injEq] at h
    simp only [h, List.length_take, List.length_cons]
    omega

theorem usbRead (hmtu : total → ∀ s, P s → 0 < s.mtuRx) :
    Yields P R (fun r => total → 0 < r) (usbRead (E.ctx G n)) := by
  refine Yields.get_bind fun s hs => ?_
  rw [ctx_malloc, ctx_read]
  split
  · exact Yields.bind (F.transportRead_false _) fun _ h => Yields.pure fun ht => absurd ht h
  refine Yields.bind_keeps (Keeps.set (F.rxMsg s _ hs)) fun _ => ?_
  refine Yields.bind (F.transportRead true _) fun r hr => ?_
  cases r with
  | none =>
    refine Yields.bind_keeps (Keeps.modify fun s hs => F.rxMsg s _ hs) fun _ => ?_
    exact Yields.pure fun ht => by simpa using hr ht
  | some bs =>
    refine Yields.bind_keeps (keeps_require F.stop (by simp) _) fun m => ?_
    refine Yields.bind_keeps (Keeps.modify fun s hs => F.rxMsg s _ hs) fun _ => ?_
    refine Yields.pure fun ht => ?_
    obtain ⟨b, bs', h⟩ := hr ht
    simp only [Option.some.injEq] at h
    have := hmtu ht s hs
    simp only [h, List.length_take, List.length_cons]
    omega

theorem customRead (max : Nat) (buf : Bytes) (buflen : Int) :
    Keeps P R (customRead (E.ctx G n) max buf buflen) := by
  refine Keeps.get_bind fun s hs => Keeps.bind (keeps_copyFrom F.stop _ _ _) fun _ => ?_
  refine Keeps.bind (keeps_require F.stop (by simp) _) fun _ => ?_
  refine Keeps.bind (keeps_require F.stop (by simp) _) fun m => ?_
  exact Keeps.bind (Keeps.set (F.rxMsg s _ hs)) fun _ => Keeps.pure _

theorem obexTransportRead {max : Nat} (buf : Bytes) (buflen : Int) (hmax : 0 < max)
    (hc : total → ∀ s, P s → s.trans.type ≠ .custom)
    (husb : total → ∀ s, P s → s.trans.type = .usb → s.trans.connected = true)
    (hmtu : total → ∀ s, P s → 0 < s.mtuRx) :
    Yields P R (fun r => total → 0 < r) (obexTransportRead (E.ctx G n) max buf buflen) := by
  refine Yields.get_bind fun s hs => ?_
  cases ht : s.trans.type with
  | usb =>
    refine Yields.ite (fun _ => F.usbRead hmtu) fun hc => ?_
    exact Yields.pure fun hT => absurd (husb hT s hs ht) hc
  | custom =>
    refine fun s' hs' => wp_mono (F.customRead max buf buflen s' hs') (fun r s'' h => ?_)
      fun _ _ he => he
    exact ⟨h, fun hT => absurd ht (hc hT s hs)⟩
  | irda => exact F.socketRead hmax
  | inet => exact F.socketRead hmax
  | bluetooth => exact F.socketRead hmax
  | fd => exact F.socketRead hmax

end ReadFrame

/-! ## Incoming data

`P` holds while data is read, `Q` after the packet is dispatched or the link has failed; it fails only
if no data is fed and, by `hread`, only if not `busy`. -/

/-- `rx_msg` holds a whole packet; `final` tells whether its opcode has the final bit. -/
def Whole (s : Obex) (final : Bool) : Prop :=
  3 ≤ s.rxMsg.dataSize ∧ ∃ op, s.rxMsg.contents[0]? = some op ∧ final = decide (op &&& obexFinal ≠ 0)

section
variable {C : Ctx} {P Q : Obex → Prop} {R : Stop → Obex → Prop} {busy : Prop}
  (hR : Stops P R) (hPQ : ∀ s, P s → Q s)
  (hread : ∀ max buf buflen, 0 < max →
    Yields P R (fun r => busy → 0 < r) (obexTransportRead C max buf buflen))
  (hdispatch : ∀ s final, P s → Whole s final → wp (dispatch C final) (fun _ => Q) R s)
include hR hPQ hread hdispatch

theorem wp_indicationRest {buf : Option Bytes} {buflen : Int} {s : Obex} (hs : P s)
    (h3 : 3 ≤ s.rxMsg.dataSize)
    (hlink : buf = none → ¬ busy → ∀ s actual, P s → wp (linkError C actual) (fun _ => Q) R s) :
    wp (indicationRest C buf buflen) (fun _ => Q) R s := by
  have hstop (e : Stop) (he : e ≠ .fault .nullObject) : R e s := hR e s he hs
  rw [indicationRest, wp_bind, wp_get, wp_bind]
  refine wp_byteAt (fun a _ => ?_) (hstop _ (by simp))
  rw [wp_bind]
  refine wp_byteAt (fun b _ => ?_) (hstop _ (by simp))
  -- a packet that is read on has a length above the three bytes that are there
  have hdown : wp (if s.rxMsg.dataSize < ofBe16 a b then do
        let actual ← obexTransportRead C (ofBe16 a b - s.rxMsg.dataSize) (buf.getD []) buflen
        pure (if buf = none ∧ buflen = 0 ∧ actual ≤ 0 then some actual else none)
      else pure none) (fun (r : Option Int) s' => P s' ∧ (r ≠ none → buf = none ∧ ¬ busy) ∧
        (s'.rxMsg.dataSize < ofBe16 a b ∨ 3 ≤ s'.rxMsg.dataSize)) R s := by
    refine wp_ite.2 ⟨fun h => ?_, fun _ => ⟨hs, by simp, .inr h3⟩⟩
    refine wp_seq (hread _ _ _ (by omega) s hs) fun r s' hr => ?_
    refine ⟨hr.1, fun hne => ?_, by omega⟩
    by_cases hd : buf = none ∧ buflen = 0 ∧ r ≤ 0
    · exact ⟨hd.1, fun hb => by have := hr.2 hb; omega⟩
    · exact absurd (if_neg hd) hne
  refine wp_seq hdown ?_
  rintro down s₃ ⟨hs₃, hx, hsize⟩
  cases down with
  | some actual =>
    obtain ⟨hb, hbusy⟩ := hx (by simp)
    exact hlink hb hbusy s₃ actual hs₃
  | none =>
    dsimp only
    rw [wp_bind, wp_get]
    refine wp_ite.2 ⟨fun _ => hPQ s₃ hs₃, fun hle => ?_⟩
    refine wp_ite.2 ⟨fun _ => hR _ _ (by simp) hs₃, fun _ => ?_⟩
    have h3 : 3 ≤ s₃.rxMsg.dataSize := hsize.resolve_left hle
    rw [wp_bind]
    refine wp_byteAt (fun op hop => ?_) (hR _ _ (by simp) hs₃)
    exact hdispatch s₃ _ hs₃ ⟨h3, op, hop (by omega), rfl⟩

theorem wp_dataIndication {buf : Option Bytes} {buflen : Int} {s : Obex} (hs : P s)
    (hlink : buf = none → ¬ busy → ∀ s actual, P s → wp (linkError C actual) (fun _ => Q) R s) :
    wp (obexDataIndication C buf buflen) (fun _ => Q) R s := by
  rw [obexDataIndication, wp_bind, wp_get]
  split
  · refine wp_seq (hread _ _ _ (by omega) s hs) ?_
    rintro actual s₁ ⟨hs₁, hr⟩
    split
    · rename_i hd
      exact hlink hd.1 (fun hb => by have := hr hb; omega) s₁ actual hs₁
    · rw [wp_bind, wp_get]
      split
      · refine wp_indicationRest hR hPQ hread hdispatch hs₁ ‹_› fun h => ?_
        cases buf with
        | none => exact hlink rfl
        | some b => simp [advance] at h
      · exact hPQ s₁ hs₁
  · exact wp_indicationRest hR hPQ hread hdispatch hs (by omega) hlink

end

/-- On USB nothing is read before the transport is connected. -/
theorem wp_dataIndication_disconnected {C : Ctx} {Q : Obex → Prop} {R : Stop → Obex → Prop}
    {buf : Option Bytes} {buflen : Int} {s : Obex} (ht : s.trans.type = .usb)
    (hc : s.trans.connected ≠ true) (hd : s.rxMsg.dataSize < 3) (hs : Q s)
    (hlink : ∀ actual, wp (linkError C actual) (fun _ => Q) R s) :
    wp (obexDataIndication C buf buflen) (fun _ => Q) R s := by
  have hread : wp (obexTransportRead C (3 - s.rxMsg.dataSize) (buf.getD []) buflen)
      (fun r s' => r = -1 ∧ s' = s) R s := by
    rw [obexTransportRead, wp_bind, wp_get]
    simp only [ht, if_neg hc]
    exact ⟨rfl, rfl⟩
  rw [obexDataIndication, wp_bind, wp_get, if_pos hd]
  refine wp_seq hread ?_
  rintro _ _ ⟨rfl, rfl⟩
  split
  · exact hlink _
  · rw [wp_bind, wp_get, if_neg (by omega)]
    exact hs

/-! ## The callback and the run -/

/-- What every call that the application makes keeps, the callback keeps. -/
theorem wp_eventcb {P : Obex → Prop} {R : Stop → Obex → Prop} {notice : Notice} {s : Obex}
    (hR : Stops P R) (hs : P s)
    (hcall : ∀ m, m < n → ∀ c ∈ E.app s.log, ∀ s, P s → G.nested c s = true →
      wp (api (E.ctx G m) c) (fun _ => P) R s) :
    wp ((E.ctx G n).eventcb notice) (fun _ s' => P s' ∧ G.after notice s' = true) R s := by
  cases n with
  | zero => exact hR _ s (by simp) hs
  | succ n =>
    rw [Env.ctx, wp_bind, wp_get, wp_bind]
    refine wp_mono (Keeps.iterate (P := P) _ (fun c hc => ?_) s hs) (fun _ s' hs' => ?_)
      fun _ _ he => he
    · intro s hs
      rw [nestedCall, wp_bind, wp_get, wp_bind, wp_allowed]
      refine ⟨fun hg => ?_, fun _ => hR _ s (by simp) hs⟩
      rw [wp_bind]
      exact hcall n (Nat.lt_succ_self n) c hc s hs hg
    · rw [wp_bind, wp_get, wp_allowed]
      exact ⟨fun hg => ⟨hs', hg⟩, fun _ => hR _ s' (by simp) hs'⟩

/-- What every step keeps, a run keeps. -/
theorem wp_run {P : Obex → Prop} {R : Stop → Obex → Prop} {C : Ctx} {ops : List Op} {s : Obex}
    (hR : Stops P R) (hs : P s)
    (hop : ∀ op ∈ ops, ∀ s, P s → G.op op s = true → wp (runOp C G op) (fun _ => P) R s) :
    wp (run C G ops) (fun _ => P) R s := by
  rw [run]
  refine Keeps.iterate (P := P) ops (fun op ho s hs => ?_) s hs
  cases hg : G.op op s with
  | true => exact hop op ho s hs hg
  | false =>
    rw [runOp, wp_bind, wp_get, wp_bind, wp_allowed]
    exact ⟨fun h => by simp [hg] at h, fun _ => hR _ s (by simp) hs⟩

/-! ## Concrete runs -/

/-- An application that leaves everything to the library, and a peer that accepts everything. -/
def quietPeer : Env where
  malloc _ := true
  app _ := []
  write _ d := d.length
  read _ _ := none

/-- A buffer that holds a packet and nothing else. -/
def packetBuf (d : Bytes) : Buf :=
  { freshBuf 0 with
    buffer := d
    dataSize := d.length
    size_eq := by simp [freshBuf] }

theorem contents_packetBuf (d : Bytes) : (packetBuf d).contents = d := List.take_length

/-- `m` returns from `s`, in a state with `f`. -/
def endsWith {α : Type} (m : M α) (s : Obex) (f : Obex → Bool) : Bool :=
  match m s with
  | .ok _ s' => f s'
  | .error _ _ => false

/-- `m` stops with `e`, in a state with `f`. -/
def stopsWith {α : Type} (m : M α) (s : Obex) (e : Stop) (f : Obex → Bool) : Bool :=
  match m s with
  | .ok _ _ => false
  | .error e' s' => decide (e' = e) && f s'

/-- `m` returns a value with `f` from `s`. -/
def returnsWith {α : Type} (m : M α) (s : Obex) (f : α → Bool) : Bool :=
  match m s with
  | .ok a _ => f a
  | .error _ _ => false

theorem exists_of_returnsWith {α : Type} {m : M α} {s : Obex} {f : α → Bool}
    {Q : α → Obex → Prop} {R : Stop → Obex → Prop} (h : returnsWith m s f = true)
    (hw : wp m Q R s) : ∃ a s', f a = true ∧ Q a s' := by
  unfold returnsWith at h
  unfold wp at hw
  split at h
  · rw [‹m s = _›] at hw
    exact ⟨_, _, h, hw⟩
  · cases h

theorem exists_of_endsWith {α : Type} {m : M α} {s : Obex} {f : Obex → Bool}
    {Q : α → Obex → Prop} {R : Stop → Obex → Prop} (h : endsWith m s f = true) (hw : wp m Q R s) :
    ∃ a s', f s' = true ∧ Q a s' := by
  unfold endsWith at h
  unfold wp at hw
  split at h
  · rw [‹m s = _›] at hw
    exact ⟨_, _, h, hw⟩
  · cases h

theorem exists_ok_of_endsWith {α : Type} {m : M α} {s : Obex} {f : Obex → Bool}
    (h : endsWith m s f = true) : ∃ a s', m s = .ok a s' ∧ f s' = true := by
  unfold endsWith at h
  split at h
  · exact ⟨_, _, ‹m s = _›, h⟩
  · cases h

theorem exists_of_stopsWith {α : Type} {m : M α} {s : Obex} {e : Stop} {f : Obex → Bool}
    {Q : α → Obex → Prop} {R : Stop → Obex → Prop} (h : stopsWith m s e f = true)
    (hw : wp m Q R s) : ∃ s', f s' = true ∧ R e s' := by
  unfold stopsWith at h
  unfold wp at hw
  split at h
  · cases h
  · rw [‹m s = _›] at hw
    simp only [Bool.and_eq_true, decide_eq_true_eq] at h
    exact ⟨_, h.2, h.1 ▸ hw⟩

end OpenObex
