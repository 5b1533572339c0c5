import OpenObex.Proof.Streaming

/-!
# A stream from its first packet to its last

An object with one stream header is built with `OBEX_ObjectAddHeader` and sent packet by packet, with
anything between the packets that leaves its transmit side alone (`Meanwhile`), suspends and resumes
among it. In every such run (`Streamed`) the fragments in the packets, read by their own length
fields (`Decodes`), are what the application has handed out, and each packet leaves less to send
(`stream_intact`).
-/

namespace OpenObex

open Mem Prog Chunked

/-! ## Reading the packets -/

/-- The packets of the object at `p`. -/
def packetsOf (p : Ptr) (log : List Obs) : List Bytes := log.filterMap fun
  | .write (some q) _ d => if q = p then some d else none
  | _ => none

theorem packetsOf_append (p : Ptr) (xs ys : List Obs) :
    packetsOf p (xs ++ ys) = packetsOf p xs ++ packetsOf p ys := List.filterMap_append

theorem packetsOf_write (p : Ptr) (kind : PacketKind) (d : Bytes) (xs : List Obs) :
    packetsOf p (.write (some p) kind d :: xs) = d :: packetsOf p xs :=
      List.filterMap_cons_some (if_pos rfl)

/-- The packets hold the headers `hs`, the first one behind `front`. -/
inductive Decodes : Bytes → List Bytes → List Head → Prop
  | nil (front : Bytes) : Decodes front [] []
  | cons {front : Bytes} {opcode : UInt8} {ds : List Bytes} {hs hs' : List Head}
    (hv : ∀ h ∈ hs, h.Valid)
      (hd : Decodes [] ds hs') : Decodes front (packet opcode (front ++ hs.flatMap Head.encode) :: ds)
      (hs ++ hs')

namespace Head

theorem encode_head (h : Head) : h.encode.head? = some h.hi := by
  unfold encode
  split <;> rfl

theorem Valid.encode_inj {h h' : Head} (hv : h.Valid) (hv' : h'.Valid) (he : h.encode = h'.encode) :
    h = h' := by
  have hhi : h.hi = h'.hi := by
    have hfirst := congrArg List.head? he
    rw [encode_head, encode_head] at hfirst
    exact Option.some_inj.1 hfirst
  have hval : h.value = h'.value := by
    rcases kinds h.hi with hk | hk
    · have hk' := hk
      rw [hhi] at hk'
      rw [(hv.fixed hk).1, (hv'.fixed hk').1] at he
      exact (List.cons.inj he).2
    · have hk' := hk
      rw [hhi] at hk'
      rw [(hv.sized hk).1, (hv'.sized hk').1] at he
      exact (List.append_inj he rfl).2
  cases h
  cases h'
  cases hhi
  cases hval
  rfl

/-- The headers of a packet can be read in one way. -/
theorem flatMap_encode_inj {hs hs' : List Head} (hv : ∀ h ∈ hs, h.Valid) (hv' : ∀ h ∈ hs', h.Valid)
    (he : hs.flatMap encode = hs'.flatMap encode) : hs = hs' := by
  induction hs generalizing hs' with
  | nil =>
    cases hs' with
    | nil => rfl
    | cons h' hs' =>
      rw [List.flatMap_nil, List.flatMap_cons] at he
      have hnil := (List.append_eq_nil_iff.1 he.symm).1
      exact absurd hnil (hv' h' List.mem_cons_self).header.ne_nil
  | cons h hs ih =>
    have hh := hv h List.mem_cons_self
    cases hs' with
    | nil =>
      rw [List.flatMap_nil, List.flatMap_cons] at he
      exact absurd (List.append_eq_nil_iff.1 he).1 hh.header.ne_nil
    | cons h' hs' =>
      have hh' := hv' h' List.mem_cons_self
      rw [List.flatMap_cons, List.flatMap_cons] at he
      have hfirst := header_code.unique hh.header hh'.header he
      rw [hfirst] at he
      rw [hh.encode_inj hh' hfirst, ih (fun e hm => hv e (List.mem_cons_of_mem _ hm))
        (fun e hm => hv' e (List.mem_cons_of_mem _ hm)) (List.append_cancel_left he)]

end Head

namespace Decodes

variable {front : Bytes} {ds : List Bytes} {hs hs' : List Head}

theorem snoc (h : Decodes front ds hs) (hv : ∀ e ∈ hs', e.Valid) (opcode : UInt8) :
    Decodes front (ds ++ [packet opcode ((if ds = [] then front else []) ++ hs'.flatMap Head.encode)])
      (hs ++ hs') := by
  induction h with
  | nil front =>
    have hone : Decodes front [packet opcode (front ++ hs'.flatMap Head.encode)] (hs' ++ []) :=
      .cons hv (.nil [])
    rw [List.append_nil] at hone
    rw [if_pos rfl]
    exact hone
  | @cons front op ds hs₁ hs₂ hv₁ hd ih =>
    rw [ite_self] at ih
    rw [if_neg (List.cons_ne_nil _ _), List.append_assoc]
    exact .cons hv₁ ih

theorem unique (h : Decodes front ds hs) (h' : Decodes front ds hs') : hs = hs' := by
  induction h generalizing hs' with
  | nil front =>
    cases h'
    rfl
  | @cons front op ds hs₁ hs₂ hv₁ hd ih =>
    generalize hds : packet op (front ++ hs₁.flatMap Head.encode) :: ds = ps at h'
    cases h' with
    | nil => cases hds
    | @cons _ op' ds' hs₃ hs₄ hv₃ hd' =>
      obtain ⟨hpacket, hrest⟩ := List.cons.inj hds
      obtain ⟨-, hbody⟩ := List.append_inj hpacket rfl
      rw [hrest] at ih
      rw [Head.flatMap_encode_inj hv₁ hv₃ (List.append_cancel_left hbody), ih hd']

end Decodes

/-! ## Runs -/

/-- The transmit side of an object. -/
def ObexObject.tx (o : ObexObject) :
    List HeaderElement × Option Buf × Option Bytes × Nat × Nat × Bool :=
  (o.txHeaderq, o.txNonhdrData, o.sBuf, o.sLen, o.sOffset, o.sStop)

/-- Anything that leaves the MTU and the transmit side of the object at `p` alone, sends nothing of it
and asks for no data. -/
structure Meanwhile (p : Ptr) (s t : Obex) : Prop where
  mtuTx : t.mtuTx = s.mtuTx
  object : ∀ o, s.objects p = some o → ∃ o', t.objects p = some o' ∧ o'.tx = o.tx
  log : ∃ xs, t.log = s.log ++ xs ∧ packetsOf p xs = [] ∧ ∀ x ∈ xs, x.isAsk = false

/-- An update of another field of the object, such as a suspend or a resume. -/
theorem Meanwhile.update {p : Ptr} {s : Obex} {o : ObexObject} (ho : s.objects p = some o)
    {f : ObexObject → ObexObject} (hf : (f o).tx = o.tx) :
    Meanwhile p s (s.setObject p (some (f o))) := by
  refine ⟨rfl, fun o' ho' => ⟨f o, objects_setObject _ _ _, ?_⟩, [], (List.append_nil _).symm, rfl, ?_⟩
  · rw [ho] at ho'
    cases ho'
    exact hf
  · exact fun _ hx => (List.not_mem_nil hx).elim

/-- `OBEX_SuspendRequest` leaves the transmit side alone. -/
theorem suspendRequest_meanwhile {p : Ptr} {s : Obex} {o : ObexObject} (ho : s.objects p = some o) :
    wp (obexSuspendRequest (some p)) (fun _ t => Meanwhile p s t) (fun _ _ => False) s := by
  rw [obexSuspendRequest, wp_bind, wp_get]
  show wp (obexObjectSuspend p) _ _ _
  rw [obexObjectSuspend, wp_bind, wp_update, ho]
  refine ⟨fun o' ho' => ?_, fun hno => by cases hno⟩
  cases ho'
  exact Meanwhile.update ho (f := fun o => { o with suspend := true }) rfl

/-- Whatever is left of the stream, the next packet is not cramped. -/
def Spacious (E : Env) (s : Obex) (o : ObexObject) : Prop :=
  ∀ σ : Source UInt8, σ.Sound → Cursor σ o → Supplies E (asks s.log) σ →
    ¬ Cramped s.txMsg.buffer.length σ o.txHeaderq o.nonhdr.length (initialTxLeft s)

theorem Hands.unique {c : Call} {x y : Bool × Bytes} (h : Hands c x) (h' : Hands c y) : x = y := by
  obtain ⟨_, _, _, _, _, rfl, hend, -, htake, -⟩ := h
  obtain ⟨_, _, _, _, _, hc, hend', -, htake', -⟩ := h'
  cases hc
  exact Prod.ext (hend.symm.trans hend') (htake.symm.trans htake')

theorem Supplies.answers_eq {E : Env} {k : Nat} {σ τ : Source UInt8} (h : Supplies E k σ)
    (h' : Supplies E k τ) :
    σ.answers = τ.answers := by
  refine List.ext_getElem? fun i => ?_
  -- a log that asks for the answer
  obtain ⟨n, hn⟩ : ∃ n : Notice, n.event = .streamempty :=
    ⟨{ mode := .cli, object := none, event := .streamempty, cmd := 0, rsp := 0, data := none }, rfl⟩
  have hlog : asks (List.replicate (k + i) (.event n)) = k + i :=
    (List.countP_replicate ..).trans (if_pos (decide_eq_true hn))
  have hσ := h _ n i hn hlog
  have hτ := h' _ n i hn hlog
  cases hx : σ.answers[i]? with
  | none =>
    rw [hx] at hσ
    cases hy : τ.answers[i]? with
    | none => rfl
    | some y =>
      rw [hy] at hτ
      obtain ⟨c, happ, -⟩ := hτ
      exact absurd (hσ.symm.trans happ) (List.cons_ne_nil _ _).symm
  | some x =>
    rw [hx] at hσ
    obtain ⟨c, happ, hc⟩ := hσ
    cases hy : τ.answers[i]? with
    | none =>
      rw [hy] at hτ
      exact absurd (happ.symm.trans hτ) (List.cons_ne_nil _ _)
    | some y =>
      rw [hy] at hτ
      obtain ⟨c', happ', hc'⟩ := hτ
      have hcc : c = c' := (List.cons.inj (happ.symm.trans happ')).1
      rw [hcc] at hc
      rw [hc.unique hc']

/-- The object and the application decide what is left of the stream. -/
theorem source_unique {E : Env} {k : Nat} {o : ObexObject} {σ τ : Source UInt8} (hσ : σ.Sound)
    (hτ : τ.Sound) (hc : Cursor σ o) (hc' : Cursor τ o) (hs : Supplies E k σ) (hs' : Supplies E k τ) :
    σ = τ := by
  have hpending : σ.pending = τ.pending := by
    have hlen : σ.pending.length = τ.pending.length := hc.len.symm.trans hc'.len
    by_cases hnil : σ.pending = []
    · rw [hnil] at hlen ⊢
      exact (List.length_eq_zero_iff.1 hlen.symm).symm
    · have hnil' : τ.pending ≠ [] := fun h => hnil (List.length_eq_zero_iff.1 (by rw [hlen, h]; rfl))
      obtain ⟨b, hb, -, hd⟩ := hc.data hnil
      obtain ⟨b', hb', -, hd'⟩ := hc'.data hnil'
      rw [hb] at hb'
      cases hb'
      exact hd.symm.trans hd'
  have hstop : σ.last.isNone = τ.last.isNone := hc.stop.symm.trans hc'.stop
  have hanswers := hs.answers_eq hs'
  unfold Source.answers at hanswers
  obtain ⟨hchunks, hlast⟩ : σ.chunks = τ.chunks ∧ σ.last = τ.last := by
    cases hl : σ.last with
    | none =>
      rw [hl] at hstop
      have hl' : τ.last = none := Option.isNone_iff_eq_none.1 hstop.symm
      exact ⟨(hσ.exhausted hl).trans (hτ.exhausted hl').symm, hl'.symm⟩
    | some e =>
      cases hl' : τ.last with
      | none =>
        rw [hl, hl'] at hstop
        cases hstop
      | some e' =>
        rw [hl, hl'] at hanswers
        obtain ⟨hfirst, hend⟩ := List.append_inj' hanswers rfl
        have hinj : Function.Injective fun c : Bytes => (false, c) := fun a b hab => (Prod.mk.inj hab).2
        cases hend
        exact ⟨List.map_injective_iff.2 hinj hfirst, rfl⟩
  cases σ
  cases τ
  cases hpending
  cases hchunks
  cases hlast
  rfl

theorem spacious_of_source {E : Env} {s : Obex} {o : ObexObject} {σ : Source UInt8} (hσ : σ.Sound)
    (hc : Cursor σ o) (hs : Supplies E (asks s.log) σ)
    (hno : ¬ Cramped s.txMsg.buffer.length σ o.txHeaderq o.nonhdr.length (initialTxLeft s)) :
    Spacious E s o := by
  intro τ hτ hc' hs'
  rwa [source_unique hτ hσ hc' hc hs' hs]

/-- The next packet of the object at `p` can be sent: the first header fits in an empty packet, and
the packet is not cramped. -/
structure Able (E : Env) (p : Ptr) (s : Obex) (o : ObexObject) : Prop where
  object : s.objects p = some o
  current : s.object = some p
  running : o.suspend = false
  free : ¬ Blocked s.mtuTx (initialTxLeft s) o.txHeaderq
  spacious : Spacious E s o

/-- A run of packets, of which `k` are sent from a queue that is not empty. The stream has `N`
chunks. -/
inductive Streamed (E : Env) (p : Ptr) (N : Nat) : Nat → Obex → Obex → Prop
  | nil (s : Obex) : Streamed E p N 0 s s
  | packet {n k : Nat} {a f : Bool} {r : Int} {s t u : Obex} {o : ObexObject} (h : Able E p s o)
      (hn : o.txHeaderq.length + N + 2 ≤ n) (hrun : obexObjectSend (E.ctx .all n) p a f s = .ok r t)
      (hrest : Streamed E p N k t u) : Streamed E p N (k + if o.txHeaderq.isEmpty then 0 else 1) s u
  | meanwhile {k : Nat} {s t u : Obex} (h : Meanwhile p s t) (hrest : Streamed E p N k t u) :
      Streamed E p N k s u

/-- Since `base` the headers `hs` have been sent, and `x` is left. -/
structure Conveyed (E : Env) (p : Ptr) (N mtu : Nat) (front total : Bytes) (base : List Obs)
    (x : Option (Source UInt8)) (hs : List Head) (xs : List Obs) (s : Obex) (o : ObexObject) :
    Prop where
  streams : Streams E p x s o
  log : s.log = base ++ xs
  decodes : Decodes front (packetsOf p xs) hs
  front : o.nonhdr = if packetsOf p xs = [] then front else []
  carries : Carries (some total) hs (remains x)
  chunks : chunksLeft x ≤ N
  mtuTx : s.mtuTx = mtu

section
variable {E : Env} {p : Ptr} {N mtu : Nat} {front total : Bytes} {base : List Obs}
  {x : Option (Source UInt8)} {hs : List Head} {xs : List Obs} {s t u : Obex} {o : ObexObject}

theorem packetsOf_quiet {xs : List Obs} (hxs : ∀ x ∈ xs, x.isAsk = true ∨ ∃ chunk r, x = .io chunk r) :
    packetsOf p xs = [] := by
  refine List.filterMap_eq_nil_iff.2 fun x hx => ?_
  obtain hask | ⟨chunk, r, rfl⟩ := hxs x hx
  · cases x with
    | event n => rfl
    | _ => cases hask
  · rfl

/-- The call comes back, with one more packet. -/
theorem Conveyed.send (h : Conveyed E p N mtu front total base x hs xs s o)
    (hm : ∀ k, E.malloc k = true) (hmtu : 255 ≤ mtu ∧ mtu ≤ 65535) (ha : Able E p s o) {n : Nat}
    (hn : o.txHeaderq.length + N + 2 ≤ n) (a f : Bool) :
    wp (obexObjectSend (E.ctx .all n) p a f) (fun _ t => ∃ x' hs' xs' o',
      Conveyed E p N mtu front total base x' hs' xs' t o' ∧
      (weigh x' o'.txHeaderq + if o.txHeaderq.isEmpty then 0 else 1) ≤ weigh x o.txHeaderq)
      (fun _ _ => False) s := by
  obtain ⟨n, rfl⟩ : ∃ k, n = k + 1 := ⟨n - 1, by omega⟩
  have hchunks := h.chunks
  have hrounds : ∀ σ, x = some σ → σ.rounds ≤ n + 1 := by
    intro σ hσ
    rw [hσ] at hchunks
    have hle : σ.chunks.length ≤ N := hchunks
    unfold Source.rounds
    split <;> omega
  have hclear : Clears s.txMsg.buffer.length x o.txHeaderq o.nonhdr.length (initialTxLeft s) := by
    intro σ hσ
    have hcourse := h.streams.course
    rw [hσ] at hcourse
    exact ha.spacious σ hcourse.sound hcourse.cursor hcourse.supplies
  refine wp_conseq (h.streams.send hm ha.current ha.running (by rw [h.mtuTx]; exact hmtu)
    (by omega) hrounds hclear a f)
    fun _ t ht => ?_
  obtain ⟨x', hs', o', hsent⟩ := ht
  obtain ⟨ys, kind, opcode, zs, hasks, hans, hlog⟩ := hsent.log
  generalize hd : packet opcode (o.nonhdr ++ hs'.flatMap Head.encode) = d at hlog
  have hpackets : packetsOf p (xs ++ (ys ++ .write (some p) kind d :: zs)) = packetsOf p xs ++ [d] := by
    have hys : packetsOf p ys = [] := packetsOf_quiet fun y hy => .inl (hasks y hy)
    have hzs : packetsOf p zs = [] := packetsOf_quiet fun y hy => .inr (hans y hy)
    rw [packetsOf_append, packetsOf_append, hys, List.nil_append, packetsOf_write, hzs]
  refine ⟨x', hs ++ hs', xs ++ (ys ++ .write (some p) kind d :: zs), o',
    ⟨hsent.sending, ?_, ?_, ?_, h.carries.append hsent.carries, Nat.le_trans hsent.chunks h.chunks,
      hsent.mtuTx.trans h.mtuTx⟩, ?_⟩
  · rw [hlog, h.log]
    simp only [List.append_assoc]
  · rw [hpackets, ← hd, h.front]
    exact h.decodes.snoc hsent.carries.valid opcode
  · rw [hpackets, if_neg (by simp), ObexObject.nonhdr, hsent.nonhdr]
    rfl
  · cases hq : o.txHeaderq with
    | nil =>
      have hw := hsent.weighs
      rw [hq] at hw
      exact hw
    | cons e es =>
      have hw := hsent.less (by rw [hq]; exact List.cons_ne_nil _ _) ha.free
      rw [hq] at hw
      exact hw

theorem Conveyed.meanwhile (h : Conveyed E p N mtu front total base x hs xs s o)
    (hmid : Meanwhile p s t) :
    ∃ xs' o', Conveyed E p N mtu front total base x hs xs' t o' ∧ o'.txHeaderq = o.txHeaderq := by
  obtain ⟨ho, hcourse, hd⟩ := h.streams
  obtain ⟨o', ho', htx⟩ := hmid.object o ho
  obtain ⟨ys, hlog, hpackets, hquiet⟩ := hmid.log
  obtain ⟨hq, hnon, hbuf, hlen, hoff, hstop⟩ : o'.txHeaderq = o.txHeaderq ∧ o'.txNonhdrData =
    o.txNonhdrData ∧
      o'.sBuf = o.sBuf ∧ o'.sLen = o.sLen ∧ o'.sOffset = o.sOffset ∧ o'.sStop = o.sStop := by
    simpa [ObexObject.tx] using htx
  have hcourse' : Course E t.mtuTx x t.log o' o'.txHeaderq := by
    rw [hmid.mtuTx, hlog, hq]
    refine Course.log ?_ hquiet
    cases x with
    | none => exact hcourse
    | some σ =>
      refine ⟨hcourse.sound, hcourse.opened, ⟨?_, ?_, ?_⟩, hcourse.supplies, hcourse.queue⟩
      · rw [hstop]
        exact hcourse.cursor.stop
      · rw [hlen]
        exact hcourse.cursor.len
      · rw [hbuf, hlen, hoff]
        exact hcourse.cursor.data
  have hall : packetsOf p (xs ++ ys) = packetsOf p xs := by
    rw [packetsOf_append, hpackets, List.append_nil]
  refine ⟨xs ++ ys, o', ⟨⟨ho', hcourse', by rwa [hq]⟩, ?_, ?_, ?_, h.carries, h.chunks,
    hmid.mtuTx.trans h.mtuTx⟩, hq⟩
  · rw [hlog, h.log, List.append_assoc]
  · rw [hall]
    exact h.decodes
  · rw [hall, ← h.front, ObexObject.nonhdr, hnon]
    rfl

/-- By induction on the run. -/
theorem Conveyed.run (h : Conveyed E p N mtu front total base x hs xs s o) (hm : ∀ k, E.malloc k = true)
    (hmtu : 255 ≤ mtu ∧ mtu ≤ 65535) {k : Nat} (hrun : Streamed E p N k s u) :
    ∃ x' hs' xs' o', Conveyed E p N mtu front total base x' hs' xs' u o' ∧
      k + weigh x' o'.txHeaderq ≤ weigh x o.txHeaderq := by
  induction hrun generalizing x hs xs o with
  | nil s => exact ⟨x, hs, xs, o, h, by omega⟩
  | @packet n k a f r s t u o₁ ha hn hrun hrest ih =>
    have ho : o₁ = o := Option.some_inj.1 (ha.object.symm.trans h.streams.object)
    rw [ho] at ha hn ⊢
    obtain ⟨x', hs', xs', o', h', hle⟩ := wp_ok (h.send hm hmtu ha hn a f) hrun
    obtain ⟨x'', hs'', xs'', o'', h'', hle'⟩ := ih h'
    exact ⟨x'', hs'', xs'', o'', h'', by omega⟩
  | meanwhile hmid hrest ih =>
    obtain ⟨xs', o', h', hq⟩ := h.meanwhile hmid
    obtain ⟨x'', hs'', xs'', o'', h'', hle⟩ := ih h'
    rw [hq] at hle
    exact ⟨x'', hs'', xs'', o'', h'', hle⟩

end

/-! ## Building the object -/

/-- A header element with the encoding of a header in its buffer. -/
def Encoded (h : HeaderElement) : Prop := ∃ x : Head, x.hi = h.hi ∧ (h.length < 65536 → x.Valid) ∧
  ∃ b, h.buf = some b ∧ b.contents = x.encode ∧ b.dataSize = h.length

/-- The object at `p` is built, with `k` streams so far. -/
structure Loading (p : Ptr) (k : Nat) (s₀ s : Obex) (o : ObexObject) : Prop where
  object : s.objects p = some o
  value : ∀ h ∈ o.txHeaderq, h.stream = false → h.hi ≠ obexHdrEmpty → Encoded h
  distinct : Distinct o.txHeaderq
  bound : ∀ h ∈ o.txHeaderq, addr h < s.fresh
  cursor : o.sLen = 0 ∧ o.sStop = false
  streams : o.txHeaderq.countP HeaderElement.stream = k
  mtuTx : s.mtuTx = s₀.mtuTx
  log : s.log = s₀.log

/-- The calls that build an object. -/
def Feeding.Builds : Feeding → Prop
  | .add a => a.Valid
  | .send _ _ => False
  | _ => True

def buildObject (C : Ctx) (p : Ptr) (as : List Feeding) (hi : UInt8) (hv : HeaderData) (size : Nat)
    (fit suspend : Bool) (bs : List Feeding) : M Unit := do
  iterate (feedObject C p) as
  let _ ← obexObjectAddheader C p hi hv size { fitOnePacket := fit, streamStart := true, suspend }
  iterate (feedObject C p) bs

section
variable {E : Env} {n k : Nat} {p : Ptr} {s₀ s : Obex} {o : ObexObject} {R : Stop → Obex → Prop}

/-- The encoder writes the header with its value. -/
theorem Adding.Valid.head {a : Adding} (ha : a.Valid) :
    a.encoding = ({ hi := a.hi, value := a.value } : Head).encode ∧
      (a.size < 65536 → ({ hi := a.hi, value := a.value } : Head).Valid) := by
  have hlen := ha.length_encoding
  unfold Adding.encoding Adding.size at hlen
  unfold Adding.encoding Adding.size Head.encode Head.Valid
  dsimp only
  have hsized (hl : (a.hi :: be16 (a.hvSize + 3) ++ a.value).length = a.hvSize + 3) :
      a.value.length = a.hvSize := by
    rw [List.length_append, List.length_cons, length_be16] at hl
    omega
  cases hk : hiType a.hi with
  | byte =>
    rw [hk] at hlen
    exact ⟨rfl, fun _ => Nat.succ.inj hlen⟩
  | int =>
    rw [hk] at hlen
    exact ⟨rfl, fun _ => Nat.succ.inj hlen⟩
  | unicode =>
    rw [hk] at hlen
    have hv := hsized hlen
    dsimp only
    rw [hv]
    exact ⟨rfl, fun hsmall => hsmall⟩
  | byteStream =>
    rw [hk] at hlen
    have hv := hsized hlen
    dsimp only
    rw [hv]
    exact ⟨rfl, fun hsmall => hsmall⟩

theorem encoded_of_added {a : Adding} (ha : a.Valid) {b : Buf} (hb : b.contents = a.encoding)
    {ptr : Ptr} :
    Encoded { addr := ptr, buf := some b, hi := a.hi, flags := a.flags, length := a.size
              bodyTouched := false, stream := false } := by
  obtain ⟨henc, hvalid⟩ := ha.head
  refine ⟨{ hi := a.hi, value := a.value }, rfl, hvalid, b, rfl, hb.trans henc, ?_⟩
  rw [← length_contents, hb]
  exact ha.length_encoding

/-- An element is appended to the queue. -/
theorem Loading.append (h : Loading p k s₀ s o) {e : HeaderElement} (ha : addr e = s.fresh)
    (hv : e.stream = false → e.hi ≠ obexHdrEmpty → Encoded e) {o' : ObexObject}
    (hq : o'.txHeaderq = o.txHeaderq ++ [e]) (hl : o'.sLen = o.sLen) (hs : o'.sStop = o.sStop) :
    Loading p (k + if e.stream then 1 else 0) s₀
      (({ s with fresh := s.fresh + 1 } : Obex).setObject p (some o')) o' := by
  refine ⟨objects_setObject _ _ _, fun x hx => ?_, ?_, fun x hx => ?_, ?_, ?_, h.mtuTx, h.log⟩
  · rw [hq] at hx
    cases List.mem_append.1 hx with
    | inl hx => exact h.value x hx
    | inr hx =>
      rw [List.mem_singleton.1 hx]
      exact hv
  · unfold Distinct
    rw [hq, List.map_append]
    refine List.nodup_append.2 ⟨h.distinct, List.nodup_cons.2 ⟨List.not_mem_nil, List.nodup_nil⟩, ?_⟩
    intro x hx y hy
    obtain ⟨z, hz, rfl⟩ := List.mem_map.1 hx
    have hlt := h.bound z hz
    rw [List.mem_singleton.1 hy, ha]
    exact Nat.ne_of_lt hlt
  · rw [hq] at hx
    show addr x < s.fresh + 1
    cases List.mem_append.1 hx with
    | inl hx =>
      have hlt := h.bound x hx
      omega
    | inr hx =>
      rw [List.mem_singleton.1 hx, ha]
      exact Nat.lt_succ_self _
  · rw [hl, hs]
    exact h.cursor
  · rw [hq, List.countP_append, h.streams, List.countP_singleton]

theorem Loading.feed (h : Loading p k s₀ s o) {x : Feeding} (hx : x.Builds) :
    wp (feedObject (E.ctx .all n) p x) (fun _ t => ∃ o', Loading p k s₀ t o') R s := by
  cases x with
  | add a =>
    refine wp_bind.2 (wp_addheader hx h.object (fun _ _ b hb _ => ?_) fun _ j hj => ?_)
    · exact ⟨_, h.append rfl (fun _ _ => encoded_of_added hx hb) rfl rfl rfl⟩
    · exact ⟨o, h.object, h.value, h.distinct, fun e he => Nat.lt_of_lt_of_le (h.bound e he) hj,
        h.cursor, h.streams, h.mtuTx, h.log⟩
  | addEmpty hv size fit suspend =>
    refine wp_bind.2 (wp_addempty rfl rfl rfl h.object ?_ ⟨o, h⟩)
    have hempty : Loading p k s₀ _ (withEmpty o { fitOnePacket := fit, suspend } s.fresh) :=
      h.append (e := { addr := s.fresh, buf := none, hi := obexHdrEmpty, length := 0, stream := false
                       flags := { fitOnePacket := fit, suspend }, bodyTouched := false })
        rfl (fun _ hno => absurd rfl hno) rfl rfl rfl
    exact ⟨_, hempty⟩
  | send a f => exact hx.elim
  | suspend b =>
    rw [feedObject, wp_update, h.object]
    refine ⟨fun o' ho' => ?_, fun hno => by cases hno⟩
    cases ho'
    exact ⟨_, objects_setObject _ _ _, h.value, h.distinct, h.bound, h.cursor, h.streams,
      h.mtuTx, h.log⟩

theorem Loading.run {xs : List Feeding} (hxs : ∀ x ∈ xs, x.Builds) (h : Loading p k s₀ s o) :
    wp (iterate (feedObject (E.ctx .all n) p) xs) (fun _ t => ∃ o', Loading p k s₀ t o') R s := by
  have hkeeps : Keeps (fun t => ∃ o', Loading p k s₀ t o') R
    (iterate (feedObject (E.ctx .all n) p) xs) := by
    refine Keeps.iterate xs fun x hx t ht => ?_
    obtain ⟨o', ho'⟩ := ht
    exact ho'.feed (hxs x hx)
  exact hkeeps s ⟨o, h⟩

theorem Loading.start (h : Loading p k s₀ s o) (hm : ∀ j, E.malloc j = true) {hi : UInt8}
    {hv : HeaderData} {size : Nat} {fit suspend : Bool} {Q : Int → Obex → Prop}
    (hq : ∀ r t o', Loading p (k + 1) s₀ t o' → Q r t) :
    wp (obexObjectAddheader (E.ctx .all n) p hi hv size
      { fitOnePacket := fit, streamStart := true, suspend })
      Q R s := by
  rw [obexObjectAddheader, wp_bind, wp_get, if_neg Bool.false_ne_true, if_neg Bool.false_ne_true,
    wp_bind, wp_deref, h.object]
  refine ⟨fun o' ho' => ?_, fun hno => by cases hno⟩
  cases ho'
  have ho' : ({ s with fresh := s.fresh + 1 } : Obex).objects p = some o := h.object
  rw [ctx_malloc, if_pos (hm _), alloc, wp_bind, wp_bind, wp_get, wp_bind, wp_set, wp_pure,
    if_pos rfl, wp_bind, wp_update, ho']
  refine ⟨fun o' ho' => ?_, fun hno => by cases hno⟩
  cases ho'
  exact hq 1 _ _ (h.append (e := {
    addr := s.fresh, buf := none, hi, flags := _, length := 0, bodyTouched := false, stream := true })
    rfl (fun hno => by cases hno) rfl rfl rfl)

theorem Loading.build (h : Loading p 0 s₀ s o) (hm : ∀ j, E.malloc j = true) {as bs : List Feeding}
    (has : ∀ x ∈ as ++ bs, x.Builds) (hi : UInt8) (hv : HeaderData) (size : Nat) (fit suspend : Bool) :
    wp (buildObject (E.ctx .all n) p as hi hv size fit suspend bs)
      (fun _ t => ∃ o', Loading p 1 s₀ t o') R s := by
  refine wp_seq (h.run fun x hx => has x (List.mem_append_left _ hx)) fun _ t ht => ?_
  obtain ⟨o', ho'⟩ := ht
  rw [wp_bind]
  refine ho'.start hm fun r u o'' ho'' => ?_
  exact ho''.run fun x hx => has x (List.mem_append_right _ hx)

end

/-- The other headers of the object are no bodies, and not longer than the MTU. -/
def Unmixed (mtuTx : Nat) (o : ObexObject) : Prop :=
  ∀ h ∈ o.txHeaderq, h.stream = false → (h.hi ≠ obexHdrBody ∧ h.hi ≠ obexHdrBodyEnd) ∧ h.length ≤ mtuTx

/-- The object that has been built is one to be sent, with the whole stream left. -/
theorem Loading.streams_all {E : Env} {p : Ptr} {s₀ s : Obex} {o : ObexObject} (h : Loading p 1 s₀ s o)
    {σ : Source UInt8} (hσ : σ.Sound) (hp : σ.pending = []) (hl : σ.last ≠ none)
    (hs : Supplies E (asks s₀.log) σ) (hmtu : s.mtuTx ≤ 65535) (hun : Unmixed s.mtuTx o) :
    Streams E p (some σ) s o := by
  have hsolid {e : HeaderElement} (he : e ∈ o.txHeaderq) (hst : e.stream = false) :
    Solid s.mtuTx e := by
    obtain ⟨hother, hsmall⟩ := hun e he hst
    refine ⟨hst, hother, hsmall, fun hne => ?_⟩
    obtain ⟨x, hhi, hvalid, hbuf⟩ := h.value e he hst hne
    exact ⟨x, hvalid (by omega), hhi, hbuf⟩
  have hone : 0 < o.txHeaderq.countP HeaderElement.stream := by rw [h.streams]; exact Nat.one_pos
  obtain ⟨st, hmem, hst⟩ := List.countP_pos_iff.1 hone
  obtain ⟨pre, post, hq⟩ := List.append_of_mem hmem
  have hcount := h.streams
  rw [hq, List.countP_append, List.countP_cons, if_pos hst] at hcount
  have hzero : (pre ++ post).countP HeaderElement.stream = 0 := by
    rw [List.countP_append]
    omega
  refine ⟨h.object, ⟨hσ, fun hover => hl hover.1, ⟨?_, ?_, fun hne => absurd hp hne⟩, ?_, pre, st, post,
    hq, hst, ?_⟩, h.distinct⟩
  · rw [h.cursor.2]
    cases hlast : σ.last with
    | none => exact absurd hlast hl
    | some e => rfl
  · rw [h.cursor.1, hp]
    rfl
  · rw [h.log]
    exact hs
  · intro e he
    refine hsolid ?_ (by simpa using List.countP_eq_zero.1 hzero e he)
    rw [hq]
    cases List.mem_append.1 he with
    | inl he => exact List.mem_append_left _ he
    | inr he => exact List.mem_append_right _ (List.mem_cons_of_mem _ he)

/-! ## The stream arrives whole -/

/-- In the run from `t` to `u` the packets of the object at `p` hold headers in one way. Their BODY and
BODY_END headers carry what of `σ` is not left; when the stream header has left the queue, they carry
all of it, and the last of them, and no other, is a BODY_END. The next packet can be sent if it is one
of those that the run is about. -/
def Intact (E : Env) (p : Ptr) (σ : Source UInt8) (t u : Obex) : Prop :=
  ∃ o o' xs hs, t.objects p = some o ∧ u.objects p = some o' ∧ u.log = t.log ++ xs ∧
    Decodes o.nonhdr (packetsOf p xs) hs ∧ (∀ hs', Decodes o.nonhdr (packetsOf p xs) hs' → hs' = hs) ∧
    ((∃ e ∈ o'.txHeaderq, e.stream = true) → (∀ e ∈ bodies hs, e.hi = obexHdrBody) ∧ ∃ τ : Source UInt8,
      Cursor τ o' ∧ Supplies E (asks u.log) τ ∧ (bodies hs).flatMap Head.value ++ τ.left = σ.left) ∧
    ((∀ e ∈ o'.txHeaderq, e.stream = false) → (bodies hs).flatMap Head.value = σ.left ∧
      ∃ fs d, bodies hs = fs ++ [fragment true d] ∧ ∀ e ∈ fs, e.hi = obexHdrBody) ∧
    ∀ n a f, Able E p u o' → o'.txHeaderq.length + σ.chunks.length + 2 ≤ n →
      ∃ r v, obexObjectSend (E.ctx .all n) p a f u = .ok r v

/-- Whatever headers are around the stream and whatever chunks the application hands out, in every run
whose packets are all `Able` the stream is sent as it is, in a bounded number of packets. -/
theorem stream_intact (E : Env) (n : Nat) (p : Ptr) (s : Obex) (o : ObexObject) (σ : Source UInt8)
    (as bs : List Feeding) (hi : UInt8) (hv : HeaderData) (size : Nat) (fit suspend : Bool)
    (hm : ∀ k, E.malloc k = true) (ho : s.objects p = some o) (hq : o.txHeaderq = [])
    (hcur : o.sLen = 0 ∧ o.sStop = false) (hmtu : 255 ≤ s.mtuTx ∧ s.mtuTx ≤ 65535) (hσ : σ.Sound)
    (hp : σ.pending = []) (hl : σ.last ≠ none) (hs : Supplies E (asks s.log) σ)
    (has : ∀ x ∈ as ++ bs, x.Builds) :
    wp (buildObject (E.ctx .all n) p as hi hv size fit suspend bs)
      (fun _ t => ∃ o', t.objects p = some o' ∧
      (Unmixed t.mtuTx o' → ∀ k u, Streamed E p σ.chunks.length k t u →
        Intact E p σ t u ∧ k ≤ o'.txHeaderq.length + σ.left.length + 1)) (fun _ _ => False) s := by
  have hload : Loading p 0 s s o := by
    refine ⟨ho, ?_, ?_, ?_, hcur, ?_, rfl, rfl⟩
    · rw [hq]
      exact fun _ he => (List.not_mem_nil he).elim
    · unfold Distinct
      rw [hq]
      exact List.nodup_nil
    · rw [hq]
      exact fun _ he => (List.not_mem_nil he).elim
    · rw [hq]
      rfl
  refine wp_conseq (hload.build hm has hi hv size fit suspend) fun _ t ht => ?_
  obtain ⟨o₁, h₁⟩ := ht
  refine ⟨o₁, h₁.object, fun hun k u hrun => ?_⟩
  have hstreams := h₁.streams_all hσ hp hl hs (by rw [h₁.mtuTx]; exact hmtu.2) hun
  have hstart : Conveyed E p σ.chunks.length t.mtuTx o₁.nonhdr σ.left t.log (some σ) [] [] t o₁ :=
    ⟨hstreams, (List.append_nil _).symm, .nil _, rfl, .nil _, Nat.le_refl _, rfl⟩
  obtain ⟨x, hs', xs, o', h', hle⟩ := hstart.run hm (by rw [h₁.mtuTx]; exact hmtu) hrun
  -- a packet for each header, for each byte of the stream at most, and for its end
  have hweight : weigh (some σ) o₁.txHeaderq = o₁.txHeaderq.length + (σ.left.length + 1) := by
    show _ + (σ.left.length + _) = _
    cases hlast : σ.last with
    | none => exact absurd hlast hl
    | some e => rfl
  refine ⟨⟨o₁, o', xs, hs', h₁.object, h'.streams.object, h'.log, h'.decodes,
    fun hs'' hd => hd.unique h'.decodes, fun hwait => ?_, fun hgone => ?_, fun m a f ha hm' => ?_⟩,
      by omega⟩
  · cases x with
    | none =>
      obtain ⟨e, he, hst⟩ := hwait
      have hplain := (h'.streams.course e he).plain
      rw [hst] at hplain
      cases hplain
    | some τ => exact ⟨h'.carries.unfinished, τ, h'.streams.course.cursor, h'.streams.course.supplies,
      h'.carries.payload⟩
  · cases x with
    | some τ =>
      obtain ⟨pre, st, post, hq', hst, -⟩ := h'.streams.course.queue
      have hplain := hgone st (by rw [hq']; exact List.mem_append_right _ List.mem_cons_self)
      rw [hst] at hplain
      cases hplain
    | none =>
      have hpay := h'.carries.payload
      exact ⟨(List.append_nil _).symm.trans hpay, h'.carries.finished⟩
  · have hsend := h'.send hm (by rw [h₁.mtuTx]; exact hmtu) ha hm' a f
    unfold wp at hsend
    split at hsend
    · exact ⟨_, _, ‹_›⟩
    · exact hsend.elim

/-- An application that hands out the chunks `[1, 2]` and `[3]` to the object at 0. -/
def twoChunkPeer : Env where
  malloc _ := true
  app log := match asks log with
    | 1 => [.objectAddHeader 0 obexHdrBody { bs := some [1, 2] } 2 { streamData := true }]
    | 2 => [.objectAddHeader 0 obexHdrBody { bs := some [3] } 1 { streamDataend := true }]
    | _ => []
  write _ chunk := chunk.length
  read _ _ := none

def twoChunks : Source UInt8 := { pending := [], chunks := [[1, 2]], last := some [3] }

theorem twoChunks_sound : twoChunks.Sound :=
  ⟨fun c hc => by rw [List.mem_singleton.1 hc]; exact List.cons_ne_nil _ _, fun hno => by cases hno⟩

theorem twoChunkPeer_supplies : Supplies twoChunkPeer 0 twoChunks := by
  intro log n i hn hi
  have hasks : asks (log ++ [.event n]) = i + 1 := by
    rw [asks_append, hi]
    show 0 + i + [Obs.event n].countP Obs.isAsk = _
    rw [List.countP_singleton, if_pos (show Obs.isAsk (.event n) = true from decide_eq_true hn)]
    omega
  have happ (calls : List Call) (h : (match i + 1 with
      | 1 => [Call.objectAddHeader 0 obexHdrBody { bs := some [1, 2] } 2 { streamData := true }]
      | 2 => [.objectAddHeader 0 obexHdrBody { bs := some [3] } 1 { streamDataend := true }]
      | _ => []) = calls) : twoChunkPeer.app (log ++ [.event n]) = calls := by
    rw [← h, ← hasks]
    rfl
  match i, happ with
  | 0, happ => exact ⟨_, happ _ rfl, 0, obexHdrBody, _, 2, _, rfl, rfl, fun _ => rfl, rfl, rfl⟩
  | 1, happ => exact ⟨_, happ _ rfl, 0, obexHdrBody, _, 1, _, rfl, rfl, fun hno =>
    absurd hno (by decide), rfl, rfl⟩
  | i + 2, happ => exact happ [] rfl

/-- The handle of `oneObject`, with the object being processed. -/
def currentObject : Obex := { oneObject with object := some 0 }

theorem stream_intact_two :
    ∃ t u, buildObject (twoChunkPeer.ctx .all 8) 0 [] obexHdrBody {} 0 false false []
    currentObject = .ok ⟨⟩ t ∧ Streamed twoChunkPeer 0 1 1 t u ∧
      Intact twoChunkPeer 0 twoChunks t u := by
  obtain ⟨s, hs, o, ho, hq, hcur, hmtu, hlog⟩ : ∃ s, s = currentObject ∧ ∃ o, s.objects 0 = some o ∧
    o.txHeaderq = [] ∧
      (o.sLen = 0 ∧ o.sStop = false) ∧ s.mtuTx = 255 ∧ s.log = [] :=
    ⟨_, rfl, _, rfl, rfl, ⟨rfl, rfl⟩, rfl, rfl⟩
  obtain ⟨t, hrun, o₁, st, ho₁, hq₁, hst, hhi, hsus, hlen, hstop, hrunning, hnon, hobj, hasks,
    hleft, hblock⟩ :
      ∃ t, buildObject (twoChunkPeer.ctx .all 8) 0 [] obexHdrBody {} 0 false false [] currentObject =
        .ok ⟨⟩ t ∧
        ∃ o₁ st, t.objects 0 = some o₁ ∧ o₁.txHeaderq = [st] ∧ st.stream = true ∧ st.hi = obexHdrBody ∧
          st.flags.suspend = false ∧ o₁.sLen = 0 ∧ o₁.sStop = false ∧ o₁.suspend = false ∧
            o₁.txNonhdrData = none ∧
          t.object = some 0 ∧ asks t.log = 0 ∧ initialTxLeft t = 252 ∧ t.txMsg.buffer.length = 1024 :=
    ⟨_, rfl, _, _, rfl, rfl, rfl, rfl, rfl, rfl, rfl, rfl, rfl, rfl, rfl,
      by decide, List.length_replicate⟩
  have hwp := stream_intact twoChunkPeer 8 0 s o twoChunks [] [] obexHdrBody {} 0 false false
    (fun _ => rfl) ho hq
    hcur (by rw [hmtu]; decide) twoChunks_sound rfl (by decide)
      (by rw [hlog]; exact twoChunkPeer_supplies)
    fun _ hx => (List.not_mem_nil hx).elim
  rw [hs] at hwp
  obtain ⟨o₂, ho₂, hall⟩ := wp_ok hwp hrun
  cases ho₁.symm.trans ho₂
  have hun : Unmixed t.mtuTx o₁ := by
    intro e he hplain
    rw [hq₁] at he
    rw [List.mem_singleton.1 he, hst] at hplain
    cases hplain
  have hcursor : Cursor twoChunks o₁ := ⟨hstop, hlen, fun hno => absurd rfl hno⟩
  have hable : Able twoChunkPeer 0 t o₁ := by
    refine ⟨ho₁, hobj, hrunning, ?_, spacious_of_source twoChunks_sound hcursor
      (by rw [hasks]; exact twoChunkPeer_supplies) ?_⟩
    · rintro ⟨e, es, heq, hbody, -⟩
      rw [hq₁] at heq
      cases heq
      exact hbody hhi
    · rw [hq₁, Cramped, if_pos hst, hsus, hleft, hblock, ObexObject.nonhdr, hnon]
      decide
  obtain ⟨⟨-, o₃, -, -, -, ho₃, -, -, -, -, -, hgo⟩, -⟩ := hall hun 0 t (.nil t)
  cases ho₁.symm.trans ho₃
  have hroom : o₁.txHeaderq.length + 1 + 2 ≤ 8 := by
    rw [hq₁]
    show 1 + 1 + 2 ≤ 8
    omega
  obtain ⟨r, u, hsend⟩ := hgo 8 true false hable hroom
  have hrun' : Streamed twoChunkPeer 0 1 1 t u := by
    have hone := Streamed.packet (N := 1) (k := 0) hable hroom hsend (.nil u)
    rwa [hq₁] at hone
  exact ⟨t, u, hrun, hrun', (hall hun 1 u hrun').1⟩

/-- A header that takes all but one byte of a packet of 255. -/
def streamOf248 : Adding where
  hi := 0x42
  hv := { bs := some (List.replicate 248 0) }
  hvSize := 248
  fit := false
  suspend := false

theorem streamOf248_valid : streamOf248.Valid :=
  ⟨by decide, fun _ => by decide, fun _ => .inr ⟨_, rfl, Nat.le_of_eq List.length_replicate.symm⟩⟩

/-- The handle behind `OBEX_SetTransportMTU(handle, 255, 255)`. -/
def smallestHandle : Obex :=
  { currentObject with mtuRx := 255, mtuTxMax := 255, txMsg := freshBuf 255, rxMsg := freshBuf 255 }

/-- With one byte left for the fragment all of the data is put into the packet; it outgrows its block,
and the header of the fragment is written to where the block was. -/
theorem short_packet_moves :
    ¬ ∀ (E : Env) (n : Nat) (p : Ptr) (s : Obex) (o : ObexObject) (σ : Source UInt8)
    (as bs : List Feeding) (hi : UInt8) (hv : HeaderData) (size : Nat) (fit suspend : Bool),
    (∀ k, E.malloc k = true) → s.objects p = some o → o.txHeaderq = [] →
    (o.sLen = 0 ∧ o.sStop = false) →
    (255 ≤ s.mtuTx ∧ s.mtuTx ≤ 65535) → s.object = some p → o.suspend = false → σ.Sound →
    σ.pending = [] →
    σ.last ≠ none → Supplies E (asks s.log) σ → (∀ x ∈ as ++ bs, x.Builds) →
    as.length + bs.length + σ.chunks.length + 4 ≤ n →
    wp (do
      buildObject (E.ctx .all n) p as hi hv size fit suspend bs
      let _ ← obexObjectSend (E.ctx .all n) p true false)
      (fun _ u => ∃ xs hs, u.log = s.log ++ xs ∧ Decodes [] (packetsOf p xs) hs ∧
        ∃ rest, (bodies hs).flatMap Head.value ++ rest = σ.left) (fun _ _ => False) s := by
  intro h
  obtain ⟨s, hs, o, ho, hq, hcur, hmtu, hobj, hsus, hlog⟩ : ∃ s, s = smallestHandle ∧
    ∃ o, s.objects 0 = some o ∧
      o.txHeaderq = [] ∧ (o.sLen = 0 ∧ o.sStop = false) ∧ s.mtuTx = 255 ∧ s.object = some 0 ∧
        o.suspend = false ∧
      s.log = [] := ⟨_, rfl, _, rfl, rfl, ⟨rfl, rfl⟩, rfl, rfl, rfl, rfl⟩
  have hstop : stopsWith (do
      buildObject (twoChunkPeer.ctx .all 8) 0 [.add streamOf248] obexHdrBody {} 0 false false []
      let _ ← obexObjectSend (twoChunkPeer.ctx .all 8) 0 true false) smallestHandle (.fault .dangling)
      (fun _ => true) = true := by decide +kernel
  have hrun := h twoChunkPeer 8 0 s o twoChunks [.add streamOf248] [] obexHdrBody {} 0 false false
    (fun _ => rfl)
    ho hq hcur (by rw [hmtu]; decide) hobj hsus twoChunks_sound rfl (by decide)
    (by rw [hlog]; exact twoChunkPeer_supplies)
    (fun x hx => by rw [List.mem_singleton.1 hx]; exact streamOf248_valid) (by decide)
  rw [hs] at hrun
  generalize (do
      buildObject (twoChunkPeer.ctx .all 8) 0 [.add streamOf248] obexHdrBody {} 0 false false []
      let _ ← obexObjectSend (twoChunkPeer.ctx .all 8) 0 true false) = m at hstop hrun
  generalize smallestHandle = s₀ at hstop hrun
  obtain ⟨_, -, hfalse⟩ := exists_of_stopsWith hstop hrun
  exact hfalse

end OpenObex
