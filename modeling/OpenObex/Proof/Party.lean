import OpenObex.Proof.Conversation

/-!
# One side of an exchange

The object of a request, on either side, has headers to send and headers that it has taken (`Engaged`).
Each operation on it is described by what it makes of these two lists: a header is added, a packet is
sent, a packet is received, and the headers are read.
-/

namespace OpenObex

open Mem Prog

/-! ## Taking headers when memory is granted -/

section
variable {C : Ctx} {p : Ptr} {i i' : Intake} {m : Buf} {s : Obex} {o : ObexObject} {h : Head}
  {hs : List Head} {w : Bytes}

/-- A fragment that is not refused is gathered. -/
theorem Taking.gathers (hm : Grants C.malloc) (ht : Taking false p i m s) (hv : h.Valid)
    (hb : h.isBody = true) (hr : ¬ i.Refuses h) (hc : m.contents = h.encode ++ w) :
    wp (receiveHeader C p) (fun err t => err = false ∧ ∃ m', m'.contents = w ∧ Taking false p
      (i.gather h) m' t)
      (fun _ _ => False) s := by
  have hlt := hv.length_lt
  apply ht.body hv hb hc
  intro hpeek hle
  obtain ⟨hp, o, ho, htook⟩ := ht
  obtain ⟨b, hbuf, hholds⟩ := rxBodyBuf_keeping hm htook hlt fun hn => hr ⟨hb, hn⟩
  obtain ⟨b₁, hb₁, hroom, hadd⟩ := hholds.add hm hlt
  rw [receiveBodyHeader]
  apply wp_deref_some ho
  rw [if_neg (by rw [htook.srv]; simp), wp_bind]
  apply wp_receiveBody ho (by rw [hp.rxMsg]; omega) hbuf hb₁ hroom
  · intro d b₂ hd hb₂
    rw [hp.rxMsg, hpeek] at hd
    cases hd
    apply wp_conseq (storeRxBody hm (hp.setObject _) (objects_setObject _ _ _) htook rfl (hadd b₂ hb₂))
    intro _ t ht'
    rw [wp_pure]
    exact ⟨by simp, fun _ => ⟨_, ht', fun m' t' hm' _ ht'' => ⟨rfl, m', hm', ht''⟩⟩⟩
  · intro hnone
    rw [hp.rxMsg, hpeek] at hnone
    cases hnone

theorem Taking.takes (hm : Grants C.malloc) (ht : Taking false p i m s) (hv : h.Valid)
    (hi : i.step h = some i') (hc : m.contents = h.encode ++ w) :
    wp (receiveHeader C p) (fun err t => err = false ∧ ∃ m', m'.contents = w ∧ Taking false p i' m' t)
      (fun _ _ => False) s := by
  unfold Intake.step at hi
  by_cases hr : i.Refuses h
  · rw [if_pos hr] at hi
    cases hi
  · rw [if_neg hr] at hi
    cases hi
    unfold Intake.take
    cases hb : h.isBody with
    | true => exact ht.gathers hm hv hb hr hc
    | false =>
      apply wp_conseq (ht.put hm hv hb hc)
      intro err t ht'
      exact ⟨ht'.1, ht'.2.2⟩

/-- The headers of a packet are taken one after the other. -/
theorem Taking.takesAll (hm : Grants C.malloc) (ht : Taking false p i m s) (hv : ∀ h ∈ hs, h.Valid)
    (hi : hs.foldlM Intake.step i = some i') (hc : m.contents = hs.flatMap Head.encode) {fuel : Nat}
    (hf : m.dataSize ≤ fuel) :
    wp (receiveHeaders C p fuel) (fun r t => r = 1 ∧ ∃ m', Taking false p i' m' t)
      (fun _ _ => False) s := by
  induction hs generalizing i m s fuel with
  | nil =>
    cases hi
    exact receiveHeaders_nil ht.parsing hc fuel ⟨rfl, m, ht⟩
  | cons h hs ih =>
    obtain ⟨hh, hv⟩ := List.forall_mem_cons.1 hv
    rw [List.foldlM_cons] at hi
    obtain ⟨j, hj, hi⟩ := Option.bind_eq_some_iff.1 hi
    rw [List.flatMap_cons] at hc
    have hpos : 0 < h.encode.length := List.length_pos_iff.2 hh.header.ne_nil
    have hsize : m.dataSize = h.encode.length + (hs.flatMap Head.encode).length := by
      rw [← length_contents, hc, List.length_append]
    refine receiveHeaders_cons ht.parsing (fun hn => ?_) hf ?_
    · rw [hn] at hc
      exact hh.header.ne_nil (List.append_eq_nil_iff.1 hc.symm).1
    apply wp_conseq (ht.takes hm hh hj hc)
    rintro err t ⟨rfl, m', hm', ht'⟩
    refine ⟨by simp, fun _ => ih ht' hv hi hm' ?_⟩
    rw [← length_contents, hm']
    omega

/-- A packet is taken: the common header, the data in front of the headers and the headers. -/
theorem wp_receive_takes (hm : Grants C.malloc) {k : Nat} (hp : s.object = some p)
    (ho : s.objects p = some { o with headeroffset := k }) (ht : Took false i o s.fresh)
    (hk : k < 65536) {x front : Bytes} (hx : x.length = 3) (hfront : front.length = k)
    (hc : s.rxMsg.contents = x ++ (front ++ hs.flatMap Head.encode)) (hv : ∀ h ∈ hs, h.Valid)
    (hi : hs.foldlM Intake.step i = some i') :
    wp (obexObjectReceive C) (fun r t => r = 1 ∧ ∃ m', Taking false p i' m' t)
      (fun _ _ => False) s := by
  have hrest : (bufRemoveBegin s.rxMsg 3).contents = front ++ hs.flatMap Head.encode := by
    rw [contents_bufRemoveBegin, hc, ← hx, List.drop_left]
  rw [obexObjectReceive, wp_bind, wp_modify]
  refine wp_selfObject_some hp ?_
  rw [wp_bind, receiveNonhdr]
  refine wp_deref_some ho ?_
  by_cases h0 : k = 0
  · subst h0
    have hnil : front = [] := List.eq_nil_of_length_eq_zero hfront
    rw [hnil, List.nil_append] at hrest
    have htaking : Taking false p i (bufRemoveBegin s.rxMsg 3)
      (s.setRxMsg (bufRemoveBegin s.rxMsg 3)) :=
      ⟨⟨hp, ⟨_, ho⟩, rfl⟩, _, ho, ht.kept ⟨rfl, rfl, ht.offset.symm, rfl, rfl, rfl⟩ (Nat.le_refl _)⟩
    rw [if_pos rfl, wp_pure, if_pos rfl, wp_bind, wp_get]
    exact htaking.takesAll hm hv hi hrest (Nat.le_refl _)
  · have hnew : bufNew C.malloc k = some (freshBuf k) := if_pos (hm k (by omega))
    have hpeek : bufPeek (bufRemoveBegin s.rxMsg 3) 0 k = some front := by
      have hlen : k ≤ (bufRemoveBegin s.rxMsg 3).dataSize := by
        rw [← length_contents, hrest, List.length_append, hfront]
        exact Nat.le_add_right _ _
      rw [bufPeek_of_le (by omega), hrest, ← hfront]
      exact congrArg some List.take_left
    obtain ⟨b, hb, -⟩ : ∃ b, bufInsertEnd C.malloc (freshBuf k) front = some b ∧ _ :=
      bufInsertEnd_avail (by rw [hfront]; exact Nat.le_add_left _ _)
    rw [if_neg h0]
    dsimp only
    rw [hnew]
    dsimp only
    rw [wp_bind, wp_get, wp_bind, peek, wp_require]
    refine ⟨fun d hd => ?_, fun hnone => ?_⟩
    swap
    · cases hpeek.symm.trans hnone
    cases hpeek.symm.trans hd
    rw [wp_bind, wp_require]
    refine ⟨fun b' _ => ?_, fun hnone => ?_⟩
    swap
    · cases hb.symm.trans hnone
    refine wp_update_some ho ?_
    rw [wp_bind, wp_modify, wp_pure, if_pos rfl, wp_bind, wp_get]
    have htaking : Taking false p i (bufRemoveBegin (bufRemoveBegin s.rxMsg 3) k)
        (((s.setRxMsg (bufRemoveBegin s.rxMsg 3)).setObject p
          (some { o with rxNonhdrData := some b', headeroffset := 0 })).setRxMsg
            (bufRemoveBegin (bufRemoveBegin s.rxMsg 3) k)) := by
      refine ⟨⟨hp, ⟨_, objects_setObject _ _ _⟩, rfl⟩, _, objects_setObject _ _ _, ?_⟩
      exact ht.kept ⟨rfl, rfl, ht.offset.symm, rfl, rfl, rfl⟩ (Nat.le_refl _)
    refine htaking.takesAll hm hv hi ?_ (Nat.le_refl _)
    rw [contents_bufRemoveBegin, hrest, ← hfront, List.drop_left]

end

/-! ## Opcodes -/

theorem withoutFinal_or (op : UInt8) : withoutFinal (op ||| obexFinal) = withoutFinal op := by
  unfold withoutFinal
  refine UInt8.eq_of_toBitVec_eq ?_
  rw [UInt8.toBitVec_and, UInt8.toBitVec_or, UInt8.toBitVec_and, BitVec.and_or_distrib_right]
  have h0 : obexFinal.toBitVec &&& (0x7f : UInt8).toBitVec = 0#8 := by decide
  rw [h0, BitVec.or_zero]

theorem withoutFinal_plain {op : UInt8} (h : op &&& obexFinal = 0) : withoutFinal op = op := by
  have hbits : op.toBitVec &&& obexFinal.toBitVec = 0#8 := by
    have hcast := congrArg UInt8.toBitVec h
    rwa [UInt8.toBitVec_and] at hcast
  have hall : (0x7f : UInt8).toBitVec ||| obexFinal.toBitVec = BitVec.allOnes 8 := by decide
  unfold withoutFinal
  refine UInt8.eq_of_toBitVec_eq ?_
  rw [UInt8.toBitVec_and]
  calc op.toBitVec &&& (0x7f : UInt8).toBitVec
      = op.toBitVec &&& (0x7f : UInt8).toBitVec ||| op.toBitVec &&& obexFinal.toBitVec := by
        rw [hbits, BitVec.or_zero]
    _ = op.toBitVec := by rw [← BitVec.and_or_distrib_left, hall, BitVec.and_allOnes]

theorem hasFinal_packet (op : UInt8) (body : Bytes) :
    hasFinal (packet op body) = decide (op &&& obexFinal ≠ 0) := rfl

theorem reach_of_packet {b : Buf} {op : UInt8} {body : Bytes} (h : b.contents = packet op body) :
    b.reach[0]? = some op ∧ (∃ x, b.reach[1]? = some x) ∧ (∃ x, b.reach[2]? = some x) := by
  rw [Buf.reach, h]
  exact ⟨rfl, ⟨_, rfl⟩, ⟨_, rfl⟩⟩

/-! ## The object of a request -/

/-- The current object, the mode and the state of a handle. -/
structure Standing (p : Option Ptr) (m : Mode) (st : State) (s : Obex) : Prop where
  object : s.object = p
  mode : s.mode = m
  state : s.state = st

/-- What adding a header, sending and receiving leave alone of the handle. -/
structure Unaltered (s t : Obex) : Prop where
  object : t.object = s.object
  mode : t.mode = s.mode
  state : t.state = s.state
  mtuRx : t.mtuRx = s.mtuRx
  mtuTxMax : t.mtuTxMax = s.mtuTxMax

theorem Unaltered.trans {s t u : Obex} (h : Unaltered s t) (h' : Unaltered t u) : Unaltered s u :=
  ⟨h'.object.trans h.object, h'.mode.trans h.mode, h'.state.trans h.state, h'.mtuRx.trans h.mtuRx,
    h'.mtuTxMax.trans h.mtuTxMax⟩

theorem Unaltered.standing {p : Option Ptr} {m : Mode} {st : State} {s t : Obex} (h : Unaltered s t)
    (hs : Standing p m st s) : Standing p m st t :=
  ⟨h.object.trans hs.object, h.mode.trans hs.mode, h.state.trans hs.state⟩

/-- The object at `p` has the parcels `xs` to send, none of which suspends it, behind the data `f` that
goes in front of them, and has taken `i`. -/
structure Engaged (op last : UInt8) (p : Ptr) (mtu : Nat) (f : Bytes) (xs : List Parcel) (i : Intake)
    (s : Obex) (o : ObexObject) : Prop where
  prepared : Prepared p s o
  letters : List.Forall₂ Letter xs o.txHeaderq
  front : o.nonhdr = f
  mtuTx : s.mtuTx = mtu
  direct : s.trans.type ≠ .irda
  opcode : o.opcode = op
  lastopcode : o.lastopcode = last
  suspend : o.suspend = false
  calm : ∀ x ∈ xs, x.pause = false
  took : Took false i o s.fresh
  link : CanWrite s

/-- What neither sending nor receiving changes of an object. -/
structure Akin (o o' : ObexObject) : Prop where
  cmd : o'.cmd = o.cmd
  first : o'.firstPacketSent = o.firstPacketSent

theorem Akin.trans {o o' o'' : ObexObject} (h : Akin o o') (h' : Akin o' o'') : Akin o o'' :=
  ⟨h'.cmd.trans h.cmd, h'.first.trans h.first⟩

theorem Akin.rx {o o' : ObexObject} (h : RxStep o o') : Akin o o' := by
  have herase : o'.eraseRx = o.eraseRx := h
  have hcmd := congrArg ObexObject.cmd herase
  have hfirst := congrArg ObexObject.firstPacketSent herase
  exact ⟨hcmd, hfirst⟩

/-- The opcode of a packet, by whether headers are left behind it. -/
def sentOpcode (op last : UInt8) (allowfinalcmd forcefinalbit : Bool) (ys : List Parcel) : UInt8 :=
  if ys = [] then (if allowfinalcmd then last else op) ||| obexFinal
  else if forcefinalbit then op ||| obexFinal else op

theorem pack_calm {left : Nat} {xs ys : List Parcel} {hs : List Head} (hc : ∀ x ∈ xs, x.pause = false)
    (h : pack left xs = some (hs, ys)) : ∀ y ∈ ys, y.pause = false := by
  induction xs generalizing left hs with
  | nil =>
    cases h
    exact hc
  | cons x xs ih =>
    obtain ⟨hx, hxs⟩ := List.forall_mem_cons.1 hc
    rcases pack_cases h with ⟨-, -, -, rfl⟩ | ⟨-, -, gs, hgs, -⟩ | ⟨-, -, -, -, rfl⟩ | ⟨-, -, -, rfl⟩
    · exact hxs
    · exact ih hxs hgs
    · exact List.forall_mem_cons.2 ⟨hx, hxs⟩
    · exact hc

theorem letters_calm {xs : List Parcel} {q : List HeaderElement} (h : List.Forall₂ Letter xs q)
    (hc : ∀ x ∈ xs, x.pause = false) : ∀ e ∈ q, e.flags.suspend = false := by
  induction h with
  | nil => simp
  | @cons x e xs es hx _ ih =>
    obtain ⟨hpause, hxs⟩ := List.forall_mem_cons.1 hc
    exact List.forall_mem_cons.2 ⟨hx.pause.trans hpause, ih hxs⟩

/-- Without such a header the object is not suspended. -/
theorem fill_calm {mtuTx fuel left : Nat} {q : List HeaderElement} {x : Filled}
    (hq : ∀ e ∈ q, e.flags.suspend = false) (h : fill mtuTx fuel q left = some x) :
    x.suspend = false := by
  induction fuel generalizing q left x with
  | zero => cases h
  | succ fuel ih =>
    cases q with
    | nil =>
      cases h
      rfl
    | cons e es =>
      obtain ⟨y, hy, h⟩ := Option.bind_eq_some_iff.1 h
      have he := hq e List.mem_cons_self
      dsimp only at h
      rw [he, Bool.and_false] at h
      by_cases hmore : y.addmore = true ∧ ¬ false = true ∧ y.txLeft ≠ 0
      · rw [if_pos hmore] at h
        obtain ⟨z, hz, rfl⟩ := Option.map_eq_some_iff.1 h
        have hrest : ∀ e' ∈ y.queue, e'.flags.suspend = false := fun e' he' => by
          rw [fillHeader_removes hy hmore.1 hmore.2.2] at he'
          exact hq e' (slistRemove_subset he')
        have hz' : z.suspend = false := ih hrest hz
        exact hz'
      · rw [if_neg hmore] at h
        cases h
        rfl

/-- The headers that are found in an object, `k` at most. -/
def found (p : Option Ptr) (k : Nat) (s : Obex) : Option (List (UInt8 × HeaderValue × Nat)) :=
  p.bind fun p =>
    match readHeaders p k s with
    | .ok l _ => some l
    | .error _ _ => none

/-- What the receiver leaves alone while it takes a packet for the object at `p`. -/
structure Undisturbed (p : Ptr) (o : ObexObject) (s t : Obex) : Prop where
  handle : Unaltered s t
  mtuTx : t.mtuTx = s.mtuTx
  trans : t.trans = s.trans
  fresh : s.fresh ≤ t.fresh
  told : story t.log = story s.log
  object : ∃ o', t.objects p = some o' ∧ RxStep o o'

/-- `b` is a packet of the headers `hs` behind the data `front`. -/
def Enclosed (b : Buf) (front : Bytes) (hs : List Head) : Prop :=
  (∀ h ∈ hs, h.Valid) ∧ ∃ x : Bytes, x.length = 3 ∧ b.contents = x ++ (front ++ hs.flatMap Head.encode)

/-- An application that makes no call when a fragment of a stream is there. -/
def Buffers (E : Env) : Prop := ∀ log n, n.event = .streamavail → E.app (log ++ [.event n]) = []

section
variable {E : Env} {G : Guard} {n : Nat} {op last : UInt8} {p : Ptr} {mtu : Nat} {f : Bytes}
  {xs ys : List Parcel} {i i' : Intake} {hs : List Head} {s t : Obex} {o o' : ObexObject}

namespace Engaged

/-- The object is the same in another state of the handle. -/
theorem moved (h : Engaged op last p mtu f xs i s o) (ho : t.objects p = some o)
    (hf : t.fresh = s.fresh) (hm : t.mtuTx = s.mtuTx) (ht : t.trans = s.trans) :
    Engaged op last p mtu f xs i t o := by
  have hprep : Prepared p t o :=
    ⟨ho, h.prepared.ready, h.prepared.distinct,
      by rw [hf]; exact h.prepared.bound, by rw [hm]; exact h.prepared.mtu⟩
  refine ⟨hprep, h.letters, h.front, hm.trans h.mtuTx,
    by rw [ht]; exact h.direct, h.opcode, h.lastopcode, h.suspend, h.calm, by rw [hf]; exact h.took, ?_⟩
  unfold CanWrite
  rw [ht]
  exact h.link

/-- The library's own notes on the progress of the object. -/
theorem noted (h : Engaged op last p mtu f xs i s o) (c b k : Bool) :
    Engaged op last p mtu f xs i
      (s.setObject p (some { o with continueReceived := c, firstPacketSent := b, checked := k }))
      { o with continueReceived := c, firstPacketSent := b, checked := k } := by
  have hprep : Prepared p
    (s.setObject p (some { o with continueReceived := c, firstPacketSent := b, checked := k }))
      { o with continueReceived := c, firstPacketSent := b, checked := k } :=
    ⟨objects_setObject _ _ _, h.prepared.ready, h.prepared.distinct, h.prepared.bound, h.prepared.mtu⟩
  exact ⟨hprep, h.letters, h.front, h.mtuTx, h.direct, h.opcode, h.lastopcode, h.suspend, h.calm,
    h.took.kept ⟨rfl, rfl, rfl, rfl, rfl, rfl⟩ (Nat.le_refl _), h.link⟩

/-- What is sent is the same without the data in front. -/
theorem mailing (h : Engaged op last p mtu f xs i s o) :
    Mailing p mtu xs (s.setObject p (some { o with txNonhdrData := none }))
      { o with txNonhdrData := none } :=
  ⟨⟨objects_setObject _ _ _, h.prepared.ready, h.prepared.distinct, h.prepared.bound, h.prepared.mtu⟩,
    h.letters, rfl, h.mtuTx, h.direct⟩

/-- One call sends what is packed. -/
theorem send (h : Engaged op last p mtu f xs i s o) (hG : G.writes) (hm : ∀ k, E.malloc k = true)
    (hw : ∀ log d, 0 ≤ E.write log d) (hp : Packable (mtu - 3) xs) (hn : xs.length < n)
    (hpack : pack (mtu - 3) xs = some (hs, ys)) (a b : Bool) :
    wp (obexObjectSend (E.ctx G n) p a b) (fun r t => r = (if ys = [] ∧ a = true then 1 else 0) ∧
        Unaltered s t ∧
        story t.log = (story s.log).wrote
          (packet (sentOpcode op last a b ys) (f ++ hs.flatMap Head.encode)) ∧
        ∃ o', Engaged op last p mtu [] ys i t o' ∧ Akin o o')
      (fun _ _ => False) s := by
  obtain ⟨hleft, -, hlt⟩ := h.mailing.room
  have hleft : initialTxLeft s = mtu - 3 := hleft
  have hlen := h.letters.length_eq
  have hroom : mtu - 3 ≤ s.mtuTx := by
    rw [h.mtuTx]
    omega
  obtain ⟨y, hy, hbytes, hrest⟩ := fill_pack h.letters h.prepared.distinct hp hroom hlt
    (by omega : o.txHeaderq.length < n) hpack
  have hcalm : y.suspend = false := fill_calm (letters_calm h.letters h.calm) hy
  rw [← hleft] at hy
  have hempty : y.rest = [] ↔ ys = [] := by
    rw [← List.length_eq_zero_iff, ← List.length_eq_zero_iff, hrest.length_eq]
  have hcode : (chooseOpcode (sending o y.rest y.suspend) a b).2 = sentOpcode op last a b ys ∧
      ((chooseOpcode (sending o y.rest y.suspend) a b).1 = .last ↔ ys = [] ∧ a = true) := by
    unfold chooseOpcode sending sentOpcode
    dsimp only
    rw [h.opcode, h.lastopcode]
    by_cases hys : ys = []
    · have hno : ¬ y.rest ≠ [] := not_not.2 (hempty.2 hys)
      rw [if_neg hno, if_pos hys]
      cases a <;> simp [hys]
    · have hmore : y.rest ≠ [] := mt hempty.1 hys
      rw [if_pos hmore, if_neg hys]
      simp [hys]
  apply wp_conseq (wp_send_writes hG hm h.prepared.object (fun e he => (h.prepared.ready e he).plain)
    h.suspend hy
    (not_overruns h.letters h.prepared.distinct hp hroom) ⟨hw, h.link⟩)
  rintro r t ⟨hr, zs, hzs, m, rfl⟩
  rw [hcode.1, hbytes, h.front]
  refine ⟨?_, ⟨rfl, rfl, rfl, rfl, rfl⟩, story_write hzs _ _ _, sending { o with txNonhdrData := none }
    y.rest y.suspend, ?_, rfl, rfl⟩
  · rw [hr]
    exact if_congr hcode.2 rfl rfl
  · have hprep :=
      h.prepared.sent
      (t := s.setObject p (some (sending { o with txNonhdrData := none } y.rest y.suspend)))
      hy (objects_setObject _ _ _) rfl rfl rfl
    exact ⟨⟨objects_setObject _ _ _, hprep.ready, hprep.distinct, hprep.bound, h.prepared.mtu⟩, hrest,
      rfl, h.mtuTx, h.direct, h.opcode, h.lastopcode, hcalm, pack_calm h.calm hpack,
      h.took.kept ⟨rfl, rfl, rfl, rfl, rfl, rfl⟩ (Nat.le_refl _), h.link⟩

theorem undisturbed_frame (happ : Buffers E) (hp : s.object = some p) :
    RxFrame (E.ctx G n) (Undisturbed p o s) (fun _ _ => True) where
  stop := fun _ _ _ _ => trivial
  current := keeps_selfObject fun t ht => by
    rw [ht.handle.object, hp]
    exact Option.some_ne_none p
  rxMsg := fun _ _ ⟨⟨h1, h2, h3, h4, h5⟩, hmtu, htrans, hfresh, htold, ho⟩ =>
    ⟨⟨h1, h2, h3, h4, h5⟩, hmtu, htrans, hfresh, htold, ho⟩
  fresh := fun _ ⟨⟨h1, h2, h3, h4, h5⟩, hmtu, htrans, hfresh, htold, ho⟩ =>
    ⟨⟨h1, h2, h3, h4, h5⟩, hmtu, htrans, Nat.le_succ_of_le hfresh, htold, ho⟩
  object := by
    rintro t q x x' ⟨⟨h1, h2, h3, h4, h5⟩, hmtu, htrans, hfresh, htold, o', ho', hstep⟩ hx hx'
    refine ⟨⟨h1, h2, h3, h4, h5⟩, hmtu, htrans, hfresh, htold, ?_⟩
    by_cases hq : q = p
    · subst hq
      cases hx.symm.trans ho'
      have herase : x'.eraseRx = o.eraseRx := Eq.trans hx' hstep
      exact ⟨x', objects_setObject _ _ _, herase⟩
    · exact ⟨o', (objects_setObject_ne _ _ (Ne.symm hq)).trans ho', hstep⟩
  event := by
    rintro t ⟨⟨h1, h2, h3, h4, h5⟩, hmtu, htrans, hfresh, htold, ho⟩
    apply wp_deliverEvent
    have hkept : Undisturbed p o s (t.emit (.event (noticeOf t .streamavail 0 0))) := by
      refine ⟨⟨h1, h2, h3, h4, h5⟩, hmtu, htrans, hfresh, ?_, ho⟩
      exact (story_event (by simp [noticeOf]) (by simp [noticeOf])).trans htold
    refine wp_conseq (wp_eventcb (fun _ _ _ _ => trivial) hkept fun m _ c hc => ?_) fun _ _ h => h.1
    have hnone : E.app (t.emit (.event (noticeOf t .streamavail 0 0))).log = [] := happ _ _ rfl
    rw [hnone] at hc
    cases hc

theorem undisturbed (h : Engaged op last p mtu f xs i s o) {m : Buf} (hu : Undisturbed p o s t)
    (ht : Taking false p i' m t) : ∃ o', Engaged op last p mtu f xs i' t o' ∧ Akin o o' := by
  obtain ⟨-, hmtu, htrans, hfresh, -, o', ho', hstep⟩ := hu
  obtain ⟨-, x, hx, htook⟩ := ht
  cases ho'.symm.trans hx
  have herase : o'.eraseRx = o.eraseRx := hstep
  have hfront := congrArg ObexObject.txNonhdrData herase
  have hop := congrArg ObexObject.opcode herase
  have hlast := congrArg ObexObject.lastopcode herase
  have hsus := congrArg ObexObject.suspend herase
  have hqueue : o'.txHeaderq = o.txHeaderq := hstep.txHeaderq
  have hprep : Prepared p t o' := by
    refine ⟨ho', ?_, ?_, ?_, by rw [hmtu]; exact h.prepared.mtu⟩
    · rw [hqueue]
      exact h.prepared.ready
    · rw [hqueue]
      exact h.prepared.distinct
    · rw [hqueue]
      exact fun e he => Nat.lt_of_lt_of_le (h.prepared.bound e he) hfresh
  have hnonhdr : o'.nonhdr = f := by
    have hsame : o'.nonhdr = o.nonhdr :=
      congrArg (fun d : Option Buf => (d.map Buf.contents).getD []) hfront
    rw [hsame, h.front]
  refine ⟨o', ⟨hprep,
    by rw [hqueue]; exact h.letters, hnonhdr, hmtu.trans h.mtuTx, by rw [htrans]; exact h.direct,
    hop.trans h.opcode, hlast.trans h.lastopcode, hsus.trans h.suspend, h.calm, htook, ?_⟩, .rx hstep⟩
  unfold CanWrite
  rw [htrans]
  exact h.link

/-- The headers of a packet are taken, behind the `k` bytes that are expected in front of them. -/
theorem receive (h : Engaged op last p mtu f xs i s o) (hp : s.object = some p)
    (hm : ∀ k, E.malloc k = true) (happ : Buffers E) {k : Nat} {front : Bytes} (hk : k < 65536)
    (hlen : front.length = k) (hb : Enclosed s.rxMsg front hs)
    (hfold : hs.foldlM Intake.step i = some i') :
    wp (obexObjectReceive (E.ctx G n)) (fun r t => r = 1 ∧ Unaltered s t ∧
        story t.log = story s.log ∧ ∃ o', Engaged op last p mtu f xs i' t o' ∧ Akin o o')
      (fun _ _ => False) (s.setObject p (some { o with headeroffset := k })) := by
  obtain ⟨hv, x, hx, hc⟩ := hb
  have hgrants : Grants (E.ctx G n).malloc := fun k _ => by
    rw [ctx_malloc]
    exact hm k
  have htaken := wp_receive_takes (s := s.setObject p (some { o with headeroffset := k })) hgrants hp
    (objects_setObject _ _ _) h.took hk hx hlen hc hv hfold
  have hframe := (undisturbed_frame (G := G) (n := n) (o := o) happ hp).receive
    (s.setObject p (some { o with headeroffset := k }))
    ⟨⟨rfl, rfl, rfl, rfl, rfl⟩, rfl, rfl, Nat.le_refl _, rfl, _, objects_setObject _ _ _, rfl⟩
  refine wp_mono (wp_and htaken hframe) ?_ fun _ _ hf => hf.1
  rintro r t ⟨⟨hr, m, ht⟩, hu⟩
  exact ⟨hr, hu.handle, hu.told, h.undisturbed hu ht⟩

/-- What is found in the object when everything has been taken. -/
theorem found {l : List (UInt8 × HeaderValue × Nat)} (h : Engaged op last p mtu f xs i s o)
    (hw : ∀ y ∈ i.queue, y.whole = true ∧ y.head.Typed) (hl : (i.queue.map fun y => y.head.read) = l) :
    found (some p) (l.length + 1) s = some l := by
  have hlen : i.queue.length ≤ l.length + 1 := by
    rw [← hl, List.length_map]
    exact Nat.le_succ _
  have hread : wp (readHeaders p (l.length + 1)) (fun r _ => r = l) (fun _ _ => False) s := by
    rw [← hl] at hlen ⊢
    exact wp_readHeaders h.prepared.object h.took.queue h.took.sorted hw hlen
  unfold OpenObex.found
  rw [Option.bind_some]
  unfold wp at hread
  cases hrun : readHeaders p (l.length + 1) s with
  | ok r t =>
    rw [hrun] at hread
    exact congrArg some hread
  | error e t =>
    rw [hrun] at hread
    exact hread.elim

/-- A header that fits is accepted, and is one more parcel. -/
theorem add {a : Adding} (h : Engaged op last p mtu f xs i s o) (hm : ∀ k, E.malloc k = true)
    (ha : a.Valid) (hfit : a.fit = false) (hsus : a.suspend = false)
    (hsize : a.hi ≠ obexHdrBody → a.size ≤ mtu - 3) :
    wp (obexObjectAddheader (E.ctx G n) p a.hi a.hv a.hvSize a.flags) (fun r t => r = 1 ∧
        Unaltered s t ∧ t.log = s.log ∧
        ∃ o', Engaged op last p mtu f (xs ++ [a.parcel]) i t o' ∧ Akin o o')
      (fun _ _ => False) s := by
  have hmtu := h.prepared.mtu
  have hgranted : a.Granted (E.ctx G n) := by
    unfold Adding.Granted
    rw [ctx_malloc, hm, hm]
    exact ⟨rfl, rfl⟩
  have hsmall : ¬ a.TooBig s o := by
    rintro ⟨hb | hb, hlt⟩
    · have hle := hsize hb
      unfold maxlen at hlt
      rw [if_neg (by simp [Adding.flags, hfit]), h.mtuTx] at hlt
      rw [h.mtuTx] at hmtu
      unfold u32 at hlt
      omega
    · rw [hfit] at hb
      cases hb
  refine wp_addheader ha h.prepared.object (fun _ _ b hb hl => ?_) fun hno =>
    absurd ⟨hgranted, hsmall⟩ hno
  refine ⟨rfl, ⟨rfl, rfl, rfl, rfl, rfl⟩, rfl, withHeader o a s.fresh b, ?_, rfl, rfl⟩
  have hletters := List.rel_append h.letters (.cons (letter_of_added ha hb hl (k := s.fresh)) .nil)
  refine ⟨h.prepared.append (ready_of_added ha hb hl) rfl rfl, hletters, h.front, h.mtuTx,
    h.direct, h.opcode, h.lastopcode, h.suspend, ?_, h.took.kept ⟨rfl, rfl, rfl, rfl, rfl, rfl⟩
      (Nat.le_succ _), h.link⟩
  intro x hx
  rcases List.mem_append.1 hx with hx | hx
  · exact h.calm x hx
  · rw [List.mem_singleton.1 hx]
    exact hsus

end Engaged

end

end OpenObex
