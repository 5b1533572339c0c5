import OpenObex.Proof.Sockets

/-!
# The fragmenting writer

`do_write` asks the transport for at most `trans.mtu` bytes at a time, from the first byte that has
not been accepted, and gives back the answer to its last request. It stops at a zero as it stops at an
error, but `obex_object_send` takes every answer that is not negative for a success. So a packet is
written whole, or the failure is seen, exactly when no request is answered with zero: `Answering` says
which requests are made.
-/

namespace OpenObex

open Mem Prog

/-! ## The requests -/

/-- The bytes the write function has accepted. -/
def accepted (xs : List Obs) : Bytes :=
  xs.flatMap fun x => match x with
    | .io chunk r => chunk.take r.toNat
    | _ => []

/-- With the bytes `w` unsent, `xs` are requests for at most `mtu` bytes, each from the first unsent
byte. -/
def Requests (mtu : Nat) : Bytes → List Obs → Prop
  | _, [] => True
  | w, .io chunk r :: xs => chunk.length ≤ mtu ∧ chunk <+: w ∧ Requests mtu (w.drop r.toNat) xs
  | _, _ :: _ => False

/-- The write function answers −1 or with a count up to the size it is asked for. -/
def ValidWriter (E : Env) : Prop :=
  ∀ log chunk, E.write log chunk = -1 ∨ 0 ≤ E.write log chunk ∧ E.write log chunk ≤ chunk.length

/-- From the log `log` with `w` unsent, the write function's counts lead to `log'` with `w'` unsent. -/
inductive Answering (E : Env) (mtu : Nat) : List Obs → Bytes → List Obs → Bytes → Prop
  | done (log : List Obs) (w : Bytes) : Answering E mtu log w log w
  | part {log log' : List Obs} {w w' : Bytes} {r : Int} (hw : w ≠ [])
      (hr : E.write log (w.take mtu) = r) (hpos : 0 < r)
      (h : Answering E mtu (log ++ [.io (w.take mtu) r]) (w.drop r.toNat) log' w') :
      Answering E mtu log w log' w'

/-- No request is answered with zero. -/
def NoZero (E : Env) (mtu : Nat) (log : List Obs) (w : Bytes) : Prop :=
  ∀ log' w', Answering E mtu log w log' w' → w' ≠ [] → E.write log' (w'.take mtu) ≠ 0

/-- The writer comes back; it has made its requests as it should; and if its answer is not negative,
they have been answered with the whole packet. -/
def Reliable (E : Env) (n : Nat) (s : Obex) : Prop :=
  wp (obexTransportWrite (E.ctx .all n)) (fun r s' => ∃ xs, s'.log = s.log ++ xs ∧
    Requests s.trans.mtu s.txMsg.contents xs ∧ (0 ≤ r → accepted xs = s.txMsg.contents))
    (fun _ _ => False) s

theorem take_size (w : Bytes) (mtu : Nat) :
    w.take (if mtu < w.length then mtu else w.length) = w.take mtu := by
  by_cases h : mtu < w.length
  · rw [if_pos h]
  · rw [if_neg h, List.take_length, List.take_of_length_le (by omega)]

variable {E : Env} {n mtu : Nat}

/-! ## One request -/

/-- With bytes unsent, the loop makes one request and goes on after a positive answer. -/
theorem wp_doWriteLoop_step {fuel : Nat} {actual : Int} {Q : Int → Obex → Prop}
    {R : Stop → Obex → Prop} {s : Obex} (hne : s.txMsg.contents ≠ []) {r : Int}
    (hr : E.write s.log (s.txMsg.contents.take mtu) = r) :
    wp (doWriteLoop (E.ctx .all n) mtu (fuel + 1) actual) Q R s ↔
      if r ≤ 0 then Q r (s.emit (.io (s.txMsg.contents.take mtu) r))
      else wp (doWriteLoop (E.ctx .all n) mtu fuel r) Q R
        ((s.emit (.io (s.txMsg.contents.take mtu) r)).setTxMsg (bufRemoveBegin s.txMsg r.toNat)) := by
  have hsize : s.txMsg.dataSize ≠ 0 := fun h => hne (contents_eq_nil h)
  have hlen : s.txMsg.dataSize = s.txMsg.contents.length := (length_contents _).symm
  rw [doWriteLoop, wp_bind, wp_get]
  dsimp only
  rw [if_neg hsize, hlen, take_size, wp_bind, ctx_write, Env.transportWrite, wp_bind, wp_get, wp_bind,
    wp_emit, wp_bind, wp_allowed, hr]
  by_cases hpos : r ≤ 0
  · rw [if_pos hpos]
    constructor
    · intro h
      have hq := h.1 rfl
      rwa [wp_pure, if_pos hpos] at hq
    · intro h
      refine ⟨fun _ => ?_, fun hf => by cases hf⟩
      rw [wp_pure, if_pos hpos]
      exact h
  · rw [if_neg hpos]
    constructor
    · intro h
      have hq := h.1 rfl
      rwa [wp_pure, if_neg hpos] at hq
    · intro h
      refine ⟨fun _ => ?_, fun hf => by cases hf⟩
      rw [wp_pure, if_neg hpos]
      exact h

theorem wp_doWriteLoop_nil {fuel : Nat} {actual : Int} {Q : Int → Obex → Prop}
    {R : Stop → Obex → Prop} {s : Obex} (hnil : s.txMsg.contents = []) :
    wp (doWriteLoop (E.ctx .all n) mtu (fuel + 1) actual) Q R s ↔ Q actual s := by
  have hsize : s.txMsg.dataSize = 0 := by
    rw [← length_contents, hnil]
    rfl
  rw [doWriteLoop, wp_bind, wp_get]
  dsimp only
  rw [if_pos hsize, wp_pure]

theorem sent_contents (s : Obex) (x : Obs) (k : Nat) :
    ((s.emit x).setTxMsg (bufRemoveBegin s.txMsg k)).txMsg.contents = s.txMsg.contents.drop k :=
  contents_bufRemoveBegin _ _

theorem length_drop_lt {w : Bytes} (hne : w ≠ []) {k : Nat} (hk : 0 < k) :
    (w.drop k).length < w.length := by
  have hpos : 0 < w.length := List.length_pos_iff.2 hne
  rw [List.length_drop]
  omega

/-! ## Without a zero -/

theorem accepted_step {w : Bytes} {r : Int} (hle : r.toNat ≤ (w.take mtu).length) (xs : List Obs) :
    accepted (.io (w.take mtu) r :: xs) = w.take r.toNat ++ accepted xs := by
  have hmin : r.toNat ≤ mtu := Nat.le_trans hle (List.length_take_le _ _)
  show (w.take mtu).take r.toNat ++ accepted xs = _
  rw [List.take_take, Nat.min_eq_left hmin]

theorem NoZero.part {log : List Obs} {w : Bytes} {r : Int} (h : NoZero E mtu log w) (hw : w ≠ [])
    (hr : E.write log (w.take mtu) = r) (hpos : 0 < r) :
    NoZero E mtu (log ++ [.io (w.take mtu) r]) (w.drop r.toNat) := by
  intro log' w' hs
  exact h log' w' (.part hw hr hpos hs)

/-- The loop, by induction on the fuel, which stays above what is unsent. -/
theorem wp_doWriteLoop (hE : ValidWriter E) (fuel : Nat) : ∀ (actual : Int) (s : Obex),
    s.txMsg.contents.length < fuel → NoZero E mtu s.log s.txMsg.contents →
    wp (doWriteLoop (E.ctx .all n) mtu fuel actual) (fun r s' => ∃ xs, s'.log = s.log ++ xs ∧
      Requests mtu s.txMsg.contents xs ∧ (0 ≤ r → accepted xs = s.txMsg.contents))
      (fun _ _ => False) s := by
  induction fuel with
  | zero =>
    intro actual s hfuel _
    exact absurd hfuel (Nat.not_lt_zero _)
  | succ fuel ih =>
    intro actual s hfuel hz
    by_cases hne : s.txMsg.contents = []
    · rw [wp_doWriteLoop_nil hne, hne]
      exact ⟨[], (List.append_nil _).symm, trivial, fun _ => rfl⟩
    · obtain ⟨r, hr⟩ : ∃ r, E.write s.log (s.txMsg.contents.take mtu) = r := ⟨_, rfl⟩
      have hlen : (s.txMsg.contents.take mtu).length ≤ mtu := List.length_take_le _ _
      rw [wp_doWriteLoop_step hne hr]
      by_cases hpos : 0 < r
      · -- a part of the packet is accepted; what is left is shorter
        rw [if_neg (by omega)]
        have hle : r.toNat ≤ (s.txMsg.contents.take mtu).length := by
          have hvalid := hE s.log (s.txMsg.contents.take mtu)
          rw [hr] at hvalid
          omega
        have hshort := length_drop_lt hne (k := r.toNat) (by omega)
        have hrest := ih r ((s.emit (.io (s.txMsg.contents.take mtu) r)).setTxMsg
          (bufRemoveBegin s.txMsg r.toNat)) (by rw [sent_contents]; omega)
          (by rw [sent_contents]; exact hz.part hne hr hpos)
        refine wp_conseq hrest fun r' s' h => ?_
        obtain ⟨xs, hlog, hreq, hacc⟩ := h
        rw [sent_contents] at hreq hacc
        refine ⟨.io (s.txMsg.contents.take mtu) r :: xs, ?_, ⟨hlen, List.take_prefix _ _, hreq⟩, ?_⟩
        · rw [hlog]
          exact List.append_assoc _ _ _
        · intro hr'
          rw [accepted_step hle, hacc hr', List.take_append_drop]
      · rw [if_pos (by omega)]
        refine ⟨[_], rfl, ⟨hlen, List.take_prefix _ _, trivial⟩, fun hr' => ?_⟩
        have hzero := hz _ _ (.done _ _) hne
        omega

/-! ## With a zero -/

theorem Answering.log {log log' : List Obs} {w w' : Bytes} (hE : ValidWriter E)
    (h : Answering E mtu log w log' w') : ∃ xs, log' = log ++ xs ∧ accepted xs ++ w' = w := by
  induction h with
  | done log w => exact ⟨[], (List.append_nil _).symm, rfl⟩
  | @part log log' w w' r hw hr hpos _ ih =>
    obtain ⟨xs, hlog, hacc⟩ := ih
    have hle : r.toNat ≤ (w.take mtu).length := by
      have hvalid := hE log (w.take mtu)
      rw [hr] at hvalid
      omega
    refine ⟨.io (w.take mtu) r :: xs, ?_, ?_⟩
    · rw [hlog, List.append_assoc]
      rfl
    · rw [accepted_step hle, List.append_assoc, hacc, List.take_append_drop]

/-- The run of the loop goes through every point of `Answering`. -/
theorem Answering.run {log log' : List Obs} {w w' : Bytes} (h : Answering E mtu log w log' w')
    {Q : Int → Obex → Prop} {R : Stop → Obex → Prop} : ∀ (fuel : Nat) (actual : Int) (s : Obex),
    s.log = log → s.txMsg.contents = w → w.length < fuel →
    wp (doWriteLoop (E.ctx .all n) mtu fuel actual) Q R s →
    ∃ fuel' actual' s', s'.log = log' ∧ s'.txMsg.contents = w' ∧ w'.length < fuel' ∧
      wp (doWriteLoop (E.ctx .all n) mtu fuel' actual') Q R s' := by
  induction h with
  | done log w =>
    intro fuel actual s hlog hw hfuel hwp
    exact ⟨fuel, actual, s, hlog, hw, hfuel, hwp⟩
  | @part log log' w w' r hw hr hpos _ ih =>
    intro fuel actual s hlog hc hfuel hwp
    obtain ⟨fuel, rfl⟩ : ∃ k, fuel = k + 1 := ⟨fuel - 1, by omega⟩
    have hne : s.txMsg.contents ≠ [] := by rwa [hc]
    have hr' : E.write s.log (s.txMsg.contents.take mtu) = r := by rw [hlog, hc, hr]
    rw [wp_doWriteLoop_step hne hr', if_neg (by omega)] at hwp
    have hshort := length_drop_lt hw (k := r.toNat) (by omega)
    refine ih fuel r _ ?_ ?_ (by omega) hwp
    · show s.log ++ [_] = _
      rw [hlog, hc]
    · rw [sent_contents, hc]

/-- A zero ends the loop as a success with a part of the packet. -/
theorem reliable_noZero (hE : ValidWriter E) {s : Obex} (hs : s.trans.type.socket = true)
    (h : Reliable E n s) : NoZero E s.trans.mtu s.log s.txMsg.contents := by
  intro log' w' hsend hne hzero
  have hloop : wp (doWriteLoop (E.ctx .all n) s.trans.mtu (s.txMsg.dataSize + 1) (-1))
      (fun r s' => ∃ xs, s'.log = s.log ++ xs ∧ Requests s.trans.mtu s.txMsg.contents xs ∧
        (0 ≤ r → accepted xs = s.txMsg.contents)) (fun _ _ => False) s := by
    unfold Reliable at h
    rw [obexTransportWrite, wp_bind, wp_get] at h
    cases ht : s.trans.type with
    | custom => rw [ht] at hs; cases hs
    | usb => rw [ht] at hs; cases hs
    | _ =>
      rw [ht] at h
      exact h
  obtain ⟨fuel, actual, t, hlog, hc, hfuel, hwp⟩ := hsend.run _ _ s rfl rfl
    (by rw [length_contents]; exact Nat.lt_succ_self _) hloop
  obtain ⟨fuel, rfl⟩ : ∃ k, fuel = k + 1 := ⟨fuel - 1, by omega⟩
  have hne' : t.txMsg.contents ≠ [] := by rwa [hc]
  have hzero' : E.write t.log (t.txMsg.contents.take s.trans.mtu) = 0 := by rw [hlog, hc, hzero]
  rw [wp_doWriteLoop_step hne' hzero', if_pos (by omega)] at hwp
  obtain ⟨xs, hxs, -, hacc⟩ := hwp
  obtain ⟨ys, hys, hpart⟩ := hsend.log hE
  -- the log has grown by `ys` and the request that got the zero
  have hemit : t.log ++ [.io (t.txMsg.contents.take s.trans.mtu) 0] = s.log ++ xs := hxs
  rw [hlog, hys, List.append_assoc] at hemit
  have hxs' : ys ++ [_] = xs := List.append_cancel_left hemit
  have hall := hacc (Int.le_refl 0)
  have hzero'' : accepted xs = accepted ys := by
    rw [← hxs']
    unfold accepted
    rw [List.flatMap_append]
    exact List.append_nil _
  rw [hzero'', ← hpart] at hall
  have hnil : accepted ys ++ [] = accepted ys ++ w' := by rw [List.append_nil]; exact hall
  exact hne (List.append_cancel_left hnil).symm

/-! ## The main result -/

/-- On the transports that fragment, a packet is written reliably exactly when no request is answered
with zero. -/
theorem reliable_iff (E : Env) (n : Nat) (s : Obex) (hE : ValidWriter E)
    (hs : s.trans.type.socket = true) :
    Reliable E n s ↔ NoZero E s.trans.mtu s.log s.txMsg.contents := by
  constructor
  · exact reliable_noZero hE hs
  · intro hz
    have hloop := wp_doWriteLoop (n := n) hE (s.txMsg.dataSize + 1) (-1) s
      (by rw [length_contents]; exact Nat.lt_succ_self _) hz
    unfold Reliable
    rw [obexTransportWrite, wp_bind, wp_get]
    cases ht : s.trans.type with
    | custom => rw [ht] at hs; cases hs
    | usb => rw [ht] at hs; cases hs
    | _ => exact hloop

/-- A write function that takes two bytes at a time. -/
def twoAtATime : Env where
  malloc _ := true
  app _ := []
  write _ chunk := (chunk.take 2).length
  read _ _ := none

theorem twoAtATime_valid : ValidWriter twoAtATime := by
  intro log chunk
  right
  show (0 : Int) ≤ ((chunk.take 2).length : Int) ∧ ((chunk.take 2).length : Int) ≤ chunk.length
  rw [List.length_take]
  omega

/-- A handle with the three bytes of a DISCONNECT to be sent. -/
def oneDisconnect : Obex :=
  { obexInit .fd with
    txMsg := (bufInsertEnd (fun _ => true) (freshBuf 1024) [0x81, 0, 3]).getD (freshBuf 0)
    trans := { type := .fd, connected := true, mtu := 1024 } }

theorem contents_oneDisconnect : oneDisconnect.txMsg.contents = [0x81, 0, 3] := by decide +kernel

theorem reliable_iff_two :
    Reliable twoAtATime 0 oneDisconnect ↔ NoZero twoAtATime 1024 [] oneDisconnect.txMsg.contents :=
  reliable_iff twoAtATime 0 oneDisconnect twoAtATime_valid rfl

/-- A write function that takes two bytes, and then none. -/
def twoThenNone : Env where
  malloc _ := true
  app _ := []
  write log chunk := if log = [] then (chunk.take 2).length else 0
  read _ _ := none

theorem twoThenNone_valid : ValidWriter twoThenNone := by
  intro log chunk
  unfold twoThenNone
  dsimp only
  by_cases hlog : log = []
  · rw [if_pos hlog]
    exact twoAtATime_valid log chunk
  · rw [if_neg hlog]
    exact .inr ⟨Int.le_refl 0, Int.natCast_nonneg _⟩

/-- The third byte is not written, and nobody hears of it. -/
theorem zero_not_reliable : ¬ ∀ (E : Env) (n : Nat) (s : Obex), ValidWriter E →
    s.trans.type.socket = true → s.txMsg.contents ≠ [] → Reliable E n s := by
  intro h
  obtain ⟨s, hsocket, hmtu, hlog, hpacket⟩ : ∃ s : Obex, s.trans.type.socket = true ∧
    s.trans.mtu = 1024 ∧
      s.log = [] ∧ s.txMsg.contents = [0x81, 0, 3] :=
        ⟨oneDisconnect, rfl, rfl, rfl, contents_oneDisconnect⟩
  have hne : s.txMsg.contents ≠ [] := by
    rw [hpacket]
    exact List.cons_ne_nil _ _
  have hz := reliable_noZero twoThenNone_valid hsocket (h twoThenNone 0 s twoThenNone_valid hsocket hne)
  have htwo : twoThenNone.write [] ([0x81, 0, 3].take 1024) = 2 := by
    rw [List.take_of_length_le (by decide)]
    rfl
  have hfirst : Answering twoThenNone 1024 [] [0x81, 0, 3] [.io ([0x81, 0, 3].take 1024) 2] [3] :=
    .part (r := 2) (List.cons_ne_nil _ _) htwo (by decide) (.done _ _)
  rw [hmtu, hlog, hpacket] at hz
  exact hz _ _ hfirst (List.cons_ne_nil _ _) rfl

end OpenObex
