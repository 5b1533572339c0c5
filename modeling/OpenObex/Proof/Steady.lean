import OpenObex.Proof.Law

/-!
# What no handler touches

A `Loose` invariant speaks of which objects there are, the transport, and the bytes and packets
received, but not of the rest of the handle; it is kept by the handling of a packet (`Loose.server`,
`Loose.client`) and by the application's calls (`Loose.call`), and holds also where they stop. A
`Steady` one does not even speak of the objects.
-/

namespace OpenObex

open Mem Prog

/-- What is logged only where data comes in. -/
def Obs.incoming : Obs → Bool
  | .recv _ | .read _ => true
  | _ => false

/-- An invariant of the objects there are, the transport and the data received. -/
structure Loose (P : Obex → Prop) : Prop where
  object : ∀ s q o o', P s → s.objects q = some o → P (s.setObject q (some o'))
  new : ∀ s o, P s → P (({ s with fresh := s.fresh + 1 } : Obex).setObject s.fresh (some o))
  delete : ∀ s q, P s → P (s.setObject q none)
  fresh : ∀ s, P s → P { s with fresh := s.fresh + 1 }
  state : ∀ s t, t.objects = s.objects → t.fresh = s.fresh → t.trans = s.trans → t.log = s.log →
    P s → P t
  emit : ∀ s x, x.incoming = false → P s → P (s.emit x)

/-- An invariant of the transport and the data received. -/
structure Steady (P : Obex → Prop) : Prop where
  state : ∀ s t, t.trans = s.trans → t.log = s.log → P s → P t
  emit : ∀ s x, x.incoming = false → P s → P (s.emit x)

theorem Steady.toLoose {P : Obex → Prop} (S : Steady P) : Loose P where
  object s _ _ _ hs _ := S.state s _ rfl rfl hs
  new s _ hs := S.state s _ rfl rfl hs
  delete s _ hs := S.state s _ rfl rfl hs
  fresh s hs := S.state s _ rfl rfl hs
  state s t _ _ ht hl hs := S.state s t ht hl hs
  emit := S.emit

namespace Loose

variable {E : Env} {G : Guard} {n : Nat} {P : Obex → Prop} (S : Loose P)
include S

theorem handle {s t : Obex} (hs : P s) (ho : t.objects = s.objects) (hf : t.fresh = s.fresh)
    (ht : t.trans = s.trans) (hl : t.log = s.log) : P t := S.state s t ho hf ht hl hs

theorem write (chunk : Bytes) : Still P ((E.ctx G n).write chunk) :=
  still_write (fun s _ _ hs => S.emit s _ rfl hs) chunk

section
variable (hcalls : CallsKeep E G P n)
include hcalls

theorem event (e : Event) (cmd rsp : UInt8) (del : Bool) :
    Still P (obexDeliverEvent (E.ctx G n) e cmd rsp del) := by
  intro s hs
  cases del with
  | true =>
    have hnone : P { s with object := none } := S.handle hs rfl rfl rfl rfl
    exact hcalls.deliverLast S.delete (S.emit _ _ rfl hnone)
  | false => exact wp_conseq (hcalls.deliver (S.emit _ _ rfl hs)) fun _ _ h => h.1

theorem law : Law (E.ctx G n) (fun _ => True) P P where
  stop _ h := h
  object s q o o' hs ho _ := S.object s q o o' hs ho
  delete := S.delete
  new s o hs _ := S.new s o hs
  fresh := S.fresh
  txMsg _ _ _ hs := S.handle hs rfl rfl rfl rfl
  rxMsg _ _ hs := S.handle hs rfl rfl rfl rfl
  idle _ hs := S.handle hs rfl rfl rfl rfl
  go _ _ _ _ _ _ _ := trivial
  send _ _ _ hs _ _ _ := by
    have htx (s : Obex) (b : Buf) (_ : s.txMsg.buffer.length ≤ b.buffer.length) (hs : P s) :
        P (s.setTxMsg b) := S.handle hs rfl rfl rfl rfl
    refine ⟨P, P, hs, ⟨fun _ h => h, ?_, htx, S.event hcalls _ _ _ _, ?_, htx, S.write, fun _ h => h⟩,
      fun _ h => ⟨h, trivial⟩⟩
    · exact fun s q o o' hs ho _ => S.object s q o o' hs ho
    · exact fun s _ _ _ _ hs _ _ => S.emit s _ rfl hs
  stream := RxFrame.stream ⟨stops_still P, Holds.selfObject fun _ h => h,
    fun _ _ hs => S.handle hs rfl rfl rfl rfl, S.fresh, fun s q o o' hs ho _ => S.object s q o o' hs ho,
    S.event hcalls _ _ _ _⟩
  event _ _ _ s _ hs := S.event hcalls _ _ _ _ s hs
  final _ _ _ s _ _ hs := S.event hcalls _ _ _ _ s hs

theorem serverLaw : ServerLaw (E.ctx G n) P (fun _ => P) (fun _ => True) P P P where
  toLaw := S.law hcalls
  ready _ _ := trivial
  writeTx _ _ _ hs := S.handle hs rfl rfl rfl rfl
  write := S.write
  written _ h := h
  srv _ _ hs := S.handle hs rfl rfl rfl rfl
  response s _ hs := S.emit s _ rfl hs
  denied s hs := S.emit s _ rfl hs
  disconnect _ hs := S.handle hs rfl rfl rfl rfl
  start _ hs := hs
  hint _ _ hs _ _ _ := S.event hcalls _ _ _ _ _ (S.handle (S.new _ _ hs) rfl rfl rfl rfl)
  hinted _ _ hs := hs
  connect _ hs := S.handle hs rfl rfl rfl rfl

theorem clientLaw : ClientLaw (E.ctx G n) (fun _ => P) (fun _ => P) (fun _ => True) P where
  toLaw := S.law hcalls
  cli _ _ _ hs := S.handle hs rfl rfl rfl rfl
  first _ _ _ _ _ _ _ _ := trivial
  start _ _ hs := hs
  opened _ _ _ _ hs _ _ _ := hs
  connect _ _ _ _ hs _ _ _ _ := S.handle hs rfl rfl rfl rfl
  answer _ _ hs := hs
  offset _ s q o _ hs ho := S.object s q o _ hs ho
  disconnect _ _ hs := S.handle hs rfl rfl rfl rfl
  receive _ := (S.law hcalls).rxStream.receive
  done _ s hs _ := (S.law hcalls).clientDone (fun _ s hs _ => S.event hcalls _ _ _ _ s hs) s hs
  unexpected _ s hs _ _ := (S.law hcalls).clientSend (fun _ _ _ hs => S.handle hs rfl rfl rfl rfl)
    (fun _ _ => trivial) _ s hs

theorem call (c : Call) : Still P (api (E.ctx G n) c) := by
  cases hc : c.passive with
  | true =>
    have hbase : AppBase c P (fun _ => P) := ⟨stops_still P, S.fresh,
      fun s q o o' hs ho _ => S.object s q o o' hs ho, fun s o hs _ _ => S.new s o hs, S.delete⟩
    refine hbase.passive hc fun rx tx h => ?_
    rw [h]
    refine Keeps.get_bind fun s hs => Keeps.ite (fun _ => Keeps.pure _) fun _ =>
      Keeps.ite (fun _ => Keeps.pure _) fun _ => Keeps.ite (fun _ => Keeps.pure _) fun _ => ?_
    exact Keeps.bind (Keeps.set (S.handle hs rfl rfl rfl rfl)) fun _ => Keeps.pure _
  | false =>
    cases c with
    | request p =>
      intro s hs
      refine (S.law hcalls).requestCall (fun _ _ _ hs => S.handle hs rfl rfl rfl rfl) hs fun _ => ?_
      have hs' : P { s with object := some p, mode := .cli, state := .start } :=
        S.handle hs rfl rfl rfl rfl
      exact ⟨S.emit _ _ rfl hs', trivial⟩
    | cancelRequest nice =>
      cases nice with
      | true =>
        refine CancelLaw.cancel ⟨fun s o hs _ => S.new s o hs, S.delete, ?_, S.write, ?_, ?_⟩
        · exact fun _ _ _ hs => S.handle hs rfl rfl rfl rfl
        · exact fun s _ _ _ hs _ _ _ _ => S.emit s _ rfl hs
        · exact fun s p o hs _ ho => S.handle (S.object s p o _ hs ho) rfl rfl rfl rfl
      | false => exact (S.law hcalls).cancelHard (S.event hcalls _ _ _ _)
    | resumeRequest =>
      refine fun s hs => wp_bind.2 (wp_get.2 ?_)
      cases hp : s.object with
      | none => exact hs
      | some p =>
        exact (S.law hcalls).resume (fun _ hs => S.handle hs rfl rfl rfl rfl) hs hp
          fun _ _ _ _ => trivial
    | _ => cases hc

end

theorem calls (n : Nat) : CallsKeep E G P n :=
  callsKeep (fun _ hcalls _ c s hs _ => S.call (hcalls ()) c s hs) n ()

theorem server (final : Bool) : Still P (obexServer (E.ctx G n) final) :=
  fun _ hs => (S.serverLaw (S.calls n)).server final hs

theorem client : Still P (obexClient (E.ctx G n) true) :=
  fun _ hs => (S.clientLaw (S.calls n)).client (fun _ _ => hs) hs

end Loose

end OpenObex
