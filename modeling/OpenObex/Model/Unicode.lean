import OpenObex.Model.State
import Mathlib.Logic.Function.Basic

/-!
# Strings (`OBEX_UnicodeToChar` and `OBEX_CharToUnicode` of `obex.c`, and their use on names)

These functions work on memory of the application: `Memory` maps the address of a block to its
bytes, and a load or a store outside its block is a fault. `int` arithmetic wraps.
-/

namespace OpenObex

open Mem

abbrev Memory := Ptr → Option Bytes

abbrev StrM := EStateM Stop Memory

/-- The block at `p`. -/
def block (p : Ptr) : StrM Bytes := do
  match (← get) p with
  | some b => pure b
  | none => throw (.fault .dangling)

/-- `p[i]` -/
def load (p : Ptr) (i : Int) : StrM UInt8 := do
  let b ← block p
  if h : 0 ≤ i ∧ i.toNat < b.length then pure (b.get ⟨i.toNat, h.2⟩)
  else throw (.fault .outOfBounds)

/-- `p[i] = x` -/
def store (p : Ptr) (i : Int) (x : UInt8) : StrM Unit := do
  let b ← block p
  if 0 ≤ i ∧ i.toNat < b.length then
    modify fun m => Function.update m p (some (b.set i.toNat x))
  else throw (.fault .outOfBounds)

/-! ## From Unicode

The loops run up to a zero. They leave their block before `fuel` ends. -/

/-- `for (n = 0; uc[n*2+1] != 0; n++);` from `n` on. -/
def scanUnicode (uc : Ptr) : Nat → Int → StrM Int
  | 0, _ => throw .timeout
  | fuel + 1, n => do
    if (← load uc (i32 (n * 2 + 1))) = 0 then pure n
    else scanUnicode uc fuel (i32 (n + 1))

/-- `for (n = 0; uc[n*2+1] != 0; n++) c[n] = uc[n*2+1];` from `n` on. -/
def copyChars (c uc : Ptr) : Nat → Int → StrM Int
  | 0, _ => throw .timeout
  | fuel + 1, n => do
    if (← load uc (i32 (n * 2 + 1))) = 0 then pure n
    else do
      store c n (← load uc (i32 (n * 2 + 1)))
      copyChars c uc fuel (i32 (n + 1))

def obexUnicodeToChar (c uc : Option Ptr) (size : Int) : StrM Int :=
  match uc, c with
  | some uc, some c => do
    let fuel := (← block uc).length + 1
    let n ← scanUnicode uc fuel 0
    if n < size then do
      let n ← copyChars c uc fuel 0
      store c n 0
      pure 0
    else pure (-1)
  | _, _ => pure (-1)

/-! ## To Unicode -/

/-- `strlen`, from `n` on. -/
def strlen (c : Ptr) : Nat → Nat → StrM Nat
  | 0, _ => throw .timeout
  | fuel + 1, n => do
    if (← load c n) = 0 then pure n else strlen c fuel (n + 1)

/-- `while (n--) { uc[n*2+1] = c[n]; uc[n*2] = 0; }`; from `n` it is `u32 n` steps down to zero. -/
def storePairs (uc c : Ptr) : Nat → Int → StrM Unit
  | 0, _ => throw .timeout
  | fuel + 1, n =>
    if n = 0 then pure ()
    else do
      let n := i32 (n - 1)
      store uc (i32 (n * 2 + 1)) (← load c n)
      store uc (i32 (n * 2)) 0
      storePairs uc c fuel n

def obexCharToUnicode (uc c : Option Ptr) (size : Int) : StrM Int :=
  match uc, c with
  | some uc, some c => do
    let len := i32 (← strlen c ((← block c).length + 1) 0)
    if i32 (len * 2 + 2) ≤ size then do
      store uc (i32 (len * 2 + 1)) 0
      store uc (i32 (len * 2)) 0
      storePairs uc c (u32 len + 1) len
      pure (i32 (len * 2 + 2))
    else pure (-1)
  | _, _ => pure (-1)

/-! ## Names (`new_file` and `ircp_srv_setpath` of `ircp_server.c`) -/

/-- `if ((name = malloc(hlen / 2))) OBEX_UnicodeToChar(name, hv.bs, hlen);` where `malloc` would give
out the block `name`, which holds the bytes `junk`. -/
def receiveName (malloc : Nat → Bool) (name : Ptr) (junk : Bytes) (bs : Ptr) (hlen : Nat) :
    StrM (Option Ptr) :=
  if malloc (hlen / 2) then do
    modify fun m => Function.update m name (some junk)
    let _ ← obexUnicodeToChar (some name) (some bs) (i32 hlen)
    pure (some name)
  else pure none

end OpenObex
