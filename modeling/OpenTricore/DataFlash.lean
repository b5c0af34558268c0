import OpenTricore.Lib.Prog

/-! The data flash driver, `bsp/tc4d7/flash.c`. It runs on the chip, so its accesses
are loads and stores that cannot fail. `dsync` and `settle` have no effect on the
command interpreter and are left out.

* `flashEraseSector_ends`, `flashWritePage_ends`: on each exit the flash is in read
  mode. -/

namespace OpenTricore
open Lib Lib.Prog

namespace DataFlash

/-! ## Registers -/

/-- A volatile access of four bytes. -/
inductive MmioOp
  | read (a : UInt32)
  | write (a v : UInt32)
  deriving DecidableEq, Repr

def MmioSig : Sig where
  Op := MmioOp
  Res
    | .read _ => UInt32
    | .write .. => Unit

abbrev Mmio := Prog MmioSig Empty

def load (a : UInt32) : Mmio UInt32 := Prog.perform (S := MmioSig) (.read a)
def store (a v : UInt32) : Mmio Unit := Prog.perform (S := MmioSig) (.write a v)

/-- `for (int t = 0; t < n; t++) if (done(R(a))) break;`, with whether it was done. -/
def poll (a : UInt32) (done : UInt32 → Bool) : Nat → Mmio Bool
  | 0 => return false
  | n + 1 => do if done (← load a) then return true else poll a done n

section
variable {σ : Type} (E : Env MmioSig σ) {X : Empty → σ → Prop}

theorem wp_load {Q : UInt32 → σ → Prop} (a : UInt32) (s : σ) :
    (load a).wp E Q X s ↔ ∀ (r : UInt32) s', E s (.read a) r s' → Q r s' := Iff.rfl

theorem wp_store {Q : Unit → σ → Prop} (a v : UInt32) (s : σ) :
    (store a v).wp E Q X s ↔ ∀ (r : Unit) s', E s (.write a v) r s' → Q r s' := Iff.rfl

@[simp] theorem asks_load {P : MmioSig.Op → Prop} {R : UInt32 → Prop} (a : UInt32) :
    (load a).Asks P R ↔ P (MmioOp.read a) ∧ ∀ r, R r := Iff.rfl

@[simp] theorem asks_store {P : MmioSig.Op → Prop} {R : Unit → Prop} (a v : UInt32) :
    (store a v).Asks P R ↔ P (MmioOp.write a v) ∧ ∀ r, R r := Iff.rfl

theorem asks_poll {P : MmioSig.Op → Prop} {R : Bool → Prop} {a : UInt32} {done : UInt32 → Bool}
    (ha : P (MmioOp.read a)) (hR : ∀ b, R b) (n : Nat) : (poll a done n).Asks P R := by
  induction n with
  | zero => exact hR false
  | succ n ih =>
    rw [poll, asks_bind, asks_load]
    refine ⟨ha, fun r => ?_⟩
    split
    · exact hR true
    · exact ih

/-- Polling keeps what reading the register keeps. -/
theorem wp_poll_kept {I : σ → Prop} {Q : Bool → σ → Prop} {a : UInt32} {done : UInt32 → Bool}
    (hI : ∀ s (r : UInt32) s', I s → E s (.read a) r s' → I s') (hQ : ∀ b s, I s → Q b s) (n : Nat)
    {s : σ} (hs : I s) : (poll a done n).wp E Q X s := by
  induction n generalizing s with
  | zero => exact hQ false s hs
  | succ n ih =>
    rw [poll, wp_bind, wp_load]
    intro r s' hr
    have hs' := hI s r s' hs hr
    split
    · exact hQ true s' hs'
    · exact ih hs'

end

def CMD : UInt32 := 0xF8080000
def ST : UInt32 := 0xF8040004
def ERR : UInt32 := 0xF8040010

/-- `1u << n`. -/
def bit (n : UInt32) : UInt32 := 1 <<< n

/-- The states of a protection register. -/
def RUN : UInt32 := 4
def CONFIG : UInt32 := 1

/-- SQER, PROER, PVER, EVER and OPER. -/
def ERR_MASK : UInt32 := bit 1 ||| bit 2 ||| bit 6 ||| bit 7 ||| bit 16

/-! ## The driver -/

def clearStatus : Mmio Unit := store (CMD ||| 0x5554) 0xFA

def resetRead : Mmio Unit := store (CMD ||| 0x5554) 0xF0

/-- Poll a bit of the status, at most `n` times. -/
def pollStatus (b : UInt32) : Nat → Mmio Bool
  | 0 => return false
  | n + 1 => do if (← load ST) &&& bit b ≠ 0 then return true else pollStatus b n

def waitDone : Mmio Bool := pollStatus 31 4000000   -- REQDONE

/-- The end of both functions. -/
def finish : Mmio Int := do
  let done ← waitDone
  let er ← load ERR
  resetRead
  return if done ∧ er &&& ERR_MASK = 0 then 0 else -1

def flashEraseSector (addr : UInt32) : Mmio Int := do
  clearStatus
  store (CMD ||| 0xaa50) addr
  store (CMD ||| 0xaa58) 1
  store (CMD ||| 0xaaa8) 0x80
  store (CMD ||| 0xaaa8) 0x50
  finish

def flashWritePage (addr lo hi : UInt32) : Mmio Int := do
  clearStatus
  store (CMD ||| 0x5554) 0x5D   -- enter page mode
  if ← pollStatus 24 2000000 then   -- DFPAGE
    store (CMD ||| 0x55f4) lo
    store (CMD ||| 0x55f4) hi
    store (CMD ||| 0xaa50) addr
    store (CMD ||| 0xaa58) 0
    store (CMD ||| 0xaaa8) 0xA0
    store (CMD ||| 0xaaa8) 0xAA
    finish
  else
    resetRead
    return -1

/-! ## The command interpreter -/

/-- Whether the interpreter is in page mode. `0x5D` at `0x5554` enters it and `0xF0`
leaves it; a command may leave it too. Reads answer anything. -/
def interpreter : Env MmioSig Bool
  | paged, .read _, _, paged' => paged' = paged
  | paged, .write a v, _, paged' =>
    if a = CMD ||| 0x5554 then
      paged' = if v = 0x5D then true else if v = 0xF0 then false else paged
    else paged' = true → paged = true

/-- However the status reads, `p` returns 0 or -1 with the flash in read mode. -/
def EndsInRead (p : Mmio Int) : Prop :=
  ∀ paged, p.wp interpreter (fun rc paged' => (rc = 0 ∨ rc = -1) ∧ paged' = false)
    (fun _ _ => False) paged

theorem EndsInRead.after {α : Type} {f : α → Mmio Int} (hf : ∀ a, EndsInRead (f a)) (p : Mmio α) :
    EndsInRead (p >>= f) := by
  intro paged
  rw [wp_bind]
  induction p generalizing paged with
  | ret a => exact hf a paged
  | fail e => exact e.elim
  | ask o k ih => exact fun r s' _ => ih r s'

theorem resetRead_ends {rc : Int} (h : rc = 0 ∨ rc = -1) :
    EndsInRead (resetRead >>= fun _ => .ret rc) :=
  fun _ _ _ hreset => ⟨h, hreset⟩

theorem finish_ends : EndsInRead finish := by
  refine EndsInRead.after (fun done => EndsInRead.after (fun er => resetRead_ends ?_) _) _
  split
  · exact .inl rfl
  · exact .inr rfl

theorem flashEraseSector_ends (addr : UInt32) : EndsInRead (flashEraseSector addr) := by
  unfold flashEraseSector
  iterate 5 apply EndsInRead.after; intro _
  exact finish_ends

theorem flashWritePage_ends (addr lo hi : UInt32) : EndsInRead (flashWritePage addr lo hi) := by
  unfold flashWritePage
  iterate 2 apply EndsInRead.after; intro _
  apply EndsInRead.after
  intro pm
  split
  · iterate 6 apply EndsInRead.after; intro _
    exact finish_ends
  · exact resetRead_ends (.inr rfl)

end DataFlash

end OpenTricore
