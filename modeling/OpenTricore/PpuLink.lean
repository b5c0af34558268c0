import OpenTricore.Lib.Interleave
import OpenTricore.Ppu

/-! The channel between the host and the PPU core as a protocol. The core reads
command tokens from one word, and answers each with its run state: it halts for a
1 bit and keeps polling for a 0 bit. Here the core is only its phase in that
protocol. The instructions of `rt.inc` are in `OpenTricore.PpuCore`. -/

namespace OpenTricore.Ppu
open Lib Lib.Prog

/-! ## Tokens as the core reads them -/

def bitOf (tok : UInt32) : UInt32 := tok &&& 0xFF
def wordOf (tok : UInt32) : UInt32 := (tok >>> 8) &&& 0xFF

/-- The requested bit is 1. -/
def wantsHalt (result : UInt32 → UInt32) (tok : UInt32) : Bool :=
  (result (wordOf tok) >>> bitOf tok) &&& 1 != 0

/-- What the core does on a token. -/
inductive Act
  | answer (word bit : UInt32) (halts : Bool)
  | done
  deriving DecidableEq, Repr

/-! ## What is assumed of the timing -/

/-- Since the last token: the polls of the run state, the resume pokes, and whether
the core has read the command word and has halted. -/
structure Watch where
  polls : Nat
  tries : Nat
  sampled : Bool
  signalled : Bool
  deriving DecidableEq, Repr

def Watch.fresh : Watch := ⟨0, 0, false, false⟩

/-- What a poll may count on: by the 20th poll for a token the core has read it, and
has halted if its bit is 1, and after the 40th poke it is not halted any more. -/
def Watch.InTime (w : Watch) (wants halted : Bool) : Prop :=
  (19 ≤ w.polls → w.sampled = true ∧ (wants = true → w.signalled = true)) ∧
    (40 ≤ w.tries → halted = false)

/-! ## The protocol -/

inductive Phase
  | starting
  | polling (last : UInt32)
  | holding (tok : UInt32)      -- has read a new token
  | signalling (tok : UInt32)   -- about to halt for it
  | halted (tok : UInt32)
  | finished (stopped : Bool)
  deriving DecidableEq, Repr

def Phase.isHalted : Phase → Bool
  | .halted _ => true
  | .finished stopped => stopped
  | _ => false

/-- The command word, the core, and all it has done so far. -/
structure Link where
  cmd : UInt32
  phase : Phase
  poked : Bool
  watch : Watch
  log : List Act

/-- The core acts on a token it has read. -/
def Link.act (result : UInt32 → UInt32) (l : Link) (tok : UInt32) : Link :=
  if bitOf tok = 0xFF then { l with phase := .finished false, log := l.log ++ [.done] }
  else { l with
    phase := if wantsHalt result tok then .signalling tok else .polling tok
    log := l.log ++ [.answer (wordOf tok) (bitOf tok) (wantsHalt result tok)] }

/-- The next event of the core, none while it is halted and not poked. -/
def Link.next (result : UInt32 → UInt32) (l : Link) : Option Link :=
  match l.phase with
  | .starting => some { l with phase := .polling 0 }
  | .polling last =>
    some { l with
      phase := if l.cmd = last then .polling last else .holding l.cmd
      watch := { l.watch with sampled := true } }
  | .holding tok => some (l.act result tok)
  | .signalling tok =>
    some { l with phase := .halted tok, watch := { l.watch with signalled := true } }
  | .halted tok => if l.poked then some { l with phase := .polling tok, poked := false } else none
  | .finished false =>
    some { l with phase := .finished true, watch := { l.watch with signalled := true } }
  | .finished true =>
    if l.poked then some { l with phase := .finished false, poked := false } else none

def Link.Step (result : UInt32 → UInt32) (l l' : Link) : Prop := l.next result = some l'

def Link.polled (l : Link) : Link := { l with watch := { l.watch with polls := l.watch.polls + 1 } }

/-- A poke of a running core has no effect. -/
def Link.write (l : Link) (a : UInt64) (v : UInt32) : Link :=
  if a = CMD_WORD.toUInt64 then { l with cmd := v, watch := .fresh }
  else if a = PPU_CTRL.toUInt64 ∧ v = CTRL_RESUME then
    { l with poked := l.phase.isHalted, watch := { l.watch with tries := l.watch.tries + 1 } }
  else l

/-- The host's accesses, all of which succeed. -/
def Link.access (result : UInt32 → UInt32) : Env BusSig Link
  | l, .read _ a, r, l' =>
    if a.address = PPU_STAT.toUInt64 then
      l.watch.InTime (wantsHalt result l.cmd) l.phase.isHalted ∧
        (∃ v, r = some v ∧ v &&& 3 = if l.phase.isHalted then 2 else 0) ∧ l' = l.polled
    else l' = l
  | l, .write _ a v, r, l' => r = true ∧ l' = l.write a.address v

/-- The host and the core in any order of steps. -/
def channel (result : UInt32 → UInt32) : Env BusSig Link :=
  interleave (Link.Step result) (Link.access result)

section
variable {result : UInt32 → UInt32} {X : Abort → Link → Prop} {I : Link → Prop}

theorem wp_runstate (t : Target) (hI : Stable (Link.Step result) I) {Q : UInt32 → Link → Prop}
    (hQ : ∀ l, I l → l.watch.InTime (wantsHalt result l.cmd) l.phase.isHalted →
      Q (if l.phase.isHalted then 2 else 0) l.polled) {l : Link} (hl : I l) :
    (ppuRunstate t).wp (channel result) Q X l := by
  rw [wp_ppuRunstate]
  intro r l' h
  obtain ⟨l₁, hl₁, htime, ⟨v, rfl, hv⟩, rfl⟩ := interleave_cases hI hl h
  rw [Option.getD_some, hv]
  exact hQ l₁ hl₁ htime

theorem wp_write (t : Target) (hI : Stable (Link.Step result) I) {Q : Unit → Link → Prop}
    {a : UInt64} {v : UInt32} (hQ : ∀ l, I l → Q () (l.write a v)) {l : Link} (hl : I l) :
    (w t a v).wp (channel result) Q X l := by
  rw [wp_w]
  intro r l' h
  obtain ⟨l₁, hl₁, -, rfl⟩ := interleave_cases hI hl h
  exact hQ l₁ hl₁

end

@[simp] theorem Link.write_cmd (l : Link) (v : UInt32) :
    l.write CMD_WORD.toUInt64 v = { l with cmd := v, watch := .fresh } := rfl

@[simp] theorem Link.write_resume (l : Link) :
    l.write PPU_CTRL.toUInt64 CTRL_RESUME =
      { l with poked := l.phase.isHalted, watch := { l.watch with tries := l.watch.tries + 1 } } :=
  rfl

@[simp] theorem Link.write_run (l : Link) : l.write PPU_CTRL.toUInt64 CTRL_RUN = l := rfl

/-! ## The tokens of one call -/

section
variable (nout : UInt32)

/-- The token `k` of a call: the bits of the result words in order, then done. -/
def tokAt (k : Nat) : UInt32 :=
  if k < 32 * nout.toNat then
    token (UInt32.ofNat (k + 1)) (UInt32.ofNat (k / 32)) (UInt32.ofNat (k % 32))
  else token (UInt32.ofNat (k + 1)) 0xFF CMD_DONE_BIT

/-- The command word after `k` tokens. -/
def cmdAt : Nat → UInt32
  | 0 => 0
  | k + 1 => tokAt nout k

variable {nout}

theorem tokAt_data {k : Nat} (hk : k < 32 * nout.toNat) : tokAt nout k =
    token (UInt32.ofNat (k + 1)) (UInt32.ofNat (k / 32)) (UInt32.ofNat (k % 32)) := if_pos hk

theorem tokAt_done : tokAt nout (32 * nout.toNat) =
    token (UInt32.ofNat (32 * nout.toNat + 1)) 0xFF CMD_DONE_BIT := if_neg (Nat.lt_irrefl _)

theorem toNat_tokAt_data {k : Nat} (hk : k < 32 * nout.toNat) (hout : nout.toNat ≤ 256) :
    (tokAt nout k).toNat = (k + 1) * 65536 + k / 32 * 256 + k % 32 := by
  rw [tokAt_data hk, toNat_token _ _ _ (by rw [UInt32.toNat_ofNat']; omega)
    (by rw [UInt32.toNat_ofNat']; omega), UInt32.toNat_ofNat', UInt32.toNat_ofNat',
    UInt32.toNat_ofNat']
  omega

theorem toNat_tokAt_done (hout : nout.toNat ≤ 256) :
    (tokAt nout (32 * nout.toNat)).toNat = (32 * nout.toNat + 1) * 65536 + 65535 := by
  rw [tokAt_done, toNat_token _ _ _ (by decide) (by decide), UInt32.toNat_ofNat',
    show (0xFF : UInt32).toNat = 255 from rfl, show CMD_DONE_BIT.toNat = 255 from rfl]
  omega

theorem toNat_bitOf (tok : UInt32) : (bitOf tok).toNat = tok.toNat % 256 := by
  rw [bitOf, UInt32.toNat_and, show (0xFF : UInt32).toNat = 2 ^ 8 - 1 from rfl,
    Nat.and_two_pow_sub_one_eq_mod]

theorem toNat_wordOf (tok : UInt32) : (wordOf tok).toNat = tok.toNat / 256 % 256 := by
  rw [wordOf, UInt32.toNat_and, UInt32.toNat_shiftRight,
    show (0xFF : UInt32).toNat = 2 ^ 8 - 1 from rfl, Nat.and_two_pow_sub_one_eq_mod,
    show (8 : UInt32).toNat % 32 = 8 from rfl, Nat.shiftRight_eq_div_pow]

/-- The two fields of a data token. -/
theorem fields_tokAt {k : Nat} (hk : k < 32 * nout.toNat) (hout : nout.toNat ≤ 256) :
    (tokAt nout k).toNat % 256 = k % 32 ∧ (tokAt nout k).toNat / 256 % 256 = k / 32 := by
  have hword : k / 32 < 256 := by omega
  have hbit : k % 32 < 32 := Nat.mod_lt _ (by omega)
  rw [toNat_tokAt_data hk hout]
  generalize k / 32 = word at hword ⊢
  generalize k % 32 = bit at hbit ⊢
  omega

theorem bitOf_tokAt {k : Nat} (hk : k < 32 * nout.toNat) (hout : nout.toNat ≤ 256) :
    bitOf (tokAt nout k) = UInt32.ofNat (k % 32) := by
  apply UInt32.toNat_inj.mp
  rw [toNat_bitOf, (fields_tokAt hk hout).1, UInt32.toNat_ofNat']
  omega

theorem wordOf_tokAt {k : Nat} (hk : k < 32 * nout.toNat) (hout : nout.toNat ≤ 256) :
    wordOf (tokAt nout k) = UInt32.ofNat (k / 32) := by
  apply UInt32.toNat_inj.mp
  rw [toNat_wordOf, (fields_tokAt hk hout).2, UInt32.toNat_ofNat']
  omega

/-- A data token is never read as done. -/
theorem bitOf_tokAt_ne {k : Nat} (hk : k < 32 * nout.toNat) (hout : nout.toNat ≤ 256) :
    bitOf (tokAt nout k) ≠ 0xFF := by
  intro h
  have := congrArg UInt32.toNat h
  rw [toNat_bitOf, (fields_tokAt hk hout).1, show (0xFF : UInt32).toNat = 255 from rfl] at this
  omega

/-- The done token is never read as data. -/
theorem bitOf_doneToken (hout : nout.toNat ≤ 256) :
    bitOf (tokAt nout (32 * nout.toNat)) = 0xFF := by
  apply UInt32.toNat_inj.mp
  rw [toNat_bitOf, toNat_tokAt_done hout, show (0xFF : UInt32).toNat = 255 from rfl]
  omega

theorem cmdAt_nonce {k : Nat} (hk : k ≤ 32 * nout.toNat + 1) (hout : nout.toNat ≤ 256) :
    (cmdAt nout k).toNat / 65536 = k := by
  cases k with
  | zero => simp [cmdAt]
  | succ k =>
    rw [cmdAt]
    rcases Nat.lt_or_ge k (32 * nout.toNat) with hlt | hge
    · rw [toNat_tokAt_data hlt hout]
      omega
    · rw [show k = 32 * nout.toNat by omega, toNat_tokAt_done hout]
      omega

/-- Every token differs from the command word before it. -/
theorem tokAt_fresh {k : Nat} (hk : k ≤ 32 * nout.toNat) (hout : nout.toNat ≤ 256) :
    tokAt nout k ≠ cmdAt nout k := by
  intro h
  have h₁ : (cmdAt nout (k + 1)).toNat / 65536 = k + 1 := cmdAt_nonce (by omega) hout
  have h₂ : (cmdAt nout k).toNat / 65536 = k := cmdAt_nonce (by omega) hout
  rw [cmdAt, h] at h₁
  omega

end

end OpenTricore.Ppu
