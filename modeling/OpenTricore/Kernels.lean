import Mathlib.Algebra.BigOperators.Group.Finset.Basic
import OpenTricore.KernelBoard

/-! The kernels `sum.s` and `checksum.s` behind `rt.inc`. What each computes is what the host is
given: the call returns the sum of its operands, whatever the order of the steps. -/

namespace OpenTricore.Ppu
open Lib Lib.Prog Lib.Arc

/-! ## `sum.s` -/

/-- `compute` of `sum.s`. -/
def sum : List Op :=
  [.plain (.mov 3 (.imm INPUT_BASE)),
    .plain (.ld 4 3),               -- A
    .ldOff 5 3 4,                   -- B
    .add 4 4 (.reg 5),
    .plain (.mov 8 (.imm RESULT)),
    .st 4 8,                        -- RESULT[0] = sum
    .ret]

/-- What holds before each instruction of `sum.s`. -/
def SumAt (inputs : Nat → UInt32) (c : Cpu) (x : UInt32) : Prop :=
  (c.halted = false ∧ c.regs BLINK = 1) ∧
  match c.pc with
  | 22 => True
  | 23 => c.regs 3 = INPUT_BASE
  | 24 => c.regs 3 = INPUT_BASE ∧ c.regs 4 = inputs 0
  | 25 => c.regs 4 = inputs 0 ∧ c.regs 5 = inputs 1
  | 26 => c.regs 4 = inputs 0 + inputs 1
  | 27 => c.regs 4 = inputs 0 + inputs 1 ∧ c.regs 8 = RESULT
  | 28 => x = inputs 0 + inputs 1
  | _ => False

theorem sum_pc {inputs : Nat → UInt32} {c : Cpu} {x : UInt32} (h : SumAt inputs c x) :
    22 ≤ c.pc ∧ c.pc < 29 := by
  by_contra hout
  obtain ⟨-, h⟩ := h
  split at h <;> omega

theorem sum_step (inputs : Nat → UInt32) (load : UInt32 → UInt32) (c : Cpu) (x : UInt32)
    (hload : Given inputs 2 load) (h : SumAt inputs c x) :
    ∃ op, (linked sum)[c.pc]? = some op ∧ Goes 22 1 RESULT (inputs 0 + inputs 1) (SumAt inputs)
      (fun c => 29 - c.pc) c x (op.exec load c).1 (op.exec load c).2 := by
  obtain ⟨hlow, hhigh⟩ := sum_pc h
  obtain ⟨pc, regs, zero, halted⟩ := c
  obtain ⟨⟨hrun, hback⟩, h⟩ := h
  dsimp only at hlow hhigh hrun hback h ⊢
  subst hrun
  interval_cases pc
  case «22» =>
    exact ⟨_, rfl, .quiet rfl ⟨⟨rfl, hback⟩, rfl⟩ (by simp [Op.exec, Insn.exec])⟩
  case «23» =>
    have hfirst : load (regs 3) = inputs 0 := by
      rw [h]
      exact hload 0 (by decide)
    exact ⟨_, rfl, .quiet rfl ⟨⟨rfl, hback⟩, h, hfirst⟩ (by simp [Op.exec, Insn.exec])⟩
  case «24» =>
    have hsecond : load (regs 3 + 4) = inputs 1 := by
      rw [h.1]
      exact hload 1 (by decide)
    exact ⟨_, rfl, .quiet rfl ⟨⟨rfl, hback⟩, h.2, hsecond⟩ (by simp [Op.exec])⟩
  case «25» =>
    have hadd : regs 4 + regs 5 = inputs 0 + inputs 1 := by
      rw [h.1, h.2]
    exact ⟨_, rfl, .quiet rfl ⟨⟨rfl, hback⟩, hadd⟩ (by simp [Op.exec])⟩
  case «26» =>
    exact ⟨_, rfl, .quiet rfl ⟨⟨rfl, hback⟩, h, rfl⟩ (by simp [Op.exec, Insn.exec])⟩
  case «27» =>
    obtain ⟨hsum, hresult⟩ := h
    refine ⟨_, rfl, rfl, .inr ?_, .inl ⟨⟨⟨rfl, hback⟩, ?_⟩, by simp [Op.exec]⟩⟩
    · exact congrArg some (Prod.ext hresult hsum)
    · simp [Op.exec, stored, hresult, hsum]
  case «28» =>
    refine ⟨_, rfl, rfl, .inl rfl, .inr ⟨?_, h⟩⟩
    show (regs BLINK).toNat = 1
    rw [hback]
    rfl

theorem sum_routine (inputs : Nat → UInt32) :
    Routine (linked sum) 22 1 (Given inputs 2) RESULT (inputs 0 + inputs 1) (SumAt inputs)
      fun c => 29 - c.pc where
  enter := fun c x hpc hrun hback => ⟨⟨hrun, hback⟩, by rw [hpc]; trivial⟩
  inside := fun c x h => ⟨(sum_pc h).1, h.1.1⟩
  step := sum_step inputs

/-! ## `checksum.s` -/

def LSUM : Nat := 26
def LEND : Nat := 33

/-- `compute` of `checksum.s`. -/
def checksum : List Op :=
  [.plain (.mov 3 (.imm INPUT_BASE)),
    .plain (.ld 4 3),               -- count
    .add 3 3 (.imm 4),              -- buffer start
    .plain (.mov 5 (.imm 0)),       -- running sum
    -- .Lsum
    .plain (.cmp 4 (.imm 0)),
    .plain (.beq LEND),
    .plain (.ld 6 3),
    .add 5 5 (.reg 6),
    .add 3 3 (.imm 4),
    .sub 4 4 (.imm 1),
    .plain (.b LSUM),
    -- .Lend
    .plain (.mov 8 (.imm RESULT)),
    .st 5 8,                        -- RESULT[0] = sum
    .ret]

/-- The sum of the first `k` words of the buffer. -/
def sumOf (inputs : Nat → UInt32) (k : Nat) : UInt32 :=
  UInt32.ofNat (∑ i ∈ Finset.range k, (inputs (i + 1)).toNat)

theorem sumOf_succ (inputs : Nat → UInt32) (k : Nat) :
    sumOf inputs (k + 1) = sumOf inputs k + inputs (k + 1) := by
  rw [sumOf, Finset.sum_range_succ, UInt32.ofNat_add, UInt32.ofNat_toNat]
  rfl

/-- `k` words have been added, and `left` are to be. -/
structure Adding (inputs : Nat → UInt32) (regs : Reg → UInt32) (k left : Nat) : Prop where
  all : k + left = (inputs 0).toNat
  next : regs 3 = INPUT_BASE + 4 * UInt32.ofNat (k + 1)
  count : regs 4 = UInt32.ofNat left
  sum : regs 5 = sumOf inputs k

/-- What holds before each instruction of `checksum.s`. -/
def ChecksumAt (inputs : Nat → UInt32) (c : Cpu) (x : UInt32) : Prop :=
  (c.halted = false ∧ c.regs BLINK = 1) ∧
  match c.pc with
  | 22 => True
  | 23 => c.regs 3 = INPUT_BASE
  | 24 => c.regs 3 = INPUT_BASE ∧ c.regs 4 = inputs 0
  | 25 => c.regs 3 = INPUT_BASE + 4 ∧ c.regs 4 = inputs 0
  | 26 | 32 => ∃ k left, Adding inputs c.regs k left
  | 27 => ∃ k left, Adding inputs c.regs k left ∧ c.zero = (c.regs 4 == 0)
  | 28 => ∃ k left, Adding inputs c.regs k (left + 1)
  | 29 => ∃ k left, Adding inputs c.regs k (left + 1) ∧ c.regs 6 = inputs (k + 1)
  | 30 => ∃ k left, k + 1 + left = (inputs 0).toNat ∧
      c.regs 3 = INPUT_BASE + 4 * UInt32.ofNat (k + 1) ∧ c.regs 4 = UInt32.ofNat (left + 1) ∧
      c.regs 5 = sumOf inputs (k + 1)
  | 31 => ∃ k left, k + 1 + left = (inputs 0).toNat ∧
      c.regs 3 = INPUT_BASE + 4 * UInt32.ofNat (k + 2) ∧ c.regs 4 = UInt32.ofNat (left + 1) ∧
      c.regs 5 = sumOf inputs (k + 1)
  | 33 => c.regs 5 = sumOf inputs (inputs 0).toNat
  | 34 => c.regs 5 = sumOf inputs (inputs 0).toNat ∧ c.regs 8 = RESULT
  | 35 => x = sumOf inputs (inputs 0).toNat
  | _ => False

/-- The instructions up to the return. -/
def checksumRank (c : Cpu) : Nat :=
  match c.pc with
  | 22 => 8 * 2 ^ 32 + 12
  | 23 => 8 * 2 ^ 32 + 11
  | 24 => 8 * (c.regs 4).toNat + 10
  | 25 | 32 => 8 * (c.regs 4).toNat + 9
  | 33 => 3
  | 34 => 2
  | 35 => 1
  | pc => 8 * (c.regs 4).toNat + (34 - pc)

theorem checksum_pc {inputs : Nat → UInt32} {c : Cpu} {x : UInt32} (h : ChecksumAt inputs c x) :
    22 ≤ c.pc ∧ c.pc < 36 := by
  by_contra hout
  obtain ⟨-, h⟩ := h
  split at h <;> omega

theorem next_word (k : Nat) :
    INPUT_BASE + 4 * UInt32.ofNat k + 4 = INPUT_BASE + 4 * UInt32.ofNat (k + 1) := by
  rw [UInt32.ofNat_add, UInt32.mul_add, ← UInt32.add_assoc]
  rfl

theorem sub_one (left : Nat) : UInt32.ofNat (left + 1) - 1 = UInt32.ofNat left := by
  rw [UInt32.ofNat_add]
  exact UInt32.add_sub_cancel ..

theorem Adding.toNat_left {inputs : Nat → UInt32} {regs : Reg → UInt32} {k left : Nat}
    (h : Adding inputs regs k left) : (regs 4).toNat = left := by
  have hlt := (inputs 0).toNat_lt
  have hall := h.all
  rw [h.count]
  exact UInt32.toNat_ofNat_of_lt' (show left < 2 ^ 32 by omega)

theorem checksum_step (inputs : Nat → UInt32) (load : UInt32 → UInt32) (c : Cpu) (x : UInt32)
    (hload : Given inputs ((inputs 0).toNat + 1) load) (h : ChecksumAt inputs c x) :
    ∃ op, (linked checksum)[c.pc]? = some op ∧ Goes 22 1 RESULT (sumOf inputs (inputs 0).toNat)
      (ChecksumAt inputs) checksumRank c x (op.exec load c).1 (op.exec load c).2 := by
  obtain ⟨hlow, hhigh⟩ := checksum_pc h
  obtain ⟨pc, regs, zero, halted⟩ := c
  obtain ⟨⟨hrun, hback⟩, h⟩ := h
  dsimp only at hlow hhigh hrun hback h ⊢
  subst hrun
  interval_cases pc
  case «22» =>
    exact ⟨_, rfl, .quiet rfl ⟨⟨rfl, hback⟩, rfl⟩ (by simp [checksumRank, Op.exec, Insn.exec])⟩
  case «23» =>
    have hcount : load (regs 3) = inputs 0 := by
      rw [h]
      exact hload 0 (Nat.succ_pos _)
    refine ⟨_, rfl, .quiet rfl ⟨⟨rfl, hback⟩, h, hcount⟩ ?_⟩
    have hlt := (load (regs 3)).toNat_lt
    simp [checksumRank, Op.exec, Insn.exec]
    omega
  case «24» =>
    refine ⟨_, rfl, .quiet rfl ⟨⟨rfl, hback⟩, congrArg (· + 4) h.1, h.2⟩ ?_⟩
    simp [checksumRank, Op.exec]
  case «25» =>
    refine ⟨_, rfl, .quiet rfl ⟨⟨rfl, hback⟩, 0, (inputs 0).toNat, ?_⟩ ?_⟩
    · refine ⟨Nat.zero_add _, h.1, ?_, rfl⟩
      rw [UInt32.ofNat_toNat]
      exact h.2
    · simp [checksumRank, Op.exec, Insn.exec]
  case «26» =>
    obtain ⟨k, left, hadding⟩ := h
    refine ⟨_, rfl, .quiet rfl ⟨⟨rfl, hback⟩, k, left, hadding, rfl⟩ ?_⟩
    simp [checksumRank, Op.exec, Insn.exec]
  case «27» =>
    obtain ⟨k, left, hadding, hzero⟩ := h
    have hleft := hadding.toNat_left
    cases left with
    | zero =>
      have hcount : regs 4 = 0 := hadding.count
      have hz : zero = true := by
        rw [hzero, hcount]
        rfl
      subst hz
      refine ⟨_, rfl, .quiet rfl ⟨⟨rfl, hback⟩, ?_⟩ ?_⟩
      · rw [← hadding.all]
        exact hadding.sum
      · simp [checksumRank, Op.exec, Insn.exec, LEND]
    | succ left =>
      have hz : zero = false := by
        rw [hzero, beq_eq_false_iff_ne]
        intro heq
        rw [heq] at hleft
        cases hleft
      subst hz
      refine ⟨_, rfl, .quiet rfl ⟨⟨rfl, hback⟩, k, left, hadding⟩ ?_⟩
      simp [checksumRank, Op.exec, Insn.exec]
  case «28» =>
    obtain ⟨k, left, hadding⟩ := h
    have hword : load (regs 3) = inputs (k + 1) := by
      have hnext : regs 3 = INPUT_BASE + 4 * UInt32.ofNat (k + 1) := hadding.next
      have hall := hadding.all
      rw [hnext]
      exact hload (k + 1) (by omega)
    have hadding' : Adding inputs (fun r => if r = 6 then load (regs 3) else regs r) k (left + 1) :=
      ⟨hadding.all, hadding.next, hadding.count, hadding.sum⟩
    refine ⟨_, rfl, .quiet rfl ⟨⟨rfl, hback⟩, k, left, hadding', hword⟩ ?_⟩
    simp [checksumRank, Op.exec, Insn.exec]
  case «29» =>
    obtain ⟨k, left, ⟨hall, hnext, hcount, hsum⟩, hword⟩ := h
    have hadd : regs 5 + regs 6 = sumOf inputs (k + 1) := by
      rw [sumOf_succ, ← hword, ← hsum]
    refine ⟨_, rfl, .quiet rfl ⟨⟨rfl, hback⟩, k, left, by omega, hnext, hcount, hadd⟩ ?_⟩
    simp [checksumRank, Op.exec]
  case «30» =>
    obtain ⟨k, left, hall, hnext, hcount, hsum⟩ := h
    have hmove : regs 3 + 4 = INPUT_BASE + 4 * UInt32.ofNat (k + 2) := by
      rw [hnext, next_word]
    refine ⟨_, rfl, .quiet rfl ⟨⟨rfl, hback⟩, k, left, hall, hmove, hcount, hsum⟩ ?_⟩
    simp [checksumRank, Op.exec]
  case «31» =>
    obtain ⟨k, left, hall, hnext, hcount, hsum⟩ := h
    have hdown : regs 4 - 1 = UInt32.ofNat left := by
      rw [hcount, sub_one]
    refine ⟨_, rfl, .quiet rfl ⟨⟨rfl, hback⟩, k + 1, left, hall, hnext, hdown, hsum⟩ ?_⟩
    have hlt := (inputs 0).toNat_lt
    have hnew : (regs 4 - 1).toNat = left := by
      rw [hdown]
      exact UInt32.toNat_ofNat_of_lt' (show left < 2 ^ 32 by omega)
    have hold : (regs 4).toNat = left + 1 := by
      rw [hcount]
      exact UInt32.toNat_ofNat_of_lt' (show left + 1 < 2 ^ 32 by omega)
    simp only [checksumRank, Op.exec, Operand.value, Cpu.set_pc, Cpu.set_regs, ↓reduceIte,
      hnew, hold]
    omega
  case «32» =>
    obtain ⟨k, left, hadding⟩ := h
    refine ⟨_, rfl, .quiet rfl ⟨⟨rfl, hback⟩, k, left, hadding⟩ ?_⟩
    simp [checksumRank, Op.exec, Insn.exec, LSUM]
  case «33» =>
    refine ⟨_, rfl, .quiet rfl ⟨⟨rfl, hback⟩, h, rfl⟩ ?_⟩
    simp [checksumRank, Op.exec, Insn.exec]
  case «34» =>
    obtain ⟨hsum, hresult⟩ := h
    refine ⟨_, rfl, rfl, .inr ?_, .inl ⟨⟨⟨rfl, hback⟩, ?_⟩, ?_⟩⟩
    · exact congrArg some (Prod.ext hresult hsum)
    · simp [Op.exec, stored, hresult, hsum]
    · simp [checksumRank, Op.exec]
  case «35» =>
    refine ⟨_, rfl, rfl, .inl rfl, .inr ⟨?_, h⟩⟩
    show (regs BLINK).toNat = 1
    rw [hback]
    rfl

theorem checksum_routine (inputs : Nat → UInt32) :
    Routine (linked checksum) 22 1 (Given inputs ((inputs 0).toNat + 1)) RESULT
      (sumOf inputs (inputs 0).toNat) (ChecksumAt inputs) checksumRank where
  enter := fun c x hpc hrun hback => ⟨⟨hrun, hback⟩, by rw [hpc]; trivial⟩
  inside := fun c x h => ⟨(checksum_pc h).1, h.1.1⟩
  step := checksum_step inputs

/-! ## The calls -/

/-- In every run of the call, with at least two operands, `sum.s` gives their sum. -/
theorem sum_call (lmu : Lmu) (t : Target) (image : Nat → UInt8) (len : UInt32)
    (inputs : Nat → UInt32) (nin : UInt32) (outputs : Nat → UInt32) (nout : UInt32)
    (hfits : Fits lmu len nin) (hnin : 2 ≤ nin.toNat) (hout : 1 ≤ nout.toNat ∧ nout.toNat ≤ 256)
    (s : Rig) (x : Except Abort (Int × (Nat → UInt32))) (s' : Rig)
    (hrun : Runs (rig (linked sum)) (ppuCall t image len inputs nin outputs nout) s x s') :
    Gives (inputs 0 + inputs 1) x := by
  obtain ⟨hok, herr⟩ :=
    hrun.sound _ (ppuCall_rig (sum_routine inputs) hfits hnin t hout outputs s)
  cases x with
  | ok x => exact hok x rfl
  | error e => exact (herr e rfl).elim

/-- In every run of the call, `checksum.s` gives the sum of as many words as the first operand
says, if the host has given that many. -/
theorem checksum_call (lmu : Lmu) (t : Target) (image : Nat → UInt8) (len : UInt32)
    (inputs : Nat → UInt32) (nin : UInt32) (outputs : Nat → UInt32) (nout : UInt32)
    (hfits : Fits lmu len nin) (hcount : (inputs 0).toNat + 1 ≤ nin.toNat)
    (hout : 1 ≤ nout.toNat ∧ nout.toNat ≤ 256) (s : Rig)
    (x : Except Abort (Int × (Nat → UInt32))) (s' : Rig)
    (hrun : Runs (rig (linked checksum)) (ppuCall t image len inputs nin outputs nout) s x s') :
    Gives (sumOf inputs (inputs 0).toNat) x := by
  obtain ⟨hok, herr⟩ :=
    hrun.sound _ (ppuCall_rig (checksum_routine inputs) hfits hcount t hout outputs s)
  cases x with
  | ok x => exact hok x rfl
  | error e => exact (herr e rfl).elim

/-- Two words, 3 and 4. -/
def twoWords : Nat → UInt32
  | 0 => 2
  | 1 => 3
  | 2 => 4
  | _ => 0

theorem checksum_call_two : ∃ x s',
    Runs (rig (linked checksum)) (ppuCall ⟨0, 0⟩ (fun _ => 0) 0x60 twoWords 3 (fun _ => 0) 1)
      ⟨⟨fun _ => 0, none, false, .fresh, []⟩, fun _ => 0⟩ x s' ∧ Gives 7 x := by
  have hfits : Fits ⟨0x10000, by decide, by decide⟩ 0x60 3 := ⟨by decide, by decide⟩
  have hcount : (twoWords 0).toNat + 1 ≤ (3 : UInt32).toNat := by decide
  obtain ⟨x, s', hrun⟩ := ppuCall_rig_can (checksum_routine twoWords) hfits hcount ⟨0, 0⟩
    (by decide : (1 : UInt32).toNat ≤ 256) (fun _ => 0)
    ⟨⟨fun _ => 0, none, false, .fresh, []⟩, fun _ => 0⟩
  exact ⟨x, s', hrun, checksum_call _ _ _ _ twoWords 3 _ 1 hfits hcount (by decide) _ _ _ hrun⟩

end OpenTricore.Ppu
