import Mathlib.Tactic.IntervalCases
import OpenTricore.Lib.Arc
import OpenTricore.PpuLink

/-! The core's side of the channel: the loop of `ppu/rt.inc`, instruction by
instruction, on a board where the host may access memory and registers between any
two of them. What it does is seen from its phase in the protocol: each instruction
is an event of `Link`, or does not change the phase and brings the next event
closer. -/

namespace OpenTricore.Ppu
open Lib Lib.Prog Lib.Arc

/-! ## `rt.inc` -/

/-- Core-private scratch for the result words. -/
def RESULT : UInt32 := 0x30000400

def LPOLL : Nat := 4
def LDONE : Nat := 20

/-- From `_start` on. -/
def rtInc : List Insn :=
  [.bl,                       -- compute
    .mov 11 (.imm CMD_WORD),
    .mov 9 (.imm RESULT),
    .mov 12 (.imm 0),         -- last token seen
    -- .Lpoll
    .ld 0 11,
    .cmp 0 (.reg 12),
    .beq LPOLL,
    .mov 12 (.reg 0),
    .and 1 0 (.imm 0xFF),     -- bit index
    .cmp 1 (.imm 0xFF),
    .beq LDONE,
    .lsr 6 0 (.imm 8),
    .and 6 6 (.imm 0xFF),     -- result word index
    .ldAs 7 9 6,
    .lsr 2 7 (.reg 1),
    .and 2 2 (.imm 1),
    .cmp 2 (.imm 0),
    .beq LPOLL,               -- bit 0, keep polling
    .flag 1,                  -- bit 1, halt
    .b LPOLL,
    -- .Ldone
    .flag 1,
    .b LDONE]

/-- The core reads the LMU coherently, and below it its own scratch. -/
def view (scratch : UInt32 → UInt32) (m : Mem) (a : UInt32) : UInt32 :=
  if a < PPU_CODE_BASE then scratch a else loadWord m a.toNat

/-- The result words that `compute` has left. -/
def resultWord (scratch : UInt32 → UInt32) (word : UInt32) : UInt32 := scratch (RESULT + 4 * word)

/-- What a core does by its next instruction: the branch after the test of the bit
answers it, and the branch to `.Ldone` takes the done token. -/
def acted (c : Cpu) : List Act :=
  if c.pc = 17 then [.answer (c.regs 6) (c.regs 1) (!c.zero)]
  else if c.pc = 10 ∧ c.zero = true then [.done]
  else []

/-! ## The board -/

/-- The memory, the core, which is `none` while it is in reset, and the history. -/
structure Board where
  mem : Mem
  core : Option Cpu
  poked : Bool
  watch : Watch
  log : List Act

def Board.halted (s : Board) : Bool :=
  match s.core with
  | none => true
  | some c => c.halted

/-- The core has executed one instruction. -/
def Board.ran (s : Board) (c c' : Cpu) : Board :=
  { s with
    core := some c'
    watch := { s.watch with
      sampled := s.watch.sampled || c.pc == LPOLL
      signalled := s.watch.signalled || c'.halted }
    log := s.log ++ acted c }

/-- The core executes an instruction, or resumes after a poke. -/
inductive CoreStep (scratch : UInt32 → UInt32) (s : Board) : Board → Prop
  | run {c c' : Cpu} (hc : s.core = some c) (h : Step rtInc (view scratch s.mem) c c') :
      CoreStep scratch s (s.ran c c')
  | resume {c : Cpu} (hc : s.core = some c) (hhalted : c.halted = true) (hpoked : s.poked = true) :
      CoreStep scratch s { s with core := some { c with halted := false }, poked := false }

/-- The kernel reset stops the core, the first run request after it starts it at
`_start`, and a poke reaches it only while it is halted. -/
def Board.write (s : Board) (a : UInt64) (v : UInt32) : Board :=
  let s := { s with mem := storeWord s.mem a.toNat v }
  if a = CMD_WORD.toUInt64 then { s with watch := .fresh }
  else if a = PPU_RST_CTRLB.toUInt64 ∧ v = 1 then { s with core := none, poked := false }
  else if a = PPU_CTRL.toUInt64 ∧ v = CTRL_RUN then
    match s.core with
    | none => { s with core := some ⟨0, fun _ => 0, false, false⟩, log := [] }
    | some _ => s
  else if a = PPU_CTRL.toUInt64 ∧ v = CTRL_RESUME then
    { s with poked := s.halted, watch := { s.watch with tries := s.watch.tries + 1 } }
  else s

def Board.polled (s : Board) : Board :=
  { s with watch := { s.watch with polls := s.watch.polls + 1 } }

/-- The host's accesses, all of which succeed. The run state is 0 or 2, the other
registers read anything. -/
def Board.access (scratch : UInt32 → UInt32) : Env BusSig Board
  | s, .read _ a, r, s' =>
    if a.address = PPU_STAT.toUInt64 then
      s.watch.InTime (wantsHalt (resultWord scratch) (loadWord s.mem CMD_WORD.toNat)) s.halted ∧
        (∃ v, r = some v ∧ v &&& 3 = if s.halted then 2 else 0) ∧ s' = s.polled
    else (∃ v, r = some v ∧
      (a.address < PPU_CLC.toUInt64 → v = loadWord s.mem a.address.toNat)) ∧ s' = s
  | s, .write _ a v, r, s' => r = true ∧ s' = s.write a.address v

/-- The host, and the core beside it. -/
def board (scratch : UInt32 → UInt32) : Env BusSig Board :=
  interleave (CoreStep scratch) (Board.access scratch)

/-! ## The core as a phase of the protocol -/

def phaseOf (c : Cpu) : Phase :=
  match c.pc with
  | 0 | 1 | 2 | 3 => .starting
  | 4 => .polling (c.regs 12)
  | 5 => if c.regs 0 = c.regs 12 then .polling (c.regs 12) else .holding (c.regs 0)
  | 6 => if c.zero then .polling (c.regs 12) else .holding (c.regs 0)
  | 18 => .signalling (c.regs 12)
  | 19 => if c.halted then .halted (c.regs 12) else .polling (c.regs 12)
  | 20 | 21 => .finished c.halted
  | _ => .holding (c.regs 0)

/-- What holds before each instruction. -/
def Annotated (result : UInt32 → UInt32) (c : Cpu) : Prop :=
  let bases := c.regs 11 = CMD_WORD ∧ c.regs 9 = RESULT
  let bit := c.regs 1 = bitOf (c.regs 0)
  let fields := bit ∧ c.regs 6 = wordOf (c.regs 0)
  match c.pc with
  | 0 | 1 => c.halted = false
  | 2 => c.halted = false ∧ c.regs 11 = CMD_WORD
  | 3 | 4 | 5 | 7 => c.halted = false ∧ bases
  | 6 => c.halted = false ∧ bases ∧ c.zero = (c.regs 0 == c.regs 12)
  | 8 => c.halted = false ∧ bases ∧ c.regs 12 = c.regs 0
  | 9 => c.halted = false ∧ bases ∧ c.regs 12 = c.regs 0 ∧ bit
  | 10 => c.halted = false ∧ bases ∧ c.regs 12 = c.regs 0 ∧ bit ∧ c.zero = (c.regs 1 == 0xFF)
  | 11 => c.halted = false ∧ bases ∧ c.regs 12 = c.regs 0 ∧ bitOf (c.regs 0) ≠ 0xFF ∧ bit
  | 12 => c.halted = false ∧ bases ∧ c.regs 12 = c.regs 0 ∧ bitOf (c.regs 0) ≠ 0xFF ∧ bit ∧
      c.regs 6 = c.regs 0 >>> 8
  | 13 => c.halted = false ∧ bases ∧ c.regs 12 = c.regs 0 ∧ bitOf (c.regs 0) ≠ 0xFF ∧ fields
  | 14 => c.halted = false ∧ bases ∧ c.regs 12 = c.regs 0 ∧ bitOf (c.regs 0) ≠ 0xFF ∧ fields ∧
      c.regs 7 = result (wordOf (c.regs 0))
  | 15 => c.halted = false ∧ bases ∧ c.regs 12 = c.regs 0 ∧ bitOf (c.regs 0) ≠ 0xFF ∧ fields ∧
      c.regs 2 = result (wordOf (c.regs 0)) >>> bitOf (c.regs 0)
  | 16 => c.halted = false ∧ bases ∧ c.regs 12 = c.regs 0 ∧ bitOf (c.regs 0) ≠ 0xFF ∧ fields ∧
      c.regs 2 = (result (wordOf (c.regs 0)) >>> bitOf (c.regs 0)) &&& 1
  | 17 => c.halted = false ∧ bases ∧ c.regs 12 = c.regs 0 ∧ bitOf (c.regs 0) ≠ 0xFF ∧ fields ∧
      c.zero = !wantsHalt result (c.regs 0)
  | 18 | 20 => c.halted = false ∧ bases
  | 19 | 21 => bases
  | _ => False

/-- The board as the protocol sees it. -/
def Board.link (s : Board) (c : Cpu) : Link :=
  ⟨loadWord s.mem CMD_WORD.toNat, phaseOf c, s.poked, s.watch, s.log⟩

/-- The instructions before the next event. -/
def rank (c : Cpu) : Nat :=
  match c.pc with
  | 0 => 3
  | 1 => 2
  | 2 => 1
  | 19 | 21 => 1
  | 3 | 4 | 18 | 20 => 0
  | pc => 17 - pc

section
variable {scratch : UInt32 → UInt32}

theorem view_cmd (m : Mem) : view scratch m CMD_WORD = loadWord m CMD_WORD.toNat := rfl

/-- The result words are in the scratch. -/
theorem view_result (m : Mem) (tok : UInt32) :
    view scratch m (RESULT + 4 * wordOf tok) = resultWord scratch (wordOf tok) := by
  have hword : (wordOf tok).toNat < 256 := by
    rw [toNat_wordOf]
    exact Nat.mod_lt _ (by omega)
  apply if_pos
  rw [UInt32.lt_iff_toNat_lt, UInt32.toNat_add, UInt32.toNat_mul,
    show RESULT.toNat = 0x30000400 from rfl, show (4 : UInt32).toNat = 4 from rfl,
    show PPU_CODE_BASE.toNat = 0xB0000000 from rfl]
  omega

theorem annotated_pc {result : UInt32 → UInt32} {c : Cpu} (h : Annotated result c) :
    c.pc < 22 := by
  by_contra hge
  unfold Annotated at h
  split at h <;> omega

/-- Every instruction leads from its annotation to the next one. -/
theorem annotated_run {m : Mem} {c c' : Cpu} (h : Annotated (resultWord scratch) c)
    (hstep : Step rtInc (view scratch m) c c') : Annotated (resultWord scratch) c' := by
  obtain ⟨pc, regs, zero, halted⟩ := c
  obtain ⟨hrun, i, hi, hc'⟩ := hstep
  have hpc := annotated_pc h
  dsimp only at hrun hpc hi hc'
  subst hrun
  interval_cases pc
  case «0» =>
    cases hi
    rw [if_pos rfl] at hc'
    obtain ⟨pc', regs', zero', halted'⟩ := c'
    obtain ⟨hpc', hhalted'⟩ := hc'
    dsimp only at hpc' hhalted'
    subst hpc' hhalted'
    rfl
  all_goals
    cases hi
    rw [if_neg (by decide)] at hc'
    subst hc'
  case «6» | «17» => cases zero <;> simp_all [Annotated, Insn.exec, LPOLL]
  case «10» =>
    obtain ⟨-, hbases, hr12, hbit, hzero⟩ := h
    dsimp only at hbases hr12 hbit hzero
    cases zero with
    | true => exact ⟨rfl, hbases⟩
    | false =>
      have hne : regs 1 ≠ 0xFF := by simpa using hzero.symm
      exact ⟨rfl, hbases, hr12, hbit ▸ hne, hbit⟩
  case «13» =>
    obtain ⟨-, hbases, hr12, hdata, hfields⟩ := h
    refine ⟨rfl, hbases, hr12, hdata, hfields, ?_⟩
    dsimp only at hbases hfields
    change view scratch m (regs 9 + 4 * regs 6) = _
    rw [hbases.2, hfields.2]
    exact view_result m (regs 0)
  case «16» =>
    obtain ⟨-, hbases, hr12, hdata, hfields, hr2⟩ := h
    refine ⟨rfl, hbases, hr12, hdata, hfields, ?_⟩
    dsimp only at hr2
    change (regs 2 == 0) = !wantsHalt (resultWord scratch) (regs 0)
    rw [hr2, wantsHalt, bne, Bool.not_not]
  all_goals
    simp_all [Annotated, Insn.exec, Operand.value, LPOLL, LDONE, bitOf, wordOf, view_cmd]

/-- An instruction is an event of the protocol, or brings the next one closer. -/
theorem run_advances {s : Board} {c c' : Cpu} (h : Annotated (resultWord scratch) c)
    (hstep : Step rtInc (view scratch s.mem) c c') :
    Link.Step (resultWord scratch) (s.link c) ((s.ran c c').link c') ∨
      (s.ran c c').link c' = s.link c ∧ rank c' < rank c := by
  obtain ⟨pc, regs, zero, halted⟩ := c
  obtain ⟨hrun, i, hi, hc'⟩ := hstep
  have hpc := annotated_pc h
  dsimp only at hrun hpc hi hc'
  subst hrun
  interval_cases pc
  case «0» =>
    cases hi
    rw [if_pos rfl] at hc'
    obtain ⟨pc', regs', zero', halted'⟩ := c'
    obtain ⟨hpc', hhalted'⟩ := hc'
    dsimp only at hpc' hhalted'
    subst hpc' hhalted'
    right
    simp [Board.link, Board.ran, phaseOf, acted, rank, LPOLL]
  all_goals
    cases hi
    rw [if_neg (by decide)] at hc'
    subst hc'
  case «3» | «4» | «18» | «20» =>
    left
    simp_all [Annotated, Insn.exec, Operand.value, Link.Step, Link.next, Board.link, Board.ran,
      phaseOf, acted, LPOLL, view_cmd]
  case «10» =>
    obtain ⟨-, hbases, hr12, hbit, hzero⟩ := h
    dsimp only at hbases hr12 hbit hzero
    cases zero with
    | true =>
      left
      have hdone : bitOf (regs 0) = 0xFF := by
        rw [← hbit]
        simpa using hzero.symm
      simp [Insn.exec, Link.Step, Link.next, Link.act, Board.link, Board.ran, phaseOf, acted,
        LPOLL, LDONE, hdone]
    | false =>
      right
      simp [Insn.exec, Board.link, Board.ran, phaseOf, acted, rank, LPOLL]
  case «17» =>
    obtain ⟨-, hbases, hr12, hdata, hfields, hzero⟩ := h
    dsimp only at hbases hr12 hdata hfields hzero
    left
    cases zero <;>
      simp_all [Insn.exec, Link.Step, Link.next, Link.act, Board.link, Board.ran, phaseOf, acted,
        LPOLL]
  case «6» =>
    right
    cases zero <;> simp_all [Insn.exec, Board.link, Board.ran, phaseOf, acted, rank, LPOLL]
  all_goals
    right
    simp_all [Annotated, Insn.exec, Operand.value, Board.link, Board.ran, phaseOf, acted, rank,
      LPOLL, LDONE]

end

end OpenTricore.Ppu
