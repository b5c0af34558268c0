import OpenTricore.Lib.Arc
import OpenTricore.Lib.Interleave
import OpenTricore.Ppu
import OpenTricore.Smp

/-! The PPU beside the TriCore on the shared LMU: `ppu/fastio.s` and `fastio_demo.c`. The TriCore
opens the LMU, puts 16 words there, starts the kernel, polls until it sleeps and counts the words
that are right. What the core executes is the image that the TriCore has stored. -/

namespace OpenTricore.Fastio
open Lib Lib.Prog Lib.Arc Relation
open DataFlash (MmioSig Mmio load store poll)
open Lmu (lmuGrant storeAll)
open Ppu (PPU_CLC PPU_RST_CTRLA PPU_RST_CTRLB PPU_RST_STAT PPU_CTRL PPU_STAT PPU_VECBASE
  PPU_CODE_BASE CTRL_RUN)
open Smp (Soc bus Plain bus_read bus_plain bus_window plain_low plain_reg)

/-! ## The code -/

def IN_BASE : UInt32 := 0xB0400100
def OUT_BASE : UInt32 := 0xB0400200
def N : UInt32 := 16

def LLOOP : Nat := 3

/-- `fastio.s`. -/
def fastio : List Op :=
  [.plain (.mov 4 (.imm IN_BASE)),
    .plain (.mov 5 (.imm OUT_BASE)),
    .plain (.mov 6 (.imm 16)),   -- element count
    -- .Lloop
    .plain (.ld 0 4),
    .add 0 0 (.reg 0),   -- out = in * 2
    .st 0 5,
    .add 4 4 (.imm 4),
    .add 5 5 (.imm 4),
    .subF 6 6 (.imm 1),
    .bne LLOOP,
    .sleep,
    .plain (.b 11)]

/-- `fastio.s` assembled, with the address of the entry before it. -/
def kernel : List UInt32 :=
  [0xb0000004, 0x0f80240a, 0x0100b040, 0x0f80250a, 0x0200b040,
    0x0400264a, 0x00001400, 0x00002000, 0x00001d00, 0x01042440,
    0x01052540, 0x80462642, 0xffc207e8, 0x003f216f, 0x00000001]

/-- The inputs 1 to 16, and the outputs cleared. -/
def FEED : List (UInt32 × UInt32) :=
  (List.range 16).flatMap fun i => [(slot IN_BASE i, UInt32.ofNat i + 1), (slot OUT_BASE i, 0)]

def feed : Mmio Unit := storeAll FEED

/-- The image, word by word. -/
def CODE : List (UInt32 × UInt32) :=
  kernel.zipIdx.map fun (x : UInt32 × Nat) => (slot PPU_CODE_BASE x.2, x.1)

/-- The delay after the clock is switched on has no effect that shows here. -/
def ppuBoot : Mmio Unit := do
  storeAll CODE
  store PPU_CLC 0
  store PPU_VECBASE PPU_CODE_BASE
  store PPU_RST_CTRLA 1
  store PPU_RST_CTRLB 1
  let _ ← poll PPU_RST_STAT (fun r => r &&& 7 == 2) 100000   -- kernel reset done
  store PPU_RST_CTRLB 0x80000000   -- clear reset status
  store PPU_CTRL CTRL_RUN

/-- The count of the words that are right. -/
def scan : List Nat → UInt32 → Mmio UInt32
  | [], ok => return ok
  | i :: is, ok => do
    let r ← load (slot OUT_BASE i)
    scan is (if r = (UInt32.ofNat i + 1) * 2 then ok + 1 else ok)

structure Report where
  slept : Bool   -- whether the poll has seen the core asleep
  ok : UInt32

/-- The flags and the heartbeat, which is repeated for ever. -/
def report (slept : Bool) (ok : UInt32) : Mmio Report := do
  let first ← load (slot OUT_BASE 0)
  store 0x70000004 first
  let stat ← load PPU_STAT
  store 0x7000000C stat
  store 0x70000000 ok
  return ⟨slept, ok⟩

/-- What `main` does before the first poll. -/
def launch : Mmio Unit := do
  lmuGrant
  feed
  ppuBoot

/-- `main` up to the first heartbeat. -/
def main (polls : Nat) : Mmio Report := do
  launch
  let slept ← poll PPU_STAT (fun r => r &&& 3 == 1) polls
  let ok ← scan (List.range 16) 0
  report slept ok

/-! ## The chip -/

/-- The memory, and the core of the PPU, if it is not in reset. -/
structure Chip where
  soc : Soc
  core : Option Cpu
  asleep : Bool

/-- The clock is on, and the core finds the program where it starts: the address of the first
instruction, then the instructions. -/
structure Loaded (prog : List Op) (w : UInt32 → UInt32) : Prop where
  clock : w PPU_CLC = 0
  vectors : w PPU_VECBASE = PPU_CODE_BASE
  code : ∃ ws, assemble (PPU_CODE_BASE + 4) prog = some ws ∧
    ∀ x ∈ ((PPU_CODE_BASE + 4) :: ws).zipIdx, w (slot PPU_CODE_BASE x.2) = x.1

/-- The core executes an instruction, with its own tag as a master. If the program is not
there, anything may happen. -/
inductive CoreStep (arc : Nat) (s : Chip) : Chip → Prop
  | run {c : Cpu} {op : Op} {soc : Soc} (hc : s.core = some c) (hawake : s.asleep = false)
      (hloaded : Loaded fastio s.soc.words) (hop : fastio[c.pc]? = some op)
      (hstore : match (op.exec s.soc.word c).2 with
        | some (a, v) => bus arc s.soc (.write a v) () soc
        | none => soc = s.soc) :
      CoreStep arc s ⟨soc, some (op.exec s.soc.word c).1, decide (op = .sleep)⟩
  | astray {c : Cpu} (hc : s.core = some c) (h : ¬ Loaded fastio s.soc.words) (s' : Chip) :
      CoreStep arc s s'

/-- A core that starts is before the first instruction. -/
def started : Cpu := ⟨0, fun _ => 0, false, false⟩

/-- The core after a write: the kernel reset stops it, and a run request starts it. -/
def Chip.core' (s : Chip) (a v : UInt32) : Option Cpu × Bool :=
  if a = PPU_RST_CTRLB ∧ v = 1 then (none, false)
  else if a = PPU_CTRL ∧ v = CTRL_RUN ∧ s.core = none then (some started, false)
  else (s.core, s.asleep)

/-- The accesses of the TriCore. The status says whether the core sleeps. -/
def Chip.access (tri : Nat) : Env MmioSig Chip
  | s, .read a, r, s' => s' = s ∧ (Lmu.InWindow a → r = s.soc.lmu.words a) ∧
      (a = PPU_STAT → s.core.isSome → ((show UInt32 from r) &&& 3 = 1 ↔ s.asleep = true))
  | s, .write a v, u, s' => bus tri s.soc (.write a v) u s'.soc ∧ (s'.core, s'.asleep) = s.core' a v

/-- The TriCore, and the core beside it. -/
def chip (arc tri : Nat) : Env MmioSig Chip := interleave (CoreStep arc) (Chip.access tri)

/-- The words that `fastio_demo.c` has for the kernel are `fastio.s` assembled. -/
theorem kernel_assembled :
    (assemble (PPU_CODE_BASE + 4) fastio).map ((PPU_CODE_BASE + 4) :: ·) = some kernel := by
  decide

/-! ## The vectors -/

theorem slot_window {base : UInt32} {i : Nat} (hi : i < 16)
    (hbase : base = IN_BASE ∨ base = OUT_BASE) : Lmu.InWindow (slot base i) := by
  have hlow : 0xB0400000 ≤ base.toNat ∧ base.toNat ≤ 0xB0400200 := by
    rcases hbase with rfl | rfl
    · decide
    · decide
  have hslot : (slot base i).toNat = base.toNat + 4 * i := toNat_slot (by omega)
  rw [Lmu.InWindow, UInt32.le_iff_toNat_le, UInt32.lt_iff_toNat_lt]
  simp only [UInt32.reduceToNat]
  omega

theorem out_ne_in {i j : Nat} (hi : i < 16) (hj : j < 16) : slot IN_BASE i ≠ slot OUT_BASE j := by
  intro heq
  have hnat := congrArg UInt32.toNat heq
  have hin : IN_BASE.toNat = 0xB0400100 := rfl
  have hout : OUT_BASE.toNat = 0xB0400200 := rfl
  rw [toNat_slot (by omega), toNat_slot (by omega)] at hnat
  omega

theorem out_inj {i j : Nat} (hi : i < 16) (hj : j < 16) (h : slot OUT_BASE i = slot OUT_BASE j) :
    i = j := by
  have hnat := congrArg UInt32.toNat h
  have hout : OUT_BASE.toNat = 0xB0400200 := rfl
  rw [toNat_slot (by omega), toNat_slot (by omega)] at hnat
  omega

section
variable {inp : Nat → UInt32} {w : UInt32 → UInt32} {k : Nat}

/-- The inputs are in place. -/
def Fed (inp : Nat → UInt32) (w : UInt32 → UInt32) : Prop := ∀ i < 16, w (slot IN_BASE i) = inp i

/-- The first `k` outputs are there. -/
def Outs (inp : Nat → UInt32) (k : Nat) (w : UInt32 → UInt32) : Prop :=
  ∀ i < 16, w (slot OUT_BASE i) = if i < k then inp i + inp i else 0

theorem Fed.store (h : Fed inp w) (hk : k < 16) (v : UInt32) :
    Fed inp (Function.update w (slot OUT_BASE k) v) := by
  intro i hi
  rw [Function.update_of_ne (out_ne_in hi hk)]
  exact h i hi

theorem Outs.store (h : Outs inp k w) (hk : k < 16) :
    Outs inp (k + 1) (Function.update w (slot OUT_BASE k) (inp k + inp k)) := by
  intro i hi
  by_cases hik : i = k
  · subst hik
    rw [Function.update_self, if_pos (Nat.lt_succ_self i)]
  · rw [Function.update_of_ne fun heq => hik (out_inj hi hk heq), h i hi]
    by_cases hlt : i < k
    · rw [if_pos hlt, if_pos (by omega)]
    · rw [if_neg hlt, if_neg (by omega)]

/-! ## The kernel -/

/-- The registers of the loop, with `k` words done. -/
structure Looping (regs : Reg → UInt32) (k : Nat) : Prop where
  input : regs 4 = slot IN_BASE k
  output : regs 5 = slot OUT_BASE k
  count : regs 6 = UInt32.ofNat (16 - k)

/-- What holds before each instruction. -/
def Annotated (inp : Nat → UInt32) (c : Cpu) (w : UInt32 → UInt32) : Prop :=
  c.halted = false ∧ Fed inp w ∧
  match c.pc with
  | 0 => Outs inp 0 w
  | 1 => c.regs 4 = slot IN_BASE 0 ∧ Outs inp 0 w
  | 2 => c.regs 4 = slot IN_BASE 0 ∧ c.regs 5 = slot OUT_BASE 0 ∧ Outs inp 0 w
  | 3 => ∃ k < 16, Looping c.regs k ∧ Outs inp k w
  | 4 => ∃ k < 16, Looping c.regs k ∧ c.regs 0 = inp k ∧ Outs inp k w
  | 5 => ∃ k < 16, Looping c.regs k ∧ c.regs 0 = inp k + inp k ∧ Outs inp k w
  | 6 => ∃ k < 16, Looping c.regs k ∧ Outs inp (k + 1) w
  | 7 => ∃ k < 16, c.regs 4 = slot IN_BASE (k + 1) ∧ c.regs 5 = slot OUT_BASE k ∧
      c.regs 6 = UInt32.ofNat (16 - k) ∧ Outs inp (k + 1) w
  | 8 => ∃ k < 16, c.regs 4 = slot IN_BASE (k + 1) ∧ c.regs 5 = slot OUT_BASE (k + 1) ∧
      c.regs 6 = UInt32.ofNat (16 - k) ∧ Outs inp (k + 1) w
  | 9 => ∃ k < 16, Looping c.regs (k + 1) ∧ c.zero = (c.regs 6 == 0) ∧ Outs inp (k + 1) w
  | 10 | 11 => Outs inp 16 w
  | _ => False

/-- The instructions up to the sleep. -/
def rank (c : Cpu) : Nat :=
  match c.pc with
  | 0 => 139
  | 1 => 138
  | 2 => 137
  | 9 => 8 * (c.regs 6).toNat + 9
  | 10 => 1
  | 11 => 0
  | pc => 8 * (c.regs 6).toNat + (11 - pc)

theorem annotated_pc {c : Cpu} (h : Annotated inp c w) : c.pc < 12 := by
  by_contra hout
  obtain ⟨-, -, h⟩ := h
  split at h <;> omega

/-- What an instruction does: it stores nothing, or the next output. -/
inductive Effect (inp : Nat → UInt32) (w : UInt32 → UInt32) (c' : Cpu) :
    Option (UInt32 × UInt32) → Prop
  | quiet (h : Annotated inp c' w) : Effect inp w c' none
  | out {k : Nat} (hk : k < 16)
      (h : Annotated inp c' (Function.update w (slot OUT_BASE k) (inp k + inp k))) :
      Effect inp w c' (some (slot OUT_BASE k, inp k + inp k))

theorem count_pred (hk : k < 16) : UInt32.ofNat (16 - k) - 1 = UInt32.ofNat (16 - (k + 1)) := by
  have hsplit : 16 - k = 16 - (k + 1) + 1 := by omega
  rw [hsplit, UInt32.ofNat_add]
  exact UInt32.add_sub_cancel ..

theorem toNat_count (k : Nat) : (UInt32.ofNat (16 - k)).toNat = 16 - k :=
  UInt32.toNat_ofNat_of_lt' (show 16 - k < 2 ^ 32 by omega)

/-- The core is at the last instruction just after it went to sleep. -/
theorem sleep_pc {c : Cpu} {op : Op} (load : UInt32 → UInt32) (hpc : c.pc < 11)
    (hop : fastio[c.pc]? = some op) : op = .sleep ↔ (op.exec load c).1.pc = 11 := by
  obtain ⟨pc, regs, zero, halted⟩ := c
  dsimp only at hpc hop ⊢
  interval_cases pc
  all_goals obtain rfl := Option.some.inj hop
  case «9» => cases zero <;> simp [Op.exec, LLOOP]
  all_goals simp [Op.exec, Insn.exec]

theorem exec_annotated {c : Cpu} {op : Op} {load : UInt32 → UInt32} (h : Annotated inp c w)
    (hpc : c.pc < 11) (hop : fastio[c.pc]? = some op) (hload : ∀ a, Lmu.InWindow a → load a = w a) :
    Effect inp w (op.exec load c).1 (op.exec load c).2 ∧ rank (op.exec load c).1 < rank c := by
  obtain ⟨pc, regs, zero, halted⟩ := c
  obtain ⟨hrun, hfed, h⟩ := h
  dsimp only at hrun h hop hpc ⊢
  subst hrun
  interval_cases pc
  all_goals obtain rfl := Option.some.inj hop
  case «0» => exact ⟨.quiet ⟨rfl, hfed, rfl, h⟩, by simp [rank, Op.exec, Insn.exec]⟩
  case «1» => exact ⟨.quiet ⟨rfl, hfed, h.1, rfl, h.2⟩, by simp [rank, Op.exec, Insn.exec]⟩
  case «2» =>
    refine ⟨.quiet ⟨rfl, hfed, 0, by decide, ⟨h.1, h.2.1, rfl⟩, h.2.2⟩, ?_⟩
    simp [rank, Op.exec, Insn.exec, Operand.value]
  case «3» =>
    obtain ⟨k, hk, hloop, houts⟩ := h
    have hword : load (regs 4) = inp k := by
      rw [hloop.input, hload _ (slot_window hk (.inl rfl))]
      exact hfed k hk
    refine ⟨.quiet ⟨rfl, hfed, k, hk, ⟨hloop.input, hloop.output, hloop.count⟩, hword, houts⟩, ?_⟩
    simp [rank, Op.exec, Insn.exec]
  case «4» =>
    obtain ⟨k, hk, hloop, hword, houts⟩ := h
    have hdouble : regs 0 + regs 0 = inp k + inp k := by rw [hword]
    refine ⟨.quiet ⟨rfl, hfed, k, hk, ⟨hloop.input, hloop.output, hloop.count⟩, hdouble, houts⟩, ?_⟩
    simp [rank, Op.exec]
  case «5» =>
    obtain ⟨k, hk, hloop, hword, houts⟩ := h
    simp only [Op.exec, hloop.output, hword]
    refine ⟨.out hk ⟨rfl, hfed.store hk _, k, hk, hloop, houts.store hk⟩, ?_⟩
    simp [rank]
  case «6» =>
    obtain ⟨k, hk, hloop, houts⟩ := h
    have hnext : regs 4 + 4 = slot IN_BASE (k + 1) := by rw [hloop.input, slot_succ]
    refine ⟨.quiet ⟨rfl, hfed, k, hk, hnext, hloop.output, hloop.count, houts⟩, ?_⟩
    simp [rank, Op.exec]
  case «7» =>
    obtain ⟨k, hk, hin, hout, hcount, houts⟩ := h
    have hnext : regs 5 + 4 = slot OUT_BASE (k + 1) := by rw [hout, slot_succ]
    refine ⟨.quiet ⟨rfl, hfed, k, hk, hin, hnext, hcount, houts⟩, ?_⟩
    simp [rank, Op.exec]
  case «8» =>
    obtain ⟨k, hk, hin, hout, hcount, houts⟩ := h
    have hless : regs 6 - 1 = UInt32.ofNat (16 - (k + 1)) := by rw [hcount, count_pred hk]
    refine ⟨.quiet ⟨rfl, hfed, k, hk, ⟨hin, hout, hless⟩, rfl, houts⟩, ?_⟩
    have hnew : (regs 6 - 1).toNat = 16 - (k + 1) := by rw [hless, toNat_count]
    have hold : (regs 6).toNat = 16 - k := by rw [hcount, toNat_count]
    simp only [rank, Op.exec, Operand.value, Cpu.set_pc, Cpu.set_regs, ↓reduceIte, hnew, hold]
    omega
  case «9» =>
    obtain ⟨k, hk, hloop, hzero, houts⟩ := h
    have hcount := hloop.count
    cases zero with
    | true =>
      have hnone : UInt32.ofNat (16 - (k + 1)) = 0 := by
        rw [← hcount]
        exact beq_iff_eq.mp hzero.symm
      have hlast : k + 1 = 16 := by
        have hnat := congrArg UInt32.toNat hnone
        rw [toNat_count] at hnat
        have h0 : (0 : UInt32).toNat = 0 := rfl
        omega
      rw [hlast] at houts
      exact ⟨.quiet ⟨rfl, hfed, houts⟩, by simp [rank, Op.exec]⟩
    | false =>
      have hmore : k + 1 < 16 := by
        by_contra hge
        have hlast : 16 - (k + 1) = 0 := by omega
        rw [hcount, hlast] at hzero
        cases hzero
      exact ⟨.quiet ⟨rfl, hfed, k + 1, hmore, hloop, houts⟩,
        by simp [rank, Op.exec, LLOOP]⟩
  case «10» => exact ⟨.quiet ⟨rfl, hfed, h⟩, by simp [rank, Op.exec]⟩

/-! ## The core -/

/-- The core executes the kernel on its inputs. -/
structure Running (inp : Nat → UInt32) (s : Chip) : Prop where
  core : ∃ c, s.core = some c ∧ Annotated inp c s.soc.lmu.words ∧ (s.asleep = true ↔ c.pc = 11)
  loaded : Loaded fastio s.soc.words
  opened : s.soc.lmu.apu.Open

/-- Output `i` is there. -/
def Done (inp : Nat → UInt32) (i : Nat) (s : Chip) : Prop :=
  s.soc.lmu.words (slot OUT_BASE i) = inp i + inp i

/-- What a step of the core leaves. -/
structure Goes (inp : Nat → UInt32) (s s' : Chip) : Prop where
  running : Running inp s'
  words : s'.soc.words = s.soc.words
  out : ∀ i < 16, Done inp i s → Done inp i s'
  nearer : ∀ c c', s.core = some c → s'.core = some c' → rank c' < rank c

theorem coreStep_running {arc : Nat} (harc : arc < 64) {s s' : Chip} (h : Running inp s)
    (hstep : CoreStep arc s s') : s.asleep = false ∧ Goes inp s s' := by
  obtain ⟨⟨c, hc, hann, hsleep⟩, hloaded, hopen⟩ := h
  cases hstep with
  | @run c' op soc hc' hawake _ hop hstore =>
    obtain rfl : c = c' := Option.some.inj (hc.symm.trans hc')
    have hpc : c.pc < 11 := by
      have hlt := annotated_pc hann
      have hne : c.pc ≠ 11 := by
        rw [← hsleep.ne, hawake]
        decide
      omega
    have hload : ∀ a, Lmu.InWindow a → s.soc.word a = s.soc.lmu.words a := fun a ha => if_pos ha
    obtain ⟨heffect, hrank⟩ := exec_annotated hann hpc hop hload
    have hasleep : decide (op = .sleep) = true ↔ (op.exec s.soc.word c).1.pc = 11 := by
      rw [decide_eq_true_iff]
      exact sleep_pc _ hpc hop
    have hnearer : ∀ c₁ c₂, s.core = some c₁ → some (op.exec s.soc.word c).1 = some c₂ →
        rank c₂ < rank c₁ := by
      rintro c₁ c₂ hc₁ hc₂
      obtain rfl := Option.some.inj (hc.symm.trans hc₁)
      rw [← Option.some.inj hc₂]
      exact hrank
    refine ⟨hawake, ?_⟩
    generalize (op.exec s.soc.word c).2 = st at heffect hstore
    cases heffect with
    | quiet hann' =>
      obtain rfl : soc = s.soc := hstore
      exact ⟨⟨⟨_, rfl, hann', hasleep⟩, hloaded, hopen⟩, rfl, fun _ _ hdone => hdone, hnearer⟩
    | @out k hk hann' =>
      have hsoc := bus_window hstore harc hopen (slot_window hk (.inr rfl))
      subst hsoc
      refine ⟨⟨⟨_, rfl, hann', hasleep⟩, hloaded, hopen⟩, rfl, fun i hi hdone => ?_, hnearer⟩
      rw [Done]
      by_cases hik : i = k
      · subst hik
        exact Function.update_self ..
      · exact (Function.update_of_ne (fun heq => hik (out_inj hi hk heq)) ..).trans hdone
  | astray _ hnot _ => exact absurd hloaded hnot

/-- When the core sleeps, all outputs are there. -/
theorem Running.done {s : Chip} (h : Running inp s) (hasleep : s.asleep = true) {i : Nat}
    (hi : i < 16) : Done inp i s := by
  obtain ⟨c, -, ⟨-, -, hann⟩, hsleep⟩ := h.core
  rw [hsleep.mp hasleep] at hann
  exact (hann i hi).trans (if_pos hi)

/-- Each output is 0 or what it should be. -/
theorem Annotated.sound {c : Cpu} (h : Annotated inp c w) {i : Nat} (hi : i < 16) :
    w (slot OUT_BASE i) = 0 ∨ w (slot OUT_BASE i) = inp i + inp i := by
  have hall : ∀ k, Outs inp k w →
      w (slot OUT_BASE i) = 0 ∨ w (slot OUT_BASE i) = inp i + inp i := by
    intro k houts
    rw [houts i hi]
    split
    · exact .inr rfl
    · exact .inl rfl
  obtain ⟨-, -, h⟩ := h
  split at h
  case h_1 => exact hall 0 h
  case h_2 => exact hall 0 h.2
  case h_3 => exact hall 0 h.2.2
  case h_4 | h_7 =>
    obtain ⟨k, -, -, houts⟩ := h
    exact hall _ houts
  case h_5 | h_6 | h_10 =>
    obtain ⟨k, -, -, -, houts⟩ := h
    exact hall _ houts
  case h_8 | h_9 =>
    obtain ⟨k, -, -, -, -, houts⟩ := h
    exact hall _ houts
  case h_11 | h_12 => exact hall 16 h
  case h_13 => exact h.elim

end

/-! ## The TriCore before the start -/

/-- The inputs of the demo. -/
def demo (i : Nat) : UInt32 := UInt32.ofNat i + 1

section
variable {arc tri : Nat} {X : Empty → Chip → Prop}

/-- A core in reset does nothing. -/
theorem access_idle {s s' : Chip} {o : MmioSig.Op} {r : MmioSig.Res o} (hs : s.core = none)
    (h : chip arc tri s o r s') : Chip.access tri s o r s' := by
  have hstable : Stable (CoreStep arc) fun t => t.core = none ∧ t = s := by
    rintro t t' ⟨hnone, -⟩ hstep
    cases hstep with
    | run hc => rw [hnone] at hc; cases hc
    | astray hc => rw [hnone] at hc; cases hc
  obtain ⟨t, ⟨-, rfl⟩, hE⟩ := interleave_cases hstable ⟨hs, rfl⟩ h
  exact hE

/-- A write that does not start the core. -/
theorem core_none {s s' : Chip} {a v : UInt32} (hs : s.core = none) (ha : a ≠ PPU_CTRL)
    (h : (s'.core, s'.asleep) = s.core' a v) : s'.core = none := by
  have hcore : s'.core = (s.core' a v).1 := congrArg Prod.fst h
  rw [hcore, Chip.core']
  split
  · rfl
  · rw [if_neg fun hstart => ha hstart.1]
    exact hs

theorem wp_grant {s : Chip} (hs : s.core = none) :
    lmuGrant.wp (chip arc tri) (fun _ s' => s'.core = none ∧ s'.soc.lmu.apu.Open) X s := by
  have hctrl : ∀ w ∈ Lmu.LMU_GRANT, w.1 ≠ PPU_CTRL := by
    intro w hw heq
    have hhigh := Smp.grant_high w hw
    rw [heq] at hhigh
    exact absurd hhigh (by decide)
  rw [lmuGrant]
  apply wp_mono _ ?_ (fun _ _ h => h) (Lmu.wp_storeAll
    (fun ws s => s.core = none ∧ (∀ w ∈ ws, w.1 ≠ PPU_CTRL) ∧
      (ws.foldl (fun c w => c.write w.1 w.2) s.soc.lmu.apu).Open) ?_ _
    ⟨hs, hctrl, Lmu.granted s.soc.lmu.apu⟩)
  · exact fun _ s' h => ⟨h.1, h.2.2⟩
  · rintro a v ws s u s' ⟨hcore, hctrl, hopen⟩ hE
    obtain ⟨⟨hstores, -⟩, hcore'⟩ := access_idle hcore hE
    refine ⟨core_none hcore (hctrl _ List.mem_cons_self) hcore',
      fun w hw => hctrl w (List.mem_cons_of_mem _ hw), ?_⟩
    rw [hstores.apu]
    exact hopen

/-- The core is in reset, the inputs are there and the outputs are cleared. `P` is known of
the other words. -/
structure Idle (P : (UInt32 → UInt32) → Prop) (s : Chip) : Prop where
  core : s.core = none
  opened : s.soc.lmu.apu.Open
  fed : Fed demo s.soc.lmu.words
  outs : Outs demo 0 s.soc.lmu.words
  words : P s.soc.words

theorem feed_fed (w : UInt32 → UInt32) :
    Fed demo (assignAll FEED w) ∧ Outs demo 0 (assignAll FEED w) := by
  have hnodup : (FEED.map Prod.fst).Nodup := by decide
  have hmem : ∀ i < 16, ∀ x ∈ [(slot IN_BASE i, UInt32.ofNat i + 1), (slot OUT_BASE i, 0)],
      x ∈ FEED :=
    fun i hi x hx => List.mem_flatMap.mpr ⟨i, List.mem_range.mpr hi, hx⟩
  constructor
  · intro i hi
    exact assignAll_of_mem hnodup (hmem i hi _ List.mem_cons_self) w
  · intro i hi
    exact assignAll_of_mem hnodup (hmem i hi _ (List.mem_cons_of_mem _ List.mem_cons_self)) w

theorem feed_window : ∀ x ∈ FEED, Lmu.InWindow x.1 := by
  intro x hx
  obtain ⟨i, hi, hx⟩ := List.mem_flatMap.mp hx
  have hi' := List.mem_range.mp hi
  simp only [List.mem_cons, List.not_mem_nil, or_false] at hx
  rcases hx with rfl | rfl
  · exact slot_window hi' (.inl rfl)
  · exact slot_window hi' (.inr rfl)

theorem window_ne_ctrl {a : UInt32} (h : Lmu.InWindow a) : a ≠ PPU_CTRL := by
  rintro rfl
  exact absurd h (by decide)

/-- What holds while the writes `ws` of `feed` are left. -/
structure Feeding (ws : List (UInt32 × UInt32)) (s : Chip) : Prop where
  core : s.core = none
  opened : s.soc.lmu.apu.Open
  window : ∀ x ∈ ws, Lmu.InWindow x.1
  fed : Fed demo (assignAll ws s.soc.lmu.words)
  outs : Outs demo 0 (assignAll ws s.soc.lmu.words)

theorem wp_feed (htri : tri < 64) {s : Chip} (hcore : s.core = none) (hopen : s.soc.lmu.apu.Open) :
    feed.wp (chip arc tri) (fun _ s' => Idle (fun _ => True) s') X s := by
  obtain ⟨hfed, houts⟩ := feed_fed s.soc.lmu.words
  have hfeed : feed.wp (chip arc tri) (fun _ s' => Feeding [] s') X s := by
    apply Lmu.wp_storeAll Feeding ?_ FEED ⟨hcore, hopen, feed_window, hfed, houts⟩
    intro a v ws s u s' h hE
    obtain ⟨hbus, hcore'⟩ := access_idle h.core hE
    have ha := h.window _ List.mem_cons_self
    have hsoc := bus_window hbus htri h.opened ha
    have hwindow : ∀ x ∈ ws, Lmu.InWindow x.1 := fun x hx => h.window x (List.mem_cons_of_mem _ hx)
    have hnone := core_none h.core (window_ne_ctrl ha) hcore'
    obtain ⟨soc, core, asleep⟩ := s'
    dsimp only at hsoc hnone
    subst hsoc
    exact ⟨hnone, h.opened, hwindow, h.fed, h.outs⟩
  apply wp_mono _ ?_ (fun _ _ h => h) hfeed
  exact fun _ s' h => ⟨h.core, h.opened, h.fed, h.outs, trivial⟩

/-- A store to anything else than the LMU. -/
theorem idle_store {P R : (UInt32 → UInt32) → Prop} {a v : UInt32} (ha : Plain a)
    (hctrl : a ≠ PPU_CTRL) (hP : ∀ w, P w → R (Function.update w a v)) {s s' : Chip}
    (hs : Idle P s) {u : Unit} (hE : chip arc tri s (.write a v) u s') : Idle R s' := by
  obtain ⟨hbus, hcore'⟩ := access_idle hs.core hE
  have hsoc := bus_plain hbus ha
  have hcore := core_none hs.core hctrl hcore'
  obtain ⟨soc, core, asleep⟩ := s'
  dsimp only at hsoc hcore
  subst hsoc
  exact ⟨hcore, hs.opened, hs.fed, hs.outs, hP _ hs.words⟩

/-- The image is there. -/
def Code (w : UInt32 → UInt32) : Prop := ∀ x ∈ kernel.zipIdx, w (slot PPU_CODE_BASE x.2) = x.1

/-- Below the LMU is no register of the PPU. -/
theorem ne_ctrl {a : UInt32} (h : a.toNat < 0xB0400000) : a ≠ PPU_CTRL := by
  rintro rfl
  exact absurd h (by decide)

theorem code_plain : ∀ x ∈ CODE, Plain x.1 ∧ x.1 ≠ PPU_CTRL := by
  have hlow : CODE.all (fun x => decide (x.1.toNat < 0xB0400000)) = true := by decide
  intro x hx
  have hx' := of_decide_eq_true (List.all_eq_true.mp hlow x hx)
  exact ⟨plain_low hx', ne_ctrl hx'⟩

theorem code_stored (w : UInt32 → UInt32) : Code (assignAll CODE w) := by
  have hnodup : (CODE.map Prod.fst).Nodup := by decide
  intro x hx
  exact assignAll_of_mem hnodup (x := (slot PPU_CODE_BASE x.2, x.1)) (List.mem_map_of_mem hx) w

theorem wp_code {s : Chip} (hs : Idle (fun _ => True) s) :
    (storeAll CODE).wp (chip arc tri) (fun _ s' => Idle Code s') X s := by
  apply wp_mono _ ?_ (fun _ _ h => h) (Lmu.wp_storeAll
    (fun ws s => Idle (fun w => Code (assignAll ws w)) s ∧ ∀ x ∈ ws, Plain x.1 ∧ x.1 ≠ PPU_CTRL)
    ?_ CODE ⟨⟨hs.core, hs.opened, hs.fed, hs.outs, code_stored s.soc.words⟩, code_plain⟩)
  · exact fun _ s' h => h.1
  · rintro a v ws s u s' ⟨hidle, hplain⟩ hE
    obtain ⟨ha, hctrl⟩ := hplain _ List.mem_cons_self
    exact ⟨idle_store ha hctrl (fun _ h => h) hidle hE,
      fun x hx => hplain x (List.mem_cons_of_mem _ hx)⟩

/-- What the core needs to stay where it is. -/
def KEPT : List UInt32 := PPU_CLC :: PPU_VECBASE :: CODE.map Prod.fst

theorem loaded_iff {w : UInt32 → UInt32} :
    Loaded fastio w ↔ w PPU_CLC = 0 ∧ w PPU_VECBASE = PPU_CODE_BASE ∧ Code w := by
  obtain ⟨ws, hws, hkernel⟩ := Option.map_eq_some_iff.mp kernel_assembled
  constructor
  · rintro ⟨hclock, hvectors, ws', hws', hcode⟩
    obtain rfl := Option.some.inj (hws.symm.trans hws')
    rw [hkernel] at hcode
    exact ⟨hclock, hvectors, hcode⟩
  · rintro ⟨hclock, hvectors, hcode⟩
    refine ⟨hclock, hvectors, ws, hws, ?_⟩
    rw [hkernel]
    exact hcode

theorem Code.store {w : UInt32 → UInt32} (h : Code w) {a : UInt32} (ha : a ∉ CODE.map Prod.fst)
    (v : UInt32) : Code (Function.update w a v) := by
  intro x hx
  have hne : slot PPU_CODE_BASE x.2 ≠ a := by
    rintro rfl
    have hmem : (slot PPU_CODE_BASE x.2, x.1) ∈ CODE := List.mem_map_of_mem hx
    exact ha (List.mem_map_of_mem hmem)
  exact (Function.update_of_ne hne ..).trans (h x hx)

theorem Loaded.store {w : UInt32 → UInt32} (h : Loaded fastio w) {a : UInt32} (ha : a ∉ KEPT)
    (v : UInt32) : Loaded fastio (Function.update w a v) := by
  obtain ⟨hclock, hvectors, hcode⟩ := loaded_iff.mp h
  simp only [KEPT, List.mem_cons, not_or] at ha
  obtain ⟨hne, hne', ha⟩ := ha
  refine loaded_iff.mpr ⟨?_, ?_, hcode.store ha v⟩
  · rw [Function.update_of_ne (Ne.symm hne), hclock]
  · rw [Function.update_of_ne (Ne.symm hne'), hvectors]

theorem wp_idle_then {α : Type} {P R : (UInt32 → UInt32) → Prop} {a v : UInt32}
    {p : Unit → Mmio α} {Q : α → Chip → Prop} (ha : Plain a) (hctrl : a ≠ PPU_CTRL)
    (hP : ∀ w, P w → R (Function.update w a v))
    (hp : ∀ s, Idle R s → (p ()).wp (chip arc tri) Q X s) {s : Chip} (hs : Idle P s) :
    (store a v >>= p).wp (chip arc tri) Q X s := by
  rw [wp_bind, DataFlash.wp_store]
  intro u s' hE
  exact hp s' (idle_store ha hctrl hP hs hE)

/-- The run request starts the core on the image. -/
theorem start {s s' : Chip} (hs : Idle (Loaded fastio) s) {u : Unit}
    (hE : chip arc tri s (.write PPU_CTRL CTRL_RUN) u s') : Running demo s' := by
  obtain ⟨hbus, hcore⟩ := access_idle hs.core hE
  have hplain : Plain PPU_CTRL := plain_reg (by decide) (by decide)
  have hsoc := bus_plain hbus hplain
  have hstart : s.core' PPU_CTRL CTRL_RUN = (some started, false) := by
    have hne : ¬ (PPU_CTRL = PPU_RST_CTRLB ∧ CTRL_RUN = 1) := by decide
    rw [Chip.core', if_neg hne, if_pos ⟨rfl, rfl, hs.core⟩]
  rw [hstart] at hcore
  obtain ⟨soc, core, asleep⟩ := s'
  cases hcore
  dsimp only at hsoc
  subst hsoc
  have hasleep : false = true ↔ started.pc = 11 := by decide
  have hloaded : Loaded fastio (Function.update s.soc.words PPU_CTRL CTRL_RUN) :=
    Loaded.store hs.words (by decide) _
  exact ⟨⟨started, rfl, ⟨rfl, hs.fed, hs.outs⟩, hasleep⟩, hloaded, hs.opened⟩

theorem wp_ppuBoot {s : Chip} (hs : Idle (fun _ => True) s) :
    ppuBoot.wp (chip arc tri) (fun _ => Running demo) X s := by
  have hreset : ∀ w, Loaded fastio w → ∀ v, Loaded fastio (Function.update w PPU_RST_CTRLB v) :=
    fun w hw v => Loaded.store hw (by decide) v
  have hvectors : ∀ w, Code w ∧ w PPU_CLC = 0 →
      Loaded fastio (Function.update w PPU_VECBASE PPU_CODE_BASE) := by
    rintro w ⟨hcode, hclock⟩
    refine loaded_iff.mpr ⟨?_, Function.update_self .., hcode.store (by decide) _⟩
    rw [Function.update_of_ne (by decide), hclock]
  rw [ppuBoot, wp_bind]
  apply wp_mono _ ?_ (fun _ _ h => h) (wp_code hs)
  intro _ s hs
  apply wp_idle_then (R := fun w => Code w ∧ w PPU_CLC = 0) (plain_reg (by decide) (by decide))
    (by decide) (fun w hw => ⟨hw.store (by decide) _, Function.update_self ..⟩) ?_ hs
  intro s hs
  apply wp_idle_then (R := Loaded fastio) (plain_reg (by decide) (by decide))
    (by decide) hvectors ?_ hs
  intro s hs
  apply wp_idle_then (R := Loaded fastio) (plain_reg (by decide) (by decide)) (by decide)
    (fun w hw => Loaded.store hw (by decide) _) ?_ hs
  intro s hs
  apply wp_idle_then (R := Loaded fastio) (plain_reg (by decide) (by decide)) (by decide)
    (fun w hw => hreset w hw _) ?_ hs
  intro s hs
  rw [wp_bind]
  apply DataFlash.wp_poll_kept (chip arc tri) (I := Idle (Loaded fastio)) ?_ ?_ _ hs
  · intro s r s' hs hE
    rw [(access_idle hs.core hE).1]
    exact hs
  · intro _ s hs
    apply wp_idle_then (R := Loaded fastio) (plain_reg (by decide) (by decide)) (by decide)
      (fun w hw => hreset w hw _) ?_ hs
    intro s hs u s' hE
    exact start hs hE

/-! ## The results -/

/-- The core has been started. If it has been seen asleep, it is, and the outputs in `D` are
there. `P` is known of the words that are not in the LMU. -/
structure Seen (P : (UInt32 → UInt32) → Prop) (slept : Bool) (D : List Nat) (s : Chip) : Prop where
  running : Running demo s
  asleep : slept = true → s.asleep = true
  done : ∀ i ∈ D, i < 16 ∧ Done demo i s
  words : P s.soc.words

variable {P : (UInt32 → UInt32) → Prop} {slept : Bool} {D : List Nat}

theorem seen_stable (harc : arc < 64) : Stable (CoreStep arc) (Seen P slept D) := by
  intro s s' h hstep
  obtain ⟨hawake, hgoes⟩ := coreStep_running harc h.running hstep
  refine ⟨hgoes.running, fun hslept => ?_, fun i hi => ?_, ?_⟩
  · have hasleep := h.asleep hslept
    rw [hawake] at hasleep
    cases hasleep
  · obtain ⟨hlt, hdone⟩ := h.done i hi
    exact ⟨hlt, hgoes.out i hlt hdone⟩
  · rw [hgoes.words]
    exact h.words

theorem wp_seen_load (harc : arc < 64) {α : Type} {Q : α → Chip → Prop} {a : UInt32}
    {k : UInt32 → Mmio α}
    (hk : ∀ s r, Seen P slept D s → (Lmu.InWindow a → r = s.soc.lmu.words a) →
      (a = PPU_STAT → (r &&& 3 = 1 ↔ s.asleep = true)) → (k r).wp (chip arc tri) Q X s)
    {s : Chip} (hs : Seen P slept D s) : (load a >>= k).wp (chip arc tri) Q X s := by
  rw [wp_bind, DataFlash.wp_load]
  intro r s' hE
  obtain ⟨s₁, hs₁, rfl, hwindow, hstat⟩ := interleave_cases (seen_stable harc) hs hE
  obtain ⟨c, hc, -⟩ := hs₁.running.core
  exact hk _ r hs₁ hwindow fun ha => hstat ha (by rw [hc]; rfl)

/-- The words that `main` reports in are nobody's. -/
theorem wp_seen_store (harc : arc < 64) {α : Type} {Q : α → Chip → Prop} {a v : UInt32}
    {R : (UInt32 → UInt32) → Prop} {k : Unit → Mmio α} (ha : a.toNat < 0xB0000000)
    (hP : ∀ w, P w → R (Function.update w a v))
    (hk : ∀ s, Seen R slept D s → (k ()).wp (chip arc tri) Q X s)
    {s : Chip} (hs : Seen P slept D s) : (store a v >>= k).wp (chip arc tri) Q X s := by
  rw [wp_bind, DataFlash.wp_store]
  intro u s' hE
  obtain ⟨s₁, hs₁, hbus, hcore⟩ := interleave_cases (seen_stable harc) hs hE
  have hbelow : a.toNat < 0xB0400000 := by omega
  have hsoc := bus_plain hbus (plain_low hbelow)
  have hkept : a ∉ KEPT := by
    have hhigh : KEPT.all (fun x => decide (0xB0000000 ≤ x.toNat)) = true := by decide
    intro hmem
    exact absurd (of_decide_eq_true (List.all_eq_true.mp hhigh a hmem)) (by omega)
  have hsame : s₁.core' a v = (s₁.core, s₁.asleep) := by
    have hrst : a ≠ PPU_RST_CTRLB := by
      rintro rfl
      exact absurd ha (by decide)
    rw [Chip.core', if_neg fun h => hrst h.1, if_neg fun h => ne_ctrl hbelow h.1]
  rw [hsame] at hcore
  obtain ⟨soc, core, asleep⟩ := s'
  cases hcore
  dsimp only at hsoc
  subst hsoc
  have hrunning := hs₁.running
  exact hk _ ⟨⟨hrunning.core, hrunning.loaded.store hkept v, hrunning.opened⟩, hs₁.asleep, hs₁.done,
    hP _ hs₁.words⟩

theorem wp_sleep (harc : arc < 64) (polls : Nat) {s : Chip} (hs : Seen P false [] s) :
    (poll PPU_STAT (fun r => r &&& 3 == 1) polls).wp (chip arc tri)
      (fun slept s' => Seen P slept [] s') X s := by
  induction polls generalizing s with
  | zero => exact hs
  | succ n ih =>
    rw [poll]
    apply wp_seen_load harc ?_ hs
    intro s r hs _ hstat
    split
    · rename_i hone
      have hasleep := (hstat rfl).mp (beq_iff_eq.mp hone)
      exact ⟨hs.running, fun _ => hasleep, hs.done, hs.words⟩
    · exact ih hs

/-- `D` has been counted so far. When the core sleeps, nothing is missed. -/
theorem wp_scan (harc : arc < 64) (is : List Nat) (his : ∀ i ∈ is, i < 16) {s : Chip}
    (hs : Seen P slept D s) :
    (scan is (UInt32.ofNat D.length)).wp (chip arc tri) (fun ok s' => ∃ D', D'.Sublist (D ++ is) ∧
      ok = UInt32.ofNat D'.length ∧ (slept = true → D' = D ++ is) ∧ Seen P slept D' s') X s := by
  induction is generalizing s D with
  | nil =>
    rw [List.append_nil]
    exact ⟨D, .refl D, rfl, fun _ => rfl, hs⟩
  | cons i is ih =>
    have hi := his i List.mem_cons_self
    have his' : ∀ j ∈ is, j < 16 := fun j hj => his j (List.mem_cons_of_mem _ hj)
    have hdouble : (UInt32.ofNat i + 1) * 2 = demo i + demo i := by
      rw [UInt32.mul_two]
      rfl
    rw [scan]
    apply wp_seen_load harc ?_ hs
    intro s r hs hread _
    have hr : r = s.soc.lmu.words (slot OUT_BASE i) := hread (slot_window hi (.inr rfl))
    rw [hdouble]
    split
    · rename_i hright
      have hlength : UInt32.ofNat D.length + 1 = UInt32.ofNat (D ++ [i]).length := by
        rw [List.length_append, List.length_singleton, UInt32.ofNat_add]
        rfl
      have hdone : ∀ j ∈ D ++ [i], j < 16 ∧ Done demo j s := by
        intro j hj
        rcases List.mem_append.mp hj with hj | hj
        · exact hs.done j hj
        · rw [List.mem_singleton.mp hj]
          exact ⟨hi, hr.symm.trans hright⟩
      have hnext := ih his' (D := D ++ [i]) ⟨hs.running, hs.asleep, hdone, hs.words⟩
      rw [hlength]
      rwa [List.append_assoc, List.singleton_append] at hnext
    · rename_i hwrong
      apply wp_mono _ ?_ (fun _ _ h => h) (ih his' hs)
      rintro ok s' ⟨D', hsub, hok, hall, hs'⟩
      have hlonger := List.Sublist.append_left (List.sublist_cons_self i is) D
      refine ⟨D', hsub.trans hlonger, hok, ?_, hs'⟩
      intro hslept
      exact absurd (hr.trans (hs.running.done (hs.asleep hslept) hi)) hwrong

/-- What `main` reports, and what it means: the heartbeat counts outputs that are there, and
all of them if the core was seen asleep. -/
structure Reported (r : Report) (s : Chip) : Prop where
  heartbeat : s.soc.words 0x70000000 = r.ok
  counted : ∃ D : List Nat, D.Sublist (List.range 16) ∧ r.ok = UInt32.ofNat D.length ∧
    ∀ i ∈ D, Done demo i s
  all : r.ok = 16 → ∀ i < 16, Done demo i s
  first : s.soc.words 0x70000004 = 0 ∨ s.soc.words 0x70000004 = 2
  slept : r.slept = true → r.ok = 16 ∧ s.soc.words 0x70000004 = 2 ∧ s.soc.words 0x7000000C &&& 3 = 1

theorem all_counted {D : List Nat} (hsub : D.Sublist (List.range 16))
    (hlength : UInt32.ofNat D.length = 16) : D = List.range 16 := by
  have hle : D.length ≤ 16 := hsub.length_le
  have hnat := congrArg UInt32.toNat hlength
  rw [UInt32.toNat_ofNat_of_lt' (show D.length < 2 ^ 32 by omega)] at hnat
  exact hsub.eq_of_length hnat

theorem wp_report (harc : arc < 64) {ok : UInt32} (hsub : D.Sublist (List.range 16))
    (hok : ok = UInt32.ofNat D.length) (hall : slept = true → D = List.range 16) {s : Chip}
    (hs : Seen P slept D s) : (report slept ok).wp (chip arc tri) Reported X s := by
  have hpos : 0 < 16 := by decide
  rw [report]
  apply wp_seen_load harc ?_ hs
  intro s first hs hread _
  have hfirst : first = 0 ∨ first = 2 := by
    obtain ⟨c, -, hann, -⟩ := hs.running.core
    rw [hread (slot_window hpos (.inr rfl))]
    exact hann.sound hpos
  have hslept : slept = true → first = 2 := by
    intro hslept
    rw [hread (slot_window hpos (.inr rfl))]
    exact hs.running.done (hs.asleep hslept) hpos
  apply wp_seen_store (R := fun w => w 0x70000004 = first) harc (by decide)
    (fun w _ => Function.update_self ..) ?_ hs
  intro s hs
  apply wp_seen_load harc ?_ hs
  intro s stat hs _ hstat
  have hasleep : slept = true → stat &&& 3 = 1 := fun hslept => (hstat rfl).mpr (hs.asleep hslept)
  apply wp_seen_store (R := fun w => w 0x70000004 = first ∧ w 0x7000000C = stat) harc (by decide)
    (fun w hw => ⟨(Function.update_of_ne (by decide) ..).trans hw, Function.update_self ..⟩) ?_ hs
  intro s hs
  apply wp_seen_store (R := fun w => w 0x70000004 = first ∧ w 0x7000000C = stat ∧
    w 0x70000000 = ok) harc (by decide) (fun w hw =>
      ⟨(Function.update_of_ne (by decide) ..).trans hw.1,
        (Function.update_of_ne (by decide) ..).trans hw.2, Function.update_self ..⟩) ?_ hs
  intro s ⟨_, _, hdone, hfirst', hstat', hheartbeat⟩
  refine ⟨hheartbeat, ⟨D, hsub, hok, fun i hi => (hdone i hi).2⟩, fun h16 i hi => ?_, ?_, ?_⟩
  · have hD := all_counted hsub (hok.symm.trans h16)
    exact (hdone i (hD ▸ List.mem_range.mpr hi)).2
  · rwa [hfirst']
  · intro h
    refine ⟨?_, ?_, ?_⟩
    · rw [hok, hall h]
      rfl
    · rw [hfirst', hslept h]
    · rw [hstat', hasleep h]

theorem wp_launch (htri : tri < 64) {s : Chip} (hs : s.core = none) :
    launch.wp (chip arc tri) (fun _ => Running demo) X s := by
  rw [launch, wp_bind]
  apply wp_mono _ ?_ (fun _ _ h => h) (wp_grant hs)
  rintro _ s ⟨hcore, hopen⟩
  rw [wp_bind]
  apply wp_mono _ ?_ (fun _ _ h => h) (wp_feed htri hcore hopen)
  exact fun _ s hs => wp_ppuBoot hs

theorem wp_main (harc : arc < 64) (htri : tri < 64) (polls : Nat) {s : Chip} (hs : s.core = none) :
    (main polls).wp (chip arc tri) Reported X s := by
  rw [main, wp_bind]
  apply wp_mono _ ?_ (fun _ _ h => h) (wp_launch htri hs)
  intro _ s hs
  rw [wp_bind]
  apply wp_mono _ ?_ (fun _ _ h => h)
    (wp_sleep (P := fun _ => True) harc polls ⟨hs, nofun, nofun, trivial⟩)
  intro slept s hs
  rw [wp_bind]
  apply wp_mono _ ?_ (fun _ _ h => h) (wp_scan harc (List.range 16) (fun i => List.mem_range.mp) hs)
  rintro ok s ⟨D, hsub, hok, hall, hs⟩
  exact wp_report harc hsub hok hall hs

end

/-! ## All runs -/

/-- However the TriCore and the core of the PPU interleave: the heartbeat counts only outputs
that are there, and it is 16 if the TriCore saw the core asleep. -/
theorem fastio_doubles (arc tri : Nat) (harc : arc < 64) (htri : tri < 64) (polls : Nat) (s : Chip)
    (hs : s.core = none) (x : Except Empty Report) (s' : Chip)
    (hrun : Runs (chip arc tri) (main polls) s x s') : ∃ r, x = .ok r ∧ Reported r s' := by
  obtain ⟨hok, -⟩ := hrun.sound _ (wp_main (X := fun _ _ => True) harc htri polls hs)
  cases x with
  | ok r => exact ⟨r, rfl, hok r rfl⟩
  | error e => exact e.elim

/-! A run in which the core is through before the first poll. -/

def Chip.answer (s : Chip) (a : UInt32) : UInt32 :=
  if Lmu.InWindow a then s.soc.lmu.words a else if s.asleep then 1 else 0

theorem answer_stat (s : Chip) : s.answer PPU_STAT &&& 3 = 1 ↔ s.asleep = true := by
  have hout : ¬ Lmu.InWindow PPU_STAT := by decide
  rw [Chip.answer, if_neg hout]
  cases s.asleep with
  | false => decide
  | true => decide

def Chip.serve (tri : Nat) (s : Chip) : (o : MmioSig.Op) → MmioSig.Res o × Chip
  | .read a => (s.answer a, s)
  | .write a v => ((), ⟨(s.soc.serve tri (.write a v)).2, (s.core' a v).1, (s.core' a v).2⟩)

theorem chip_serve (arc tri : Nat) (s : Chip) (o : MmioSig.Op) :
    chip arc tri s o (s.serve tri o).1 (s.serve tri o).2 := by
  refine ⟨s, .refl, ?_⟩
  cases o with
  | read a =>
    refine ⟨rfl, fun ha => if_pos ha, fun ha _ => ?_⟩
    subst ha
    exact answer_stat s
  | write a v => exact ⟨Smp.bus_serve tri s.soc (.write a v), rfl⟩

/-- A started core gets to sleep. -/
theorem arrives {arc : Nat} (harc : arc < 64) {inp : Nat → UInt32} {s : Chip} (hs : Running inp s) :
    ∃ s', ReflTransGen (CoreStep arc) s s' ∧ Running inp s' ∧ s'.asleep = true := by
  apply exists_arrival (fun s => s.core.elim 0 rank) ?_ s hs
  intro s hs hawake
  obtain ⟨c, hc, hann, hsleep⟩ := hs.core
  have hlt : c.pc < fastio.length := annotated_pc hann
  have hop : fastio[c.pc]? = some (fastio.get ⟨c.pc, hlt⟩) := List.getElem?_eq_getElem hlt
  have hstore : ∃ soc, match ((fastio.get ⟨c.pc, hlt⟩).exec s.soc.word c).2 with
      | some (a, v) => bus arc s.soc (.write a v) () soc
      | none => soc = s.soc := by
    split
    · exact ⟨_, Smp.bus_serve arc s.soc (.write _ _)⟩
    · exact ⟨_, rfl⟩
  obtain ⟨soc, hsoc⟩ := hstore
  have hstep : CoreStep arc s _ := .run hc (Bool.eq_false_iff.mpr hawake) hs.loaded hop hsoc
  obtain ⟨-, hgoes⟩ := coreStep_running harc hs hstep
  refine ⟨_, hstep, hgoes.running, ?_⟩
  rw [hc]
  exact hgoes.nearer _ _ hc rfl

/-- The core is asleep at the first poll. -/
theorem wp_asleep {arc tri : Nat} (harc : arc < 64) {s : Chip} {n : Nat}
    {P : (UInt32 → UInt32) → Prop} (hs : Seen P true [] s) :
    (poll PPU_STAT (fun r => r &&& 3 == 1) (n + 1)).wp (chip arc tri) (fun slept _ => slept = true)
      (fun _ _ => True) s := by
  rw [poll]
  apply wp_seen_load harc ?_ hs
  intro s r hs _ hstat
  have hone : r &&& 3 = 1 := (hstat rfl).mpr (hs.asleep rfl)
  rw [if_pos (beq_iff_eq.mpr hone)]
  exact rfl

def resetChip : Chip := ⟨Smp.resetSoc, none, false⟩

theorem report_slept {σ : Type} (E : Env MmioSig σ) (slept : Bool) (ok : UInt32) (s : σ) :
    (report slept ok).wp E (fun r _ => r.slept = slept) (fun _ _ => True) s := by
  simp only [report, wp_bind, DataFlash.wp_load, DataFlash.wp_store]
  intros
  exact rfl

theorem fastio_doubles_once :
    ∃ r s', Runs (chip 6 0) (main 1) resetChip (.ok r) s' ∧ r.slept = true ∧
      ∃ r', Except.ok r = (.ok r' : Except Empty Report) ∧ Reported r' s' := by
  have harc : 6 < 64 := by decide
  have htri : 0 < 64 := by decide
  obtain ⟨u, s₁, hlaunch⟩ := runs_ok _ _ (chip_serve 6 0) launch resetChip
  have hrunning := (hlaunch.sound _ (wp_launch (X := fun _ _ => True) htri rfl)).1 u rfl
  obtain ⟨s₂, hsteps, hrunning₂, hasleep⟩ := arrives harc hrunning
  obtain ⟨slept, s₃, hpoll⟩ :=
    runs_ok _ _ (chip_serve 6 0) (poll PPU_STAT (fun r => r &&& 3 == 1) 1) s₂
  have hseen : Seen (fun _ => True) true [] s₂ := ⟨hrunning₂, fun _ => hasleep, nofun, trivial⟩
  obtain rfl : slept = true := (hpoll.sound _ (wp_asleep harc hseen)).1 slept rfl
  obtain ⟨ok, s₄, hscan⟩ := runs_ok _ _ (chip_serve 6 0) (scan (List.range 16) 0) s₃
  obtain ⟨r, s₅, hreport⟩ := runs_ok _ _ (chip_serve 6 0) (report true ok) s₄
  have hslept := (hreport.sound _ (report_slept _ true ok s₄)).1 r rfl
  have hrest : Runs (chip 6 0) (poll PPU_STAT (fun r => r &&& 3 == 1) 1 >>= fun slept =>
      scan (List.range 16) 0 >>= report slept) s₂ (.ok r) s₅ := hpoll.bind (hscan.bind hreport)
  have hrun : Runs (chip 6 0) (main 1) resetChip (.ok r) s₅ := hlaunch.bind (hrest.later hsteps)
  exact ⟨r, s₅, hrun, hslept, fastio_doubles 6 0 harc htri 1 resetChip rfl _ _ hrun⟩

end OpenTricore.Fastio
