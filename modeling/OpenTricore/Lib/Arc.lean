import Mathlib.Logic.Basic

/-! A part of the ARCv2 scalar instruction set. A program is a list of instructions, and the
memory is whatever the core reads.

* `Insn`: what polling loops need, which are registers, the zero flag, loads, branches and the
  halt flag;
* `Op`, `Routine`: what routines that compute need, which are arithmetic, stores, calls and
  returns;
* `Op.encode`, `assemble`: how the instructions are encoded. -/

namespace OpenTricore.Lib.Arc

/-! ## Polling loops -/

abbrev Reg := Nat

inductive Operand
  | reg (r : Reg)
  | imm (v : UInt32)
  deriving DecidableEq, Repr

/-- Branch targets are positions in the program. -/
inductive Insn
  | mov (d : Reg) (s : Operand)
  | and (d a : Reg) (s : Operand)
  | lsr (d a : Reg) (s : Operand)
  | cmp (a : Reg) (s : Operand)
  | ld (d a : Reg)
  | ldAs (d a i : Reg)
  | beq (target : Nat)
  | b (target : Nat)
  | flag (bits : UInt32)
  | bl
  deriving DecidableEq, Repr

structure Cpu where
  pc : Nat
  regs : Reg → UInt32
  zero : Bool
  halted : Bool

def Operand.value (c : Cpu) : Operand → UInt32
  | .reg r => c.regs r
  | .imm v => v

/-- Write a register and go on to the next instruction. -/
def Cpu.set (c : Cpu) (d : Reg) (v : UInt32) : Cpu :=
  { c with pc := c.pc + 1, regs := fun r => if r = d then v else c.regs r }

/-- One instruction, `load` being the memory. A shift takes the low five bits of
its amount, and bit 0 of `flag` halts. -/
def Insn.exec (load : UInt32 → UInt32) (c : Cpu) : Insn → Cpu
  | .mov d s => c.set d (s.value c)
  | .and d a s => c.set d (c.regs a &&& s.value c)
  | .lsr d a s => c.set d (c.regs a >>> s.value c)
  | .cmp a s => { c with pc := c.pc + 1, zero := c.regs a == s.value c }
  | .ld d a => c.set d (load (c.regs a))
  | .ldAs d a i => c.set d (load (c.regs a + 4 * c.regs i))
  | .beq target => { c with pc := if c.zero then target else c.pc + 1 }
  | .b target => { c with pc := target }
  | .flag bits => { c with pc := c.pc + 1, halted := bits &&& 1 == 1 }
  | .bl => { c with pc := c.pc + 1 }

/-- A step of a running core. What `bl` calls is not part of the program: when it
returns, the registers and the flag may hold anything. -/
def Step (prog : List Insn) (load : UInt32 → UInt32) (c c' : Cpu) : Prop :=
  c.halted = false ∧ ∃ i, prog[c.pc]? = some i ∧
    if i = .bl then c'.pc = c.pc + 1 ∧ c'.halted = false else c' = i.exec load c

@[simp] theorem Cpu.set_pc (c : Cpu) (d : Reg) (v : UInt32) : (c.set d v).pc = c.pc + 1 := rfl
@[simp] theorem Cpu.set_zero (c : Cpu) (d : Reg) (v : UInt32) : (c.set d v).zero = c.zero := rfl
@[simp] theorem Cpu.set_halted (c : Cpu) (d : Reg) (v : UInt32) :
    (c.set d v).halted = c.halted := rfl
@[simp] theorem Cpu.set_regs (c : Cpu) (d : Reg) (v : UInt32) (r : Reg) :
    (c.set d v).regs r = if r = d then v else c.regs r := rfl

/-- A running core that is still in its program goes on. -/
theorem exists_step {prog : List Insn} {c : Cpu} (load : UInt32 → UInt32)
    (hrun : c.halted = false) (hpc : c.pc < prog.length) : ∃ c', Step prog load c c' := by
  refine ⟨(prog.get ⟨c.pc, hpc⟩).exec load c, hrun, _, List.getElem?_eq_getElem hpc, ?_⟩
  split
  · rename_i hbl
    rw [List.get_eq_getElem, hbl]
    exact ⟨rfl, hrun⟩
  · rfl

/-! ## Routines

A store is an effect that the surroundings carry out. A routine is understood by what holds
before each of its instructions and a measure that falls: then it returns, with its result
stored. -/

/-- The link register, `blink`. -/
def BLINK : Reg := 31

/-- `plain` are the instructions of a loop that polls. Its `bl` is not one of them here: `call`
goes to its target. -/
inductive Op
  | plain (i : Insn)
  | add (d a : Reg) (s : Operand)
  | sub (d a : Reg) (s : Operand)
  | subF (d a : Reg) (s : Operand)   -- sets the zero flag
  | ldOff (d a : Reg) (off : UInt32)
  | st (v a : Reg)
  | bne (target : Nat)
  | call (target : Nat)
  | ret   -- `j [blink]`
  | sleep
  deriving DecidableEq, Repr

/-- One instruction, with the address and the value of its store. -/
def Op.exec (load : UInt32 → UInt32) (c : Cpu) : Op → Cpu × Option (UInt32 × UInt32)
  | .plain i => (i.exec load c, none)
  | .add d a s => (c.set d (c.regs a + s.value c), none)
  | .sub d a s => (c.set d (c.regs a - s.value c), none)
  | .subF d a s =>
    ({ c.set d (c.regs a - s.value c) with zero := c.regs a - s.value c == 0 }, none)
  | .ldOff d a off => (c.set d (load (c.regs a + off)), none)
  | .st v a => ({ c with pc := c.pc + 1 }, some (c.regs a, c.regs v))
  | .bne target => ({ c with pc := if c.zero then c.pc + 1 else target }, none)
  | .call target => ({ c.set BLINK (UInt32.ofNat (c.pc + 1)) with pc := target }, none)
  | .ret => ({ c with pc := (c.regs BLINK).toNat }, none)
  | .sleep => ({ c with pc := c.pc + 1 }, none)

/-- The value at `out` after a store. -/
def stored (out x : UInt32) : Option (UInt32 × UInt32) → UInt32
  | some (a, v) => if a = out then v else x
  | none => x

@[simp] theorem stored_none (out x : UInt32) : stored out x none = x := rfl
@[simp] theorem stored_self (out x v : UInt32) : stored out x (some (out, v)) = v := if_pos rfl

/-- `c'` and `w` are what an instruction of the routine from `lo` on does. It stores `word` at
`out` or nothing, and stays in the routine, nearer to the return, or returns to `back` with the
word stored. `x` is what is at `out`. -/
structure Goes (lo back : Nat) (out word : UInt32) (At : Cpu → UInt32 → Prop) (rank : Cpu → Nat)
    (c : Cpu) (x : UInt32) (c' : Cpu) (w : Option (UInt32 × UInt32)) : Prop where
  runs : c'.halted = false
  stores : w = none ∨ w = some (out, word)
  next : At c' (stored out x w) ∧ rank c' < rank c ∨ c'.pc = back ∧ stored out x w = word

/-- An instruction that stores nothing and stays in the routine. -/
theorem Goes.quiet {lo back : Nat} {out word x : UInt32} {At : Cpu → UInt32 → Prop}
    {rank : Cpu → Nat} {c c' : Cpu} (hruns : c'.halted = false) (hnext : At c' x)
    (hrank : rank c' < rank c) : Goes lo back out word At rank c x c' none :=
  ⟨hruns, .inl rfl, .inl ⟨hnext, hrank⟩⟩

/-- The routine of `prog` at `lo` computes `word` into `out`, where `Loads` is known of the
memory: `At` is what holds before each of its instructions. -/
structure Routine (prog : List Op) (lo back : Nat) (Loads : (UInt32 → UInt32) → Prop)
    (out word : UInt32) (At : Cpu → UInt32 → Prop) (rank : Cpu → Nat) : Prop where
  enter : ∀ c x, c.pc = lo → c.halted = false → c.regs BLINK = UInt32.ofNat back → At c x
  inside : ∀ c x, At c x → lo ≤ c.pc ∧ c.halted = false
  step : ∀ load c x, Loads load → At c x → ∃ op, prog[c.pc]? = some op ∧
    Goes lo back out word At rank c x (op.exec load c).1 (op.exec load c).2

/-! ## Encoding, as far as a loop over a buffer needs it -/

/-- Of a 32-bit unit the upper half comes first in memory. -/
def halves (i : UInt32) : UInt32 := i >>> 16 ||| i <<< 16

/-- The `b` field is split. -/
def regB (b : UInt32) : UInt32 := (b &&& 7) <<< 24 ||| (b >>> 3) <<< 12

/-- The general format, with the operation, whether `c` is a register (0) or an immediate (1),
and whether the flags are set. -/
def general (operation form flags b c a : UInt32) : UInt32 :=
  (0x20000000 : UInt32) ||| regB b ||| form <<< 22 ||| operation <<< 16 ||| flags <<< 15 |||
    c <<< 6 ||| a

/-- The displacement of a branch, in halfwords. -/
def displacement (offset : UInt32) : UInt32 :=
  (offset >>> 1 &&& 0x3FF) <<< 17 ||| (offset >>> 11 &&& 0x3FF) <<< 6

/-- A register number that says that the operand is the next word. -/
def LIMM : UInt32 := 62

/-- The words of an instruction at position `i`. Where the instructions are, `address` says. -/
def Op.encode (address : Nat → UInt32) (i : Nat) : Op → Option (List UInt32)
  | .plain (.mov d (.imm v)) =>
    if v < 64 then some [halves (general 10 1 0 (.ofNat d) v 0)]
    else some [halves (general 10 0 0 (.ofNat d) LIMM 0), halves v]
  | .plain (.ld d a) => some [halves ((0x10000000 : UInt32) ||| regB (.ofNat a) ||| UInt32.ofNat d)]
  | .st v a => some [halves ((0x18000000 : UInt32) ||| regB (.ofNat a) ||| UInt32.ofNat v <<< 6)]
  | .add d a (.reg r) => some [halves (general 0 0 0 (.ofNat a) (.ofNat r) (.ofNat d))]
  | .add d a (.imm v) =>
    if v < 64 then some [halves (general 0 1 0 (.ofNat a) v (.ofNat d))] else none
  | .subF d a (.imm v) =>
    if v < 64 then some [halves (general 2 1 1 (.ofNat a) v (.ofNat d))] else none
  | .bne target => some [halves (displacement (address target - address i) ||| (2 : UInt32))]
  | .plain (.b target) =>
    some [halves (displacement (address target - address i) ||| (0x10000 : UInt32) |||
      ((address target - address i) >>> 21 &&& 0xF))]
  | .sleep => some [halves 0x216F003F]
  | _ => none

/-- An immediate that does not fit takes a word. -/
def Op.words : Op → Nat
  | .plain (.mov _ (.imm v)) => if v < 64 then 1 else 2
  | _ => 1

/-- The address of the instruction at position `i` of a program at `base`. -/
def addressOf (base : UInt32) (prog : List Op) (i : Nat) : UInt32 :=
  base + 4 * UInt32.ofNat ((prog.take i).foldl (fun n op => n + op.words) 0)

/-- The words of a program at `base`, if all of its instructions can be encoded. -/
def assemble (base : UInt32) (prog : List Op) : Option (List UInt32) :=
  (prog.zipIdx.mapM fun (x : Op × Nat) => x.1.encode (addressOf base prog) x.2).map List.flatten

end OpenTricore.Lib.Arc
