import OpenTricore.Delivery
import OpenTricore.MemoryPackets
import OpenTricore.RegisterWrites

/-! What the stub is for: a target with a memory and a register file for each thread, that
is asked and changed by commands and answers each of them. The bytes of the client hold a
list of commands, between noise and damaged frames (`Hears`), and `Debuggee.transcript` is
what the client is to read in return. `tools/tc-gdbserver/main.c` does not appear here but
for the number of registers and the size of its buffer. -/

namespace OpenTricore.Debugger
open OpenTricore Lib Delivery Registers

/-! ## The target and its commands -/

/-- A register that is not exposed is `none`. Thread `k + 1` is core `k`. -/
structure Debuggee where
  mem : Mem
  regs : Nat → Fin NREG → Option UInt32
  threads : Nat
  cur : Nat

inductive Command
  | why
  | thread
  | threads
  | alive
  | select (n : Nat)
  | readAll
  | writeAll (vs : Fin NREG → UInt32)
  | readReg (n : Nat)
  | writeReg (n : Nat) (v : UInt32)
  | readMem (a n : Nat)
  | writeMem (a : Nat) (d : List UInt8)

inductive Answer
  | ok
  | stopped (n : Nat)
  | thread (n : Nat)
  | threads (n : Nat)
  | words (ws : List (Option UInt32))
  | data (d : List UInt8)

namespace Debuggee

variable (D : Debuggee)

/-- The register `n` of the current thread. -/
def reg (n : Nat) : Option UInt32 :=
  if h : n < NREG then D.regs D.cur ⟨n, h⟩ else none

/-- The registers of the current thread that are exposed and in `P` get the value `vs` has
for them. -/
def setRegs (P : Fin NREG → Prop) [DecidablePred P] (vs : Fin NREG → UInt32) : Debuggee :=
  { D with
    regs := fun k i => if k = D.cur ∧ P i then (D.regs k i).map fun _ => vs i else D.regs k i }

/-- What a command does. -/
def after : Command → Debuggee
  | .select n => if 1 ≤ n ∧ n ≤ D.threads then { D with cur := n - 1 } else D
  | .writeAll vs => D.setRegs (fun _ => True) vs
  | .writeReg n v => D.setRegs (fun i => i.val = n) fun _ => v
  | .writeMem a d => { D with mem := storeRange D.mem a d.length fun i => d.getD i 0 }
  | _ => D

/-- What is answered. -/
def answer : Command → Answer
  | .why => .stopped (D.cur + 1)
  | .thread => .thread (D.cur + 1)
  | .threads => .threads D.threads
  | .readAll => .words (regIndices.map (D.regs D.cur))
  | .readReg n => .words [D.reg n]
  | .readMem a n => .data ((List.range n).map fun i => D.mem (a + i))
  | _ => .ok

def run (cmds : List Command) : Debuggee := cmds.foldl after D

end Debuggee

/-! ## Texts -/

def wordText : Option UInt32 → List UInt8
  | some v => (wordBytes v).flatMap hexOfByte
  | none => unavailable

def Answer.text : Answer → List UInt8
  | .ok => bytes "OK"
  | .stopped n => bytes "T05thread:" ++ printHex n ++ bytes ";"
  | .thread n => bytes "QC" ++ printHex n
  | .threads n => threadList n
  | .words ws => ws.flatMap wordText
  | .data d => d.flatMap hexOfByte

/-- `ds` is a number below `2 ^ w`, in digits of either case. -/
structure Number (w : Nat) (ds : List UInt8) (n : Nat) : Prop where
  text : HexText ds
  value : hexValue ds = n
  small : n < 2 ^ w

/-- The ways to write a command. The digits may be of either case and as many as the client
likes. -/
def Command.Spelt : Command → List UInt8 → Prop
  | .why, p => p = bytes "?"
  | .thread, p => p = bytes "qC"
  | .threads, p => p = bytes "qfThreadInfo"
  | .alive, p => ∃ args, p = 84 :: args
  | .select n, p => ∃ op ds, p = 72 :: op :: ds ∧ (Number 31 ds n ∨ n = 0 ∧ ds = bytes "-1")
  | .readAll, p => p = bytes "g"
  | .writeAll vs, p => ∃ texts : Fin NREG → List UInt8,
      p = 71 :: regIndices.flatMap texts ∧ ∀ i, HexData (wordBytes (vs i)) (texts i)
  | .readReg n, p => ∃ ds, p = 112 :: ds ∧ Number 32 ds n
  | .writeReg n v, p => ∃ ds text, p = 80 :: ds ++ 61 :: text ∧ Number 32 ds n ∧
      HexData (wordBytes v) text
  | .readMem a n, p => ∃ ads nds, p = packetm ads nds ∧ Number 32 ads a ∧ Number 32 nds n ∧
      n ≤ (BUFSZ - 8) / 2
  | .writeMem a d, p => ∃ ads nds text, p = packetM ads nds text ∧ Number 32 ads a ∧
      Number 32 nds d.length ∧ HexData d text

/-! ## The dialogue -/

/-- A command as it arrives: what is written until its frame is accepted, and how often the
client asks for the answer again. -/
structure Heard where
  acks : List UInt8
  command : Command
  again : Nat

/-- The stream of the client holds these commands. Noise and damaged frames may stand before
each of them, and `-` behind it asks for its answer again. An interrupt of the halted target
asks why it stopped. The end is the end of the stream or a `D`; `closing` is written there. -/
inductive Hears : List UInt8 → List Heard → List UInt8 → Prop
  | closed {inp acks : List UInt8} (h : Rsp.Frames BUFSZ inp acks .disconnect []) :
      Hears inp [] acks
  | detached {inp acks args rest : List UInt8}
      (h : Rsp.Frames BUFSZ inp acks (.packet (68 :: args)) rest) :
      Hears inp [] (acks ++ frames (minuses rest + 1) (bytes "OK"))
  | interrupt {inp acks rest closing : List UInt8} {hs : List Heard}
      (h : Rsp.Frames BUFSZ inp acks .interrupt rest)
      (hnext : Hears (rest.drop (minuses rest + 1)) hs closing) :
      Hears inp (⟨acks, .why, minuses rest⟩ :: hs) closing
  | command {inp acks p rest closing : List UInt8} {c : Command} {hs : List Heard}
      (h : Rsp.Frames BUFSZ inp acks (.packet p) rest) (hc : c.Spelt p)
      (hnext : Hears (rest.drop (minuses rest + 1)) hs closing) :
      Hears inp (⟨acks, c, minuses rest⟩ :: hs) closing

/-- What is written for the commands: each is acknowledged and answered, and the answer is
the same however often it is sent. -/
def Debuggee.transcript (D : Debuggee) : List Heard → List UInt8
  | [] => []
  | h :: hs => h.acks ++ frames (h.again + 1) (D.answer h.command).text ++
      (D.after h.command).transcript hs

/-! ## Words in texts -/

theorem wordText_some (v : UInt32) : wordText (some v) = putU32Le v := by
  simp [wordText, wordBytes, putU32Le_eq, List.flatMap_map]

/-- Two digits are read as the byte they stand for. -/
theorem pairByte_digits {x y b : UInt8} {h l : Nat} (hx : digit16 x = some h)
    (hy : digit16 y = some l) (hb : b.toNat = 16 * h + l) : pairByte x y = b := by
  rw [pairByte, hexval_some hx, hexval_some hy]
  exact nibbles b (digit16_some hx).1 (digit16_some hy).1 hb

theorem hexData_pair {d text : List UInt8} (h : HexData d text) (t : List UInt8) {i : Nat}
    (hi : i < d.length) :
    pairByte ((text ++ t).getD (i * 2) 0) ((text ++ t).getD (i * 2 + 1) 0) = d.getD i 0 ∧
      (digit16 ((text ++ t).getD (i * 2) 0)).isSome ∧
      (digit16 ((text ++ t).getD (i * 2 + 1) 0)).isSome := by
  induction h generalizing i with
  | nil => simp at hi
  | cons hh hl hb hd ih =>
    cases i with
    | zero => simp [pairByte_digits hh hl hb, hh, hl]
    | succ i =>
      have hrest := ih (i := i) (by simpa using hi)
      have htwo : (i + 1) * 2 = i * 2 + 1 + 1 := by omega
      simpa [htwo] using hrest

/-- The eight digits of a word are read as the word. -/
theorem getU32Le_hexData {v : UInt32} {text : List UInt8} (h : HexData (wordBytes v) text)
    (t : List UInt8) : getU32Le (text ++ t) = v := by
  have hpair : ∀ i < 4, _ := fun i hi => hexData_pair h t (i := i) (by simpa using hi)
  rw [getU32Le_pack]
  · apply word_ext
    intro b hb
    rw [byteOf_packBytes _ b hb, (hpair b hb).1]
    simp [wordBytes, hb]
  · intro i hi
    obtain ⟨b, rfl | rfl⟩ : ∃ b, i = b * 2 ∨ i = b * 2 + 1 := ⟨i / 2, by omega⟩
    · exact (hpair b (by omega)).2.1
    · exact (hpair b (by omega)).2.2

end OpenTricore.Debugger
