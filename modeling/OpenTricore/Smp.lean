import Mathlib.Data.Fintype.Fin
import Mathlib.Data.Nat.Fib.Basic
import Mathlib.Tactic.IntervalCases
import OpenTricore.Lib.Crowd
import OpenTricore.Lmu
import OpenTricore.Mailbox
import OpenTricore.Startup

/-! All six cores at once: `bsp/tc4d7/smp.c` and `smp_all_demo.c`. CPU0 opens the shared LMU,
starts CPU1 to CPU5 and counts the results it finds. A core that is started sets itself up and
goes to the entry it finds in the memory of CPU0. -/

namespace OpenTricore.Smp
open Lib Lib.Prog Relation
open DataFlash (MmioOp MmioSig Mmio load store)
open Lmu (InWindow LMU_GRANT lmuGrant storeAll)
open Mailbox (fib)
open Startup (Core buildCsa SEC_CSA_BEGIN SEC_CSA_END CPU_CORE_ID SecondaryStarted)

/-! ## The code -/

def CPU0_BASE : UInt32 := 0xF8800000
def CPU_STRIDE : UInt32 := 0x40000
def OFF_PC : UInt32 := 0x1FE08
def OFF_BOOTCON : UInt32 := 0x1FE60

/-- Set the start PC, release the boot halt. -/
def coreStart (core entry : UInt32) : Mmio Int :=
  if core < 1 ∨ core > 5 then return -1
  else do
    let base := CPU0_BASE + core * CPU_STRIDE
    store (base + OFF_PC) entry
    if (← load (base + OFF_BOOTCON)) &&& 1 ≠ 0 then
      store (base + OFF_BOOTCON) 0
      return 0
    else return 0

def coreId (own : Core) : UInt32 := own.csfr CPU_CORE_ID &&& 0x7

/-- Where the linker has put things: `g_core_entry`, in DSPR0 and apart from the words that
`main` reports in, the trampoline and the worker. -/
structure Image where
  entries : UInt32
  tramp : UInt32
  worker : UInt32
  low : 0x70000010 ≤ entries.toNat
  high : entries.toNat + 24 ≤ 0x70100000
  worker_ne : worker ≠ 0

def coreStartC (img : Image) (core entry : UInt32) : Mmio Int :=
  if core < 1 ∨ core > 5 then return -1
  else do
    store (img.entries + 4 * core) entry
    coreStart core img.tramp

def OUT : UInt32 := 0xB0400000
def SECONDARY : UInt32 := 5
def SECONDARIES : List UInt32 := [1, 2, 3, 4, 5]

/-- How far a core has come: where it goes on only in an endless loop, or at an address
where none of this starts. -/
inductive Outcome
  | reported (ok : UInt32)
  | worked (own : Core)
  | idle (own : Core)
  | lost (pc : UInt32)

def worker (own : Core) : Mmio Outcome := do
  let id := coreId own
  store (OUT + id * 4) (fib (10 + id))
  return .worked own

/-- The list of context save areas, then the entry of this core. It is read once for the
test and once for the call. -/
def coreCstart (img : Image) (own : Core) : Mmio Outcome := do
  let own := buildCsa SEC_CSA_BEGIN SEC_CSA_END own
  let id := coreId own
  if (← load (img.entries + 4 * id)) ≠ 0 then
    let entry ← load (img.entries + 4 * id)
    if entry = img.worker then worker own else return .lost entry
  else return .idle own

/-- What a core does from the PC it starts with. -/
def run (img : Image) (own : Core) (pc : UInt32) : Mmio Outcome :=
  if pc = img.tramp then coreCstart img own else return .lost pc

def clearOut : Mmio Unit := storeAll ([0, 1, 2, 3, 4, 5].map fun c => (OUT + c * 4, 0))

def startAll (img : Image) : List UInt32 → Mmio Unit
  | [] => return ()
  | c :: cs => do
    let _ ← coreStartC img c img.worker
    startAll img cs

/-- One round of the poll: the results that are there. -/
def scan : List UInt32 → UInt32 → Mmio UInt32
  | [], ok => return ok
  | c :: cs, ok => do
    let r ← load (OUT + c * 4)
    scan cs (if r = fib (10 + c) then ok + 1 else ok)

/-- The poll, with the rounds that are left. -/
def await : Nat → UInt32 → Mmio UInt32
  | 0, ok => return ok
  | t + 1, ok =>
    if ok < SECONDARY then do
      let ok ← scan SECONDARIES 0
      await t ok
    else return ok

def report (ok : UInt32) : Mmio Outcome := do
  let first ← load (OUT + 1 * 4)
  store 0x70000004 first
  let last ← load (OUT + 5 * 4)
  store 0x7000000C last
  store 0x70000000 ok
  return .reported ok

/-- The first half of `main`. -/
def lightUp (img : Image) : Mmio Unit := do
  lmuGrant
  clearOut
  startAll img SECONDARIES

/-- `main` up to the first heartbeat, which is repeated for ever. -/
def main (img : Image) (polls : Nat) : Mmio Outcome := do
  lightUp img
  let ok ← await polls 0
  report ok

/-! ## The chip -/

/-- What a core asks for: an access, or to leave the boot halt. -/
inductive SmpOp
  | mmio (o : MmioOp)
  | boot

def SmpSig : Sig where
  Op := SmpOp
  Res
    | .mmio o => MmioSig.Res o
    | .boot => UInt32

abbrev Party := Prog SmpSig Empty Outcome

def awake {α : Type} (p : Mmio α) : Prog SmpSig Empty α := p.lift .mmio fun _ r => r

/-- CPU0 is in `main`, the other cores are in the boot halt. -/
def party (img : Image) (polls : Nat) (own : Fin 6 → Core) (i : Fin 6) : Party :=
  if i = 0 then awake (main img polls) else .ask .boot fun pc => awake (run img (own i) pc)

/-- The shared LMU, and everything else that is addressed: the memory of CPU0 and the
registers. -/
structure Soc where
  lmu : Lmu.Memory
  words : UInt32 → UInt32

/-- The accesses of the master with this tag. -/
def bus (tag : Nat) : Env MmioSig Soc
  | s, .read a, r, s' => r = (if InWindow a then s.lmu.words a else s.words a) ∧ s' = s
  | s, .write a v, _, s' => s.lmu.Stores tag a v s'.lmu ∧
      s'.words = if InWindow a then s.words else Function.update s.words a v

/-- What is read at an address. -/
def Soc.word (s : Soc) (a : UInt32) : UInt32 := if InWindow a then s.lmu.words a else s.words a

/-- The number of a core. -/
def num (i : Fin 6) : UInt32 := UInt32.ofNat i

def pcReg (i : Fin 6) : UInt32 := CPU0_BASE + num i * CPU_STRIDE + OFF_PC
def bootcon (i : Fin 6) : UInt32 := CPU0_BASE + num i * CPU_STRIDE + OFF_BOOTCON
def out (i : Fin 6) : UInt32 := OUT + num i * 4
def Image.entry (img : Image) (i : Fin 6) : UInt32 := img.entries + 4 * num i

def Soc.Released (s : Soc) (i : Fin 6) : Prop := s.words (bootcon i) &&& 1 = 0

/-- A core in the boot halt goes on when it is released, at its PC. -/
def soc (tag : Fin 6 → Nat) (i : Fin 6) : Env SmpSig Soc
  | s, .mmio o, r, s' => bus (tag i) s o r s'
  | s, .boot, pc, s' => s.Released i ∧ pc = s.words (pcReg i) ∧ s' = s

/-! ## Addresses -/

theorem toNat_num (i : Fin 6) : (num i).toNat = i := by
  have hi := i.isLt
  exact UInt32.toNat_ofNat_of_lt' (by decide +revert)

theorem toNat_entry (img : Image) (i : Fin 6) :
    (img.entry i).toNat = img.entries.toNat + 4 * i := by
  have hhigh := img.high
  have hi := i.isLt
  have h4 : (4 : UInt32).toNat = 4 := rfl
  rw [Image.entry, UInt32.toNat_add, UInt32.toNat_mul, toNat_num, h4]
  omega

theorem entry_inj (img : Image) {i j : Fin 6} (h : img.entry i = img.entry j) : i = j := by
  have hnat := congrArg UInt32.toNat h
  rw [toNat_entry, toNat_entry] at hnat
  exact Fin.ext (by omega)

/-- The registers of the cores are above DSPR0, and those of the LMU above them. -/
theorem regs_high (i : Fin 6) :
    0x70100000 ≤ (pcReg i).toNat ∧ 0x70100000 ≤ (bootcon i).toNat ∧
      (bootcon i).toNat < 0xFB000000 := by
  decide +revert

theorem grant_high : ∀ w ∈ LMU_GRANT, 0xFB000000 ≤ w.1.toNat := by
  simp [LMU_GRANT, Lmu.LMU0_MEMCON, Lmu.LMU0_PROTRGN, Lmu.LMU0_CFG]

theorem entry_ne_reg (img : Image) (i : Fin 6) {a : UInt32} (ha : 0x70100000 ≤ a.toNat) :
    img.entry i ≠ a := by
  rintro rfl
  have hhigh := img.high
  rw [toNat_entry] at ha
  omega

theorem bootcon_inj : ∀ i j : Fin 6, bootcon i = bootcon j → i = j := by decide

theorem pcReg_inj : ∀ i j : Fin 6, pcReg i = pcReg j → i = j := by decide

theorem pcReg_ne_bootcon : ∀ i j : Fin 6, pcReg i ≠ bootcon j := by decide

theorem out_inj : ∀ i j : Fin 6, out i = out j → i = j := by decide

theorem out_window : ∀ i : Fin 6, InWindow (out i) := by decide

/-- An address that is not the LMU's. -/
def Plain (a : UInt32) : Prop := ¬ InWindow a ∧ a ≠ Lmu.LMU0_PROTRGN ∧ ¬ Lmu.IsCfg a

theorem plain_regs : ∀ i : Fin 6, Plain (pcReg i) ∧ Plain (bootcon i) := by
  unfold Plain
  decide

/-- Below the LMU everything is plain. -/
theorem plain_low {a : UInt32} (h : a.toNat < 0xB0400000) : Plain a := by
  simp only [Plain, InWindow, Lmu.IsCfg, UInt32.le_iff_toNat_le, UInt32.lt_iff_toNat_lt]
  refine ⟨fun hwindow => ?_, ?_, fun hcfg => ?_⟩
  · have hlow : 0xB0400000 ≤ a.toNat := hwindow.1
    omega
  · rintro rfl
    exact absurd h (by decide)
  · have hlow : 0xFB000300 ≤ a.toNat := hcfg.1
    omega

/-- Between the LMU and its registers, too. -/
theorem plain_reg {a : UInt32} (hlow : 0xB0480000 ≤ a.toNat) (hhigh : a.toNat < 0xFB000000) :
    Plain a := by
  simp only [Plain, InWindow, Lmu.IsCfg, UInt32.le_iff_toNat_le, UInt32.lt_iff_toNat_lt]
  refine ⟨fun hwindow => ?_, ?_, fun hcfg => ?_⟩
  · have hbelow : a.toNat < 0xB0480000 := hwindow.2
    omega
  · rintro rfl
    exact absurd hhigh (by decide)
  · have habove : 0xFB000300 ≤ a.toNat := hcfg.1
    omega

theorem plain_entry (img : Image) (i : Fin 6) : Plain (img.entry i) := by
  have hhigh := img.high
  have hi := i.isLt
  exact plain_low (by rw [toNat_entry]; omega)

/-! ## One access -/

section
variable {tag : Nat} {s s' : Soc} {a v r : UInt32}

theorem bus_read (h : bus tag s (.read a) r s') (ha : Plain a) : r = s.words a ∧ s' = s := by
  obtain ⟨hr, hs⟩ := h
  rw [if_neg ha.1] at hr
  exact ⟨hr, hs⟩

theorem wp_load_bus {Q : UInt32 → Soc → Prop} {X : Empty → Soc → Prop} (a : UInt32) :
    (load a).wp (bus tag) Q X s ↔ Q (s.word a) s := by
  constructor
  · exact fun h => h _ s ⟨rfl, rfl⟩
  · rintro h r s' ⟨rfl, rfl⟩
    exact h

/-- What a core does with the entry that `Startup.coreCstart` finds. -/
def goOn (img : Image) : Option UInt32 × Core → Mmio Outcome
  | (some entry, own) => if entry = img.worker then worker own else return .lost entry
  | (none, own) => return .idle own

/-- On a memory that holds the entry the core's own view has, `core_cstart` is the one of the
startup, and what follows it. -/
theorem coreCstart_startup (img : Image) (own : Core) {c : Core}
    (hc : buildCsa SEC_CSA_BEGIN SEC_CSA_END own = c) {Q : Outcome → Soc → Prop}
    {X : Empty → Soc → Prop}
    (hentry : s.word (img.entries + 4 * coreId c) = c.load (img.entries + 4 * coreId c)) :
    (coreCstart img own).wp (bus tag) Q X s ↔
      (goOn img (Startup.coreCstart img.entries own)).wp (bus tag) Q X s := by
  rw [coreCstart, hc, wp_bind, wp_load_bus, hentry]
  have hstartup : Startup.coreCstart img.entries own =
      (if c.load (img.entries + 4 * coreId c) ≠ 0 then some (c.load (img.entries + 4 * coreId c))
        else none, c) := by
    rw [← hc]
    rfl
  rw [hstartup]
  by_cases hzero : c.load (img.entries + 4 * coreId c) = 0
  · rw [if_neg (not_not.mpr hzero), if_neg (not_not.mpr hzero), goOn]
  · rw [if_pos hzero, if_pos hzero, wp_bind, wp_load_bus, hentry, goOn]

/-- A store that has nothing to do with the LMU. -/
theorem bus_plain {u : Unit} (h : bus tag s (.write a v) u s') (ha : Plain a) :
    s' = { s with words := Function.update s.words a v } := by
  obtain ⟨hstores, hwords⟩ := h
  obtain ⟨hwindow, hprot, hcfg⟩ := ha
  rw [if_neg hwindow] at hwords
  have hapu : s'.lmu.apu = s.lmu.apu := by
    rw [hstores.apu, Lmu.Apu.write_other _ hprot hcfg]
  have hlmu : s'.lmu.words = s.lmu.words := hstores.outside hwindow fun hcommit => hprot hcommit.1
  obtain ⟨⟨apu, lmu⟩, words⟩ := s'
  cases hwords
  cases hapu
  cases hlmu
  rfl

/-- A store to the LMU after the grant. -/
theorem bus_window {u : Unit} (h : bus tag s (.write a v) u s') (htag : tag < 64)
    (hopen : s.lmu.apu.Open) (ha : InWindow a) :
    s' = { s with lmu.words := Function.update s.lmu.words a v } := by
  obtain ⟨hstores, hwords⟩ := h
  rw [if_pos ha] at hwords
  have hhigh : a.toNat < 0xB0480000 := UInt32.lt_iff_toNat_lt.mp ha.2
  have hprot : a ≠ Lmu.LMU0_PROTRGN := by
    rintro rfl
    exact absurd hhigh (by decide)
  have hcfg : ¬ Lmu.IsCfg a := by
    intro hcfg
    have hlow : 0xFB000300 ≤ a.toNat := UInt32.le_iff_toNat_le.mp hcfg.1
    omega
  have hapu : s'.lmu.apu = s.lmu.apu := by
    rw [hstores.apu, Lmu.Apu.write_other _ hprot hcfg]
  have hlmu := hstores.lands ha (hopen tag htag a ha)
  obtain ⟨⟨apu, lmu⟩, words⟩ := s'
  cases hwords
  cases hapu
  cases hlmu
  rfl

end

/-! ## What the cores owe each other -/

/-- The result of a core. -/
def result (i : Fin 6) : UInt32 := UInt32.ofNat (Nat.fib (10 + i))

def Done (i : Fin 6) (s : Soc) : Prop := s.lmu.words (out i) = result i

/-- Nothing or the result. -/
def Sound (i : Fin 6) (s : Soc) : Prop := s.lmu.words (out i) = 0 ∨ Done i s

/-- All is set for a core that is released. `w` are the words of CPU0. -/
structure Up (img : Image) (i : Fin 6) (w : UInt32 → UInt32) (apu : Lmu.Apu) : Prop where
  released : w (bootcon i) &&& 1 = 0
  pc : w (pcReg i) = img.tramp
  entry : w (img.entry i) = img.worker
  opened : apu.Open

def Good (img : Image) (i : Fin 6) (s : Soc) : Prop := s.Released i → Up img i s.words s.lmu.apu

/-- What a started core does to the others' state. -/
structure Posts (i : Fin 6) (s s' : Soc) : Prop where
  words : s'.words = s.words
  apu : s'.lmu.apu = s.lmu.apu
  out : s'.lmu.words = s.lmu.words ∨ s'.lmu.words = Function.update s.lmu.words (out i) (result i)

/-- What a core, in the boot halt or started, may rely on. -/
structure Keeps (img : Image) (i : Fin 6) (s s' : Soc) : Prop where
  good : Good img i s → Good img i s'
  released : s.Released i → s'.Released i
  out : s.Released i → s'.lmu.words (Smp.out i) = s.lmu.words (Smp.out i)

def Rely (img : Image) (i : Fin 6) (s s' : Soc) : Prop :=
  if i = 0 then ∃ j, j ≠ 0 ∧ Posts j s s' else Keeps img i s s'

def Guarantee (img : Image) (i : Fin 6) (s s' : Soc) : Prop :=
  if i = 0 then ∀ j, j ≠ 0 → Keeps img j s s' else Posts i s s'

theorem Posts.refl (i : Fin 6) (s : Soc) : Posts i s s := ⟨rfl, rfl, .inl rfl⟩

theorem Posts.done {i j : Fin 6} {s s' : Soc} (h : Posts j s s') (hdone : Done i s) :
    Done i s' := by
  rw [Done] at hdone ⊢
  rcases h.out with hout | hout
  · rw [hout, hdone]
  · rw [hout, Function.update_apply]
    split
    · rename_i heq
      rw [out_inj i j heq]
    · exact hdone

theorem Posts.sound {i j : Fin 6} {s s' : Soc} (h : Posts j s s') (hsound : Sound i s) :
    Sound i s' := by
  rcases hsound with hzero | hdone
  · rcases h.out with hout | hout
    · exact .inl (by rw [hout, hzero])
    · by_cases heq : i = j
      · subst heq
        exact .inr (by rw [Done, hout, Function.update_self])
      · rw [Sound, hout, Function.update_of_ne fun h => heq (out_inj i j h)]
        exact .inl hzero
  · exact .inr (h.done hdone)

theorem Posts.keeps {i j : Fin 6} (hij : i ≠ j) {img : Image} {s s' : Soc} (h : Posts j s s') :
    Keeps img i s s' where
  good := by
    rw [Good, Good, Soc.Released, Soc.Released, h.words, h.apu]
    exact id
  released := by
    rw [Soc.Released, Soc.Released, h.words]
    exact id
  out := by
    intro _
    rcases h.out with hout | hout
    · rw [hout]
    · rw [hout, Function.update_of_ne fun heq => hij (out_inj i j heq)]

/-- What one core guarantees is what the others rely on. -/
theorem guarantee_rely (img : Image) (i j : Fin 6) (hij : i ≠ j) (s s' : Soc)
    (h : Guarantee img j s s') : Rely img i s s' := by
  rw [Guarantee] at h
  rw [Rely]
  by_cases hi : i = 0
  · subst hi
    rw [if_neg hij.symm] at h
    rw [if_pos rfl]
    exact ⟨j, hij.symm, h⟩
  · rw [if_neg hi]
    by_cases hj : j = 0
    · rw [if_pos hj] at h
      exact h i hi
    · rw [if_neg hj] at h
      exact h.keeps hij

/-- The 48th number is too large for a word. -/
theorem toNat_fib (n : UInt32) (hn : n.toNat < 48) : (fib n).toNat = Nat.fib n.toNat := by
  have h47 : Nat.fib 47 < 2 ^ 32 := by decide
  have h2 : (2 : UInt32).toNat = 2 := rfl
  obtain ⟨k, hk⟩ : ∃ k, n.toNat = k := ⟨_, rfl⟩
  rw [hk] at hn ⊢
  induction k using Nat.strongRecOn generalizing n with
  | ind k ih =>
    rw [fib]
    split
    · rename_i hlt
      rw [UInt32.lt_iff_toNat_lt, h2, hk] at hlt
      rw [hk]
      interval_cases k <;> rfl
    · rename_i hge
      rw [UInt32.lt_iff_toNat_lt, h2, hk, Nat.not_lt] at hge
      obtain ⟨m, rfl⟩ := Nat.exists_eq_add_of_le' hge
      have hsub₁ : (n - 1).toNat = m + 1 := by
        rw [UInt32.toNat_sub_of_le _ _
          (UInt32.le_iff_toNat_le.mpr (by rw [hk]; exact Nat.le_add_left ..)), hk]
        rfl
      have hsub₂ : (n - 2).toNat = m := by
        rw [UInt32.toNat_sub_of_le _ _
          (UInt32.le_iff_toNat_le.mpr (by rw [hk]; exact Nat.le_add_left ..)), hk]
        rfl
      have hmono : Nat.fib (m + 2) ≤ Nat.fib 47 := Nat.fib_mono (by omega)
      rw [UInt32.toNat_add, ih (m + 1) (by omega) _ (by omega) hsub₁,
        ih m (by omega) _ (by omega) hsub₂]
      rw [Nat.fib_add_two] at hmono ⊢
      omega

theorem fib_num (i : Fin 6) : fib (10 + num i) = result i := by
  have hi := i.isLt
  have h10 : (10 : UInt32).toNat = 10 := rfl
  have hsum : (10 + num i).toNat = 10 + i := by
    rw [UInt32.toNat_add, toNat_num, h10]
    omega
  have hfib := toNat_fib (10 + num i) (by omega)
  rw [hsum] at hfib
  rw [result, ← hfib, UInt32.ofNat_toNat]

/-! ## A started core -/

section
variable {img : Image} {tag : Nat} {i : Fin 6} {s : Soc} {X : Empty → Soc → Prop}

theorem rely_second (hi : i ≠ 0) {t t' : Soc} (h : Rely img i t t') : Keeps img i t t' := by
  rwa [Rely, if_neg hi] at h

theorem guarantee_second (hi : i ≠ 0) {t t' : Soc} (h : Posts i t t') : Guarantee img i t t' := by
  rwa [Guarantee, if_neg hi]

theorem stable_good (hi : i ≠ 0) : Stable (Rely img i) (Good img i) :=
  fun _ _ hs hrely => (rely_second hi hrely).good hs

theorem stable_up (hi : i ≠ 0) : Stable (Rely img i) fun s => Up img i s.words s.lmu.apu :=
  fun _ _ hs hrely =>
    (rely_second hi hrely).good (fun _ => hs) ((rely_second hi hrely).released hs.released)

theorem stable_worked (hi : i ≠ 0) :
    Stable (Rely img i) fun s => Up img i s.words s.lmu.apu ∧ Done i s := by
  intro t t' hs hrely
  refine ⟨stable_up hi t t' hs.1 hrely, ?_⟩
  rw [Done, (rely_second hi hrely).out hs.1.released]
  exact hs.2

/-- The entry is the one that CPU0 has set, at both reads. -/
theorem among_entry {Q : Outcome → Soc → Prop} {k : UInt32 → Mmio Outcome} (hi : i ≠ 0)
    (hs : Up img i s.words s.lmu.apu)
    (h : ∀ s, Up img i s.words s.lmu.apu →
      (k img.worker).among (bus tag) (Rely img i) (Guarantee img i) Q X s) :
    (load (img.entries + 4 * num i) >>= k).among (bus tag) (Rely img i)
    (Guarantee img i) Q X s := by
  apply among_ask (stable_up hi) hs
  intro s₁ hs₁ r s₂ hread
  obtain ⟨hr, rfl⟩ := bus_read hread (plain_entry img i)
  have hworker : r = img.worker := hr.trans hs₁.entry
  subst hworker
  exact ⟨guarantee_second hi (.refl i _), h _ hs₁⟩

theorem among_worker (hi : i ≠ 0) (htag : tag < 64) {own : Core} (hid : coreId own = num i)
    (hs : Up img i s.words s.lmu.apu) :
    (worker own).among (bus tag) (Rely img i) (Guarantee img i)
      (fun o s' => o = .worked own ∧ Done i s') X s := by
  rw [worker, hid]
  apply among_ask (stable_up hi) hs
  intro s₁ hs₁ u s₂ hwrite
  have hs₂ := bus_window hwrite htag hs₁.opened (out_window i)
  rw [fib_num] at hs₂
  subst hs₂
  refine ⟨guarantee_second hi ⟨rfl, rfl, .inr rfl⟩, ?_⟩
  have hdone : Done i { s₁ with lmu.words := Function.update s₁.lmu.words (out i) (result i) } :=
    Function.update_self ..
  exact among_ret (a := Outcome.worked own) (stable_worked hi) ⟨hs₁, hdone⟩ fun _ h => ⟨rfl, h.2⟩

theorem among_awake {Q : Outcome → Soc → Prop} {R G : Soc → Soc → Prop} {tags : Fin 6 → Nat}
    {p : Mmio Outcome} (h : p.among (bus (tags i)) R G Q X s) :
    (awake p).among (soc tags i) R G Q X s :=
  among_lift (T := SmpSig) (f := SmpOp.mmio) (g := fun _ r => r) (fun _ _ _ _ hE => hE) h

theorem among_second (hi : i ≠ 0) (tags : Fin 6 → Nat) (htag : tags i < 64) {own : Core}
    (hid : coreId own = num i) (hs : Good img i s) :
    (Prog.ask (S := SmpSig) .boot fun pc => awake (run img own pc)).among (soc tags i) (Rely img i)
      (Guarantee img i) (fun o s' => ∃ own', o = .worked own' ∧ SecondaryStarted own own' ∧
        Done i s') X s := by
  apply among_ask (stable_good hi) hs
  rintro s₁ hs₁ pc _ ⟨hreleased, rfl, rfl⟩
  have hup := hs₁ hreleased
  refine ⟨guarantee_second hi (.refl i _), ?_⟩
  apply among_awake
  obtain ⟨hlinked, hothers, hwrote⟩ :=
    Startup.buildCsa_run (b := SEC_CSA_BEGIN) (e := SEC_CSA_END) (by decide) own
  have hstarted : SecondaryStarted own (buildCsa SEC_CSA_BEGIN SEC_CSA_END own) :=
    Startup.coreCstart_run 0 own
  have hid' : coreId (buildCsa SEC_CSA_BEGIN SEC_CSA_END own) = num i := by
    rw [coreId, hothers CPU_CORE_ID (by decide) (by decide)]
    exact hid
  rw [run, hup.pc, if_pos rfl, coreCstart, hid']
  apply among_entry hi hup
  intro s₂ hs₂
  rw [if_pos img.worker_ne]
  apply among_entry hi hs₂
  intro s₃ hs₃
  rw [if_pos rfl]
  apply among_mono _ (among_worker hi htag hid' hs₃)
  rintro _ s₄ ⟨rfl, hdone⟩
  exact ⟨_, rfl, hstarted, hdone⟩

end

/-! ## CPU0 -/

section
variable {img : Image} {tag : Nat} {i : Fin 6} {s : Soc} {X : Empty → Soc → Prop}

theorem rely_first {t t' : Soc} (h : Rely img 0 t t') : ∃ j, j ≠ 0 ∧ Posts j t t' := by
  rwa [Rely, if_pos rfl] at h

theorem guarantee_first {t t' : Soc} (h : ∀ j, j ≠ 0 → Keeps img j t t') :
    Guarantee img 0 t t' := by
  rwa [Guarantee, if_pos rfl]

theorem Keeps.refl (img : Image) (i : Fin 6) (s : Soc) : Keeps img i s s := ⟨id, id, fun _ => rfl⟩

/-- What concerns only the words of CPU0 and the protection. -/
theorem stable_own (img : Image) (P : (UInt32 → UInt32) → Lmu.Apu → Prop) :
    Stable (Rely img 0) fun s => P s.words s.lmu.apu := by
  intro t t' hs hrely
  obtain ⟨j, -, hposts⟩ := rely_first hrely
  rw [hposts.words, hposts.apu]
  exact hs

theorem stable_done (i : Fin 6) : Stable (Rely img 0) (Done i) := by
  intro t t' hs hrely
  obtain ⟨j, -, hposts⟩ := rely_first hrely
  exact hposts.done hs

theorem stable_sound (i : Fin 6) : Stable (Rely img 0) (Sound i) := by
  intro t t' hs hrely
  obtain ⟨j, -, hposts⟩ := rely_first hrely
  exact hposts.sound hs

theorem stable_sounds : Stable (Rely img 0) fun s => ∀ j, Sound j s :=
  fun t t' ht hrely j => stable_sound j t t' (ht j) hrely

theorem stable_all {ι σ : Type} {step : σ → σ → Prop} {P : ι → Prop} {I : ι → σ → Prop}
    (h : ∀ i, Stable step (I i)) : Stable step fun s => ∀ i, P i → I i s :=
  fun t t' hs hstep i hi => h i t t' (hs i hi) hstep

/-- A store of CPU0 in a situation that the others keep, to one that they keep. -/
theorem among_first_store {I J : Soc → Prop} (hI : Stable (Rely img 0) I)
    (hJ : Stable (Rely img 0) J) {a v : UInt32} (hs : I s)
    (h : ∀ s s', I s → bus tag s (.write a v) () s' → (∀ j, j ≠ 0 → Keeps img j s s') ∧ J s') :
    (store a v).among (bus tag) (Rely img 0) (Guarantee img 0) (fun _ => J) X s := by
  apply among_ask hI hs
  intro s₁ hs₁ u s₂ hwrite
  obtain ⟨hkeeps, hs₂⟩ := h s₁ s₂ hs₁ hwrite
  exact ⟨guarantee_first hkeeps, among_ret (a := u) hJ hs₂ fun _ h => h⟩

/-- A load of CPU0. -/
theorem among_first_load {α : Type} {I : Soc → Prop} {Q : α → Soc → Prop} {k : UInt32 → Mmio α}
    (hI : Stable (Rely img 0) I) {a : UInt32} (hs : I s)
    (h : ∀ s r, I s → r = (if InWindow a then s.lmu.words a else s.words a) →
      (k r).among (bus tag) (Rely img 0) (Guarantee img 0) Q X s) :
    (load a >>= k).among (bus tag) (Rely img 0) (Guarantee img 0) Q X s := by
  apply among_ask hI hs
  rintro s₁ hs₁ r _ ⟨hr, rfl⟩
  exact ⟨guarantee_first fun j _ => .refl img j _, h _ r hs₁ hr⟩

/-! ### Before the start -/

/-- The other cores are in the boot halt. -/
def Halted (w : UInt32 → UInt32) : Prop := ∀ j : Fin 6, j ≠ 0 → w (bootcon j) &&& 1 ≠ 0

theorem keeps_halted {t t' : Soc} (h : Halted t.words) (h' : Halted t'.words) {j : Fin 6}
    (hj : j ≠ 0) :
    Keeps img j t t' where
  good := fun _ hreleased => absurd hreleased (h' j hj)
  released := fun hreleased => absurd hreleased (h j hj)
  out := fun hreleased => absurd hreleased (h j hj)

/-- Writes outside the LMU that leave the boot halts as they are. -/
theorem among_storeAll {ws : List (UInt32 × UInt32)} {apu : Lmu.Apu}
    (hws : ∀ w ∈ ws, ¬ InWindow w.1 ∧ ∀ j : Fin 6, w.1 ≠ bootcon j)
    (hs : Halted s.words ∧ s.lmu.apu = apu) :
    (storeAll ws).among (bus tag) (Rely img 0) (Guarantee img 0) (fun _ s' => Halted s'.words ∧
      s'.lmu.apu = ws.foldl (fun c w => c.write w.1 w.2) apu) X s := by
  induction ws generalizing s apu with
  | nil => exact among_ret (a := ()) (stable_own img fun w c => Halted w ∧ c = apu) hs fun _ h => h
  | cons w ws ih =>
    obtain ⟨a, v⟩ := w
    obtain ⟨hwindow, hboot⟩ := hws (a, v) (.head _)
    apply among_bind
    apply among_mono _ (among_first_store
      (J := fun s' => Halted s'.words ∧ s'.lmu.apu = apu.write a v)
      (stable_own img fun w c => Halted w ∧ c = apu)
      (stable_own img fun w c => Halted w ∧ c = apu.write a v) hs ?_)
    · intro _ s₁ hs₁
      exact ih (fun w hw => hws w (.tail _ hw)) hs₁
    · rintro t t' ⟨hhalted, hapu⟩ ⟨hstores, hwords⟩
      rw [if_neg hwindow] at hwords
      have hhalted' : Halted t'.words := by
        intro j hj
        rw [hwords, Function.update_of_ne (hboot j).symm]
        exact hhalted j hj
      refine ⟨fun j hj => keeps_halted hhalted hhalted' hj, hhalted', ?_⟩
      rw [hstores.apu, hapu]

theorem among_grant (hs : Halted s.words) :
    lmuGrant.among (bus tag) (Rely img 0) (Guarantee img 0)
      (fun _ s' => Halted s'.words ∧ s'.lmu.apu.Open) X s := by
  have hws : ∀ w ∈ LMU_GRANT, ¬ InWindow w.1 ∧ ∀ j : Fin 6, w.1 ≠ bootcon j := by
    intro w hw
    have hhigh := grant_high w hw
    refine ⟨fun hwindow => ?_, fun j heq => ?_⟩
    · have hlt : w.1.toNat < 0xB0480000 := UInt32.lt_iff_toNat_lt.mp hwindow.2
      omega
    · have hboot := (regs_high j).2.2
      rw [heq] at hhigh
      omega
  apply among_mono _ (among_storeAll hws ⟨hs, rfl⟩)
  rintro _ s' ⟨hhalted, hapu⟩
  refine ⟨hhalted, ?_⟩
  rw [hapu]
  exact Lmu.granted s.lmu.apu

/-- The words of the cores in `is` are still to be cleared. -/
theorem among_clear (htag : tag < 64) {is : List (Fin 6)}
    (hs : (Halted s.words ∧ s.lmu.apu.Open) ∧ ∀ j, j ∉ is → Sound j s) :
    (storeAll (is.map fun i => (OUT + num i * 4, 0))).among (bus tag) (Rely img 0) (Guarantee img 0)
      (fun _ s' => (Halted s'.words ∧ s'.lmu.apu.Open) ∧ ∀ j, Sound j s') X s := by
  have hkept := fun is : List (Fin 6) =>
    (stable_own img fun w c => Halted w ∧ c.Open).and (stable_all (P := (· ∉ is)) stable_sound)
  induction is generalizing s with
  | nil =>
    exact among_ret (a := ()) (hkept []) hs fun _ h => ⟨h.1, fun j => h.2 j List.not_mem_nil⟩
  | cons i is ih =>
    apply among_bind
    apply among_mono _ (among_first_store (hkept (i :: is)) (hkept is) hs ?_)
    · intro _ s₁ hs₁
      exact ih hs₁
    · rintro t t' ⟨⟨hhalted, hopen⟩, hsound⟩ hwrite
      have ht := bus_window hwrite htag hopen (out_window i)
      have hhalted' : Halted t'.words := by
        rw [ht]
        exact hhalted
      refine ⟨fun j hj => keeps_halted hhalted hhalted' hj, ⟨hhalted', ?_⟩, fun j hj => ?_⟩
      · rw [ht]
        exact hopen
      · rw [Sound, Done, ht]
        by_cases hji : j = i
        · subst hji
          exact .inl (Function.update_self ..)
        · have hout : out j ≠ OUT + num i * 4 := fun heq => hji (out_inj j i heq)
          dsimp only
          rw [Function.update_of_ne hout]
          exact hsound j (by simp [hji, hj])

/-! ### The start -/

/-- The cores in `is` are still to be started. -/
structure Stage (img : Image) (is : List (Fin 6)) (w : UInt32 → UInt32) (apu : Lmu.Apu) : Prop where
  opened : apu.Open
  up : ∀ j, j ≠ 0 → j ∉ is → Up img j w apu
  halted : ∀ j, j ∈ is → w (bootcon j) &&& 1 ≠ 0

/-- A store that no core that is up cares about. -/
theorem Up.update {w : UInt32 → UInt32} {apu : Lmu.Apu} {a v : UInt32} (h : Up img i w apu)
    (hboot : a ≠ bootcon i) (hpc : a ≠ pcReg i) (hentry : a ≠ img.entry i) :
    Up img i (Function.update w a v) apu where
  released := by
    rw [Function.update_of_ne hboot.symm]
    exact h.released
  pc := by
    rw [Function.update_of_ne hpc.symm]
    exact h.pc
  entry := by
    rw [Function.update_of_ne hentry.symm]
    exact h.entry
  opened := h.opened

theorem keeps_plain {a v : UInt32} {t : Soc} (hboot : a ≠ bootcon i) (hpc : a ≠ pcReg i)
    (hentry : a ≠ img.entry i) : Keeps img i t { t with words := Function.update t.words a v } := by
  have hsame : Soc.Released { t with words := Function.update t.words a v } i ↔ t.Released i := by
    simp only [Soc.Released, Function.update_of_ne hboot.symm]
  constructor
  · exact fun hgood hreleased => (hgood (hsame.mp hreleased)).update hboot hpc hentry
  · exact hsame.mpr
  · exact fun _ => rfl

/-- A store for a core that is still in the boot halt. -/
theorem keeps_waiting {w : UInt32 → UInt32} {j : Fin 6} {t : Soc}
    (h : t.words (bootcon j) &&& 1 ≠ 0)
    (h' : w (bootcon j) &&& 1 = 0 → Up img j w t.lmu.apu) :
      Keeps img j t { t with words := w } where
  good := fun _ => h'
  released := fun hreleased => absurd hreleased h
  out := fun _ => rfl

/-- While core `i` is being started, the words of `i` change. -/
theorem Stage.update {is : List (Fin 6)} {w : UInt32 → UInt32} {apu : Lmu.Apu} {a v : UInt32}
    (h : Stage img (i :: is) w apu) (hboot : ∀ j : Fin 6, a ≠ bootcon j)
    (hother : ∀ j, j ≠ i → a ≠ pcReg j ∧ a ≠ img.entry j) :
    Stage img (i :: is) (Function.update w a v) apu where
  opened := h.opened
  up := by
    intro j hj hmem
    obtain ⟨hpc, hentry⟩ := hother j fun heq => hmem (heq ▸ List.mem_cons_self)
    exact (h.up j hj hmem).update (hboot j) hpc hentry
  halted := by
    intro j hj
    rw [Function.update_of_ne (hboot j).symm]
    exact h.halted j hj

/-- A store of CPU0 for core `i` before it is released. -/
theorem among_prepare {is : List (Fin 6)} {P : (UInt32 → UInt32) → Prop} {a v : UInt32}
    (ha : Plain a) (hboot : ∀ j : Fin 6, a ≠ bootcon j)
    (hother : ∀ j, j ≠ i → a ≠ pcReg j ∧ a ≠ img.entry j)
    (hP : ∀ w, P w → P (Function.update w a v))
    (hs : (Stage img (i :: is) s.words s.lmu.apu ∧ P s.words) ∧ ∀ j, Sound j s) :
    (store a v).among (bus tag) (Rely img 0) (Guarantee img 0)
      (fun _ s' => (Stage img (i :: is) s'.words s'.lmu.apu ∧ P s'.words ∧ s'.words a = v) ∧
        ∀ j, Sound j s') X s := by
  apply among_first_store
    ((stable_own img fun w c => Stage img (i :: is) w c ∧ P w).and stable_sounds)
    ((stable_own img fun w c => Stage img (i :: is) w c ∧ P w ∧ w a = v).and stable_sounds) hs
  rintro t t' ⟨⟨hstage, hp⟩, ht⟩ hwrite
  have hplain := bus_plain hwrite ha
  subst hplain
  refine ⟨fun j hj => ?_, ⟨hstage.update hboot hother, hP _ hp, Function.update_self ..⟩, ht⟩
  by_cases hji : j = i
  · subst hji
    have hhalted := hstage.halted j List.mem_cons_self
    apply keeps_waiting hhalted
    rw [Function.update_of_ne (hboot j).symm]
    exact fun hreleased => absurd hreleased hhalted
  · obtain ⟨hpc, hentry⟩ := hother j hji
    exact keeps_plain (hboot j) hpc hentry

/-- The last store for core `i`: it is up. -/
theorem among_release {is : List (Fin 6)} (his : i ∉ is)
    (hs : (Stage img (i :: is) s.words s.lmu.apu ∧ s.words (img.entry i) = img.worker ∧
      s.words (pcReg i) = img.tramp) ∧ ∀ j, Sound j s) :
    (store (bootcon i) 0).among (bus tag) (Rely img 0) (Guarantee img 0)
      (fun _ s' => Stage img is s'.words s'.lmu.apu ∧ ∀ j, Sound j s') X s := by
  have hset := stable_own img fun w c =>
    Stage img (i :: is) w c ∧ w (img.entry i) = img.worker ∧ w (pcReg i) = img.tramp
  have hdone := stable_own img fun w c => Stage img is w c
  apply among_first_store (hset.and stable_sounds) (hdone.and stable_sounds) hs
  rintro t t' ⟨⟨hstage, hentry, hpc⟩, ht⟩ hwrite
  have hplain := bus_plain hwrite (plain_regs i).2
  subst hplain
  have hup : Up img i (Function.update t.words (bootcon i) 0) t.lmu.apu := by
    constructor
    · rw [Function.update_self]
      rfl
    · rw [Function.update_of_ne (pcReg_ne_bootcon i i)]
      exact hpc
    · rw [Function.update_of_ne (entry_ne_reg img i (regs_high i).2.1)]
      exact hentry
    · exact hstage.opened
  have hother : ∀ j, j ≠ i → bootcon i ≠ bootcon j ∧ bootcon i ≠ pcReg j ∧
      bootcon i ≠ img.entry j :=
    fun j hj => ⟨fun heq => hj (bootcon_inj i j heq).symm, (pcReg_ne_bootcon j i).symm,
      (entry_ne_reg img j (regs_high i).2.1).symm⟩
  refine ⟨fun j hj => ?_, ⟨hstage.opened, fun j hj hmem => ?_, fun j hmem => ?_⟩, ht⟩
  · by_cases hji : j = i
    · subst hji
      exact keeps_waiting (hstage.halted j List.mem_cons_self) fun _ => hup
    · obtain ⟨hboot, hpc', hentry'⟩ := hother j hji
      exact keeps_plain hboot hpc' hentry'
  · by_cases hji : j = i
    · subst hji
      exact hup
    · obtain ⟨hboot, hpc', hentry'⟩ := hother j hji
      have hold := hstage.up j hj (List.not_mem_cons_of_ne_of_not_mem hji hmem)
      have hnew := Up.update (v := 0) hold hboot hpc' hentry'
      exact hnew
  · have hji : j ≠ i := fun heq => his (heq ▸ hmem)
    dsimp only
    rw [Function.update_of_ne (hother j hji).1.symm]
    exact hstage.halted j (List.mem_cons_of_mem _ hmem)

theorem among_coreStartC {is : List (Fin 6)} (hi : i ≠ 0) (his : i ∉ is)
    (hs : Stage img (i :: is) s.words s.lmu.apu ∧ ∀ j, Sound j s) :
    (coreStartC img (num i) img.worker).among (bus tag) (Rely img 0) (Guarantee img 0)
      (fun _ s' => Stage img is s'.words s'.lmu.apu ∧ ∀ j, Sound j s') X s := by
  have hrange : ∀ i : Fin 6, i ≠ 0 → ¬ (num i < 1 ∨ num i > 5) := by decide
  obtain ⟨hplainPc, hplainBoot⟩ := plain_regs i
  rw [coreStartC, if_neg (hrange i hi), coreStart, if_neg (hrange i hi)]
  -- the entry
  apply among_bind
  apply among_mono _ (among_prepare (P := fun _ => True) (a := img.entry i) (v := img.worker)
    (plain_entry img i) (fun j => entry_ne_reg img i (regs_high j).2.1) ?_ (fun _ h => h)
    ⟨⟨hs.1, trivial⟩, hs.2⟩)
  swap
  · exact fun j hj => ⟨entry_ne_reg img i (regs_high j).1, fun heq => hj (entry_inj img heq).symm⟩
  rintro _ s₁ ⟨⟨hstage₁, -, hentry₁⟩, hsound₁⟩
  -- the PC
  apply among_bind
  apply among_mono _ (among_prepare (P := fun w => w (img.entry i) = img.worker) (a := pcReg i)
    (v := img.tramp) hplainPc (pcReg_ne_bootcon i) ?_ ?_ ⟨⟨hstage₁, hentry₁⟩, hsound₁⟩)
  rotate_left
  · exact fun j hj => ⟨fun heq => hj (pcReg_inj i j heq).symm,
      (entry_ne_reg img j (regs_high i).1).symm⟩
  · intro w hw
    rwa [Function.update_of_ne (entry_ne_reg img i (regs_high i).1)]
  intro _ s₂ hs₂
  -- the boot halt
  have hset := stable_own img fun w c =>
    Stage img (i :: is) w c ∧ w (img.entry i) = img.worker ∧ w (pcReg i) = img.tramp
  apply among_first_load (a := bootcon i) (hset.and stable_sounds) hs₂
  intro s₃ r hs₃ hr
  rw [if_neg hplainBoot.1] at hr
  have hhalted : r &&& 1 ≠ 0 := by
    rw [hr]
    exact hs₃.1.1.halted i List.mem_cons_self
  rw [if_pos hhalted]
  apply among_bind
  apply among_mono _ (among_release his hs₃)
  have hdone := stable_own img fun w c => Stage img is w c
  exact fun _ s₄ hs₄ => among_ret (a := (0 : Int)) (hdone.and stable_sounds) hs₄ fun _ h => h

theorem among_startAll (is : List (Fin 6)) (hnodup : is.Nodup) (h0 : 0 ∉ is)
    (hs : Stage img is s.words s.lmu.apu ∧ ∀ j, Sound j s) :
    (startAll img (is.map num)).among (bus tag) (Rely img 0) (Guarantee img 0)
      (fun _ s' => Stage img [] s'.words s'.lmu.apu ∧ ∀ j, Sound j s') X s := by
  induction is generalizing s with
  | nil =>
    exact among_ret (a := ())
      ((stable_own img fun w c => Stage img [] w c).and stable_sounds) hs fun _ h => h
  | cons i is ih =>
    obtain ⟨his, hnodup⟩ := List.nodup_cons.mp hnodup
    apply among_bind
    apply among_mono _ (among_coreStartC (fun heq => h0 (heq ▸ List.mem_cons_self)) his hs)
    intro _ s₁ hs₁
    exact ih hnodup (fun hmem => h0 (List.mem_cons_of_mem _ hmem)) hs₁

/-! ### The poll and the report -/

def secondaries : List (Fin 6) := [1, 2, 3, 4, 5]

/-- `ok` counts cores that are done. -/
def Counted (is : List (Fin 6)) (ok : UInt32) (s : Soc) : Prop :=
  ∃ D : List (Fin 6), D.Sublist is ∧ ok = UInt32.ofNat D.length ∧ ∀ i ∈ D, Done i s

theorem stable_counted (is : List (Fin 6)) (ok : UInt32) : Stable (Rely img 0) (Counted is ok) := by
  rintro t t' ⟨D, hsub, hok, hdone⟩ hrely
  exact ⟨D, hsub, hok, fun i hi => stable_done i t t' (hdone i hi) hrely⟩

/-- `D` has been counted so far. -/
theorem among_scan {P : (UInt32 → UInt32) → Lmu.Apu → Prop} (D is : List (Fin 6))
    (hs : P s.words s.lmu.apu ∧ (∀ j, Sound j s) ∧ ∀ i, i ∈ D → Done i s) :
    (scan (is.map num) (UInt32.ofNat D.length)).among (bus tag) (Rely img 0) (Guarantee img 0)
      (fun ok s' => P s'.words s'.lmu.apu ∧ (∀ j, Sound j s') ∧ Counted (D ++ is) ok s') X s := by
  have hkept := fun D : List (Fin 6) => (stable_own img P).and
    (stable_sounds.and (stable_all (P := (· ∈ D)) stable_done))
  induction is generalizing s D with
  | nil =>
    rw [List.append_nil]
    exact among_ret (hkept D) hs fun _ ⟨hp, hsound, hdone⟩ => ⟨hp, hsound, D, .refl D, rfl, hdone⟩
  | cons i is ih =>
    apply among_first_load (a := out i) (hkept D) hs
    rintro s₁ r ⟨hp, hsound, hdone⟩ hr
    rw [if_pos (out_window i)] at hr
    rw [fib_num]
    split
    · rename_i hresult
      have hlength : UInt32.ofNat D.length + 1 = UInt32.ofNat (D ++ [i]).length := by
        rw [List.length_append, List.length_singleton, UInt32.ofNat_add]
        rfl
      have hi : Done i s₁ := hr.symm.trans hresult
      rw [hlength]
      apply among_mono _ (ih (D ++ [i]) ⟨hp, hsound, ?_⟩)
      · rw [List.append_assoc, List.singleton_append]
        exact fun _ _ h => h
      · intro j hj
        rcases List.mem_append.mp hj with hj | hj
        · exact hdone j hj
        · rw [List.mem_singleton.mp hj]
          exact hi
    · apply among_mono _ (ih D ⟨hp, hsound, hdone⟩)
      rintro ok s₂ ⟨hp, hsound, D', hsub, hok, hdone⟩
      exact ⟨hp, hsound, D', hsub.trans (List.Sublist.append_left (List.sublist_cons_self i is) D),
        hok, hdone⟩

theorem among_await {P : (UInt32 → UInt32) → Lmu.Apu → Prop} (polls : Nat) (ok : UInt32)
    (hs : P s.words s.lmu.apu ∧ (∀ j, Sound j s) ∧ Counted secondaries ok s) :
    (await polls ok).among (bus tag) (Rely img 0) (Guarantee img 0)
      (fun ok s' => P s'.words s'.lmu.apu ∧ (∀ j, Sound j s') ∧ Counted secondaries ok s') X s := by
  have hkept := fun ok => (stable_own img P).and
    (stable_sounds.and (stable_counted secondaries ok))
  induction polls generalizing s ok with
  | zero => exact among_ret (hkept ok) hs fun _ h => h
  | succ t ih =>
    rw [await]
    split
    · apply among_bind
      apply among_mono _ (among_scan (P := P) [] secondaries
        ⟨hs.1, hs.2.1, fun i hi => by cases hi⟩)
      exact fun ok s₁ hs₁ => ih ok hs₁
    · exact among_ret (hkept ok) hs fun _ h => h

def HEARTBEAT : UInt32 := 0x70000000
def FLAG_CPU1 : UInt32 := 0x70000004
def FLAG_CPU5 : UInt32 := 0x7000000C

/-- A flag is 0 or the result, and the result when the heartbeat is 5. -/
structure Flag (i : Fin 6) (ok r : UInt32) : Prop where
  sound : r = 0 ∨ r = result i
  all : ok = 5 → r = result i

/-- The heartbeat counts cores whose result is there. -/
structure Reported (ok : UInt32) (s : Soc) : Prop where
  heartbeat : s.words HEARTBEAT = ok
  counted : Counted secondaries ok s
  all : ok = 5 → ∀ i, i ≠ 0 → Done i s
  first : Flag 1 ok (s.words FLAG_CPU1)
  last : Flag 5 ok (s.words FLAG_CPU5)

/-- When the heartbeat is 5, all are done. -/
theorem Counted.all {ok : UInt32} {s : Soc} (h : Counted secondaries ok s)
    (hok : ok = 5) {i : Fin 6}
    (hi : i ≠ 0) : Done i s := by
  obtain ⟨D, hsub, hlength, hdone⟩ := h
  have hle : D.length ≤ 5 := hsub.length_le
  have hlength' : D.length = 5 := by
    have hnat := congrArg UInt32.toNat (hlength.symm.trans hok)
    rwa [UInt32.toNat_ofNat_of_lt' (show D.length < UInt32.size by rw [UInt32.size]; omega)] at hnat
  have hD : D = secondaries := hsub.eq_of_length hlength'
  have hall : ∀ i : Fin 6, i ≠ 0 → i ∈ secondaries := by decide
  exact hdone i (hD ▸ hall i hi)

/-- The words that `main` reports in are nobody's. -/
theorem keeps_flag {a v : UInt32} (ha : a.toNat < 0x70000010) (j : Fin 6) (t : Soc) :
    Keeps img j t { t with words := Function.update t.words a v } := by
  obtain ⟨hpc, hboot, -⟩ := regs_high j
  have hlow := img.low
  have hentry := toNat_entry img j
  apply keeps_plain
  · rintro rfl
    omega
  · rintro rfl
    omega
  · rintro rfl
    omega

theorem among_flag {P : (UInt32 → UInt32) → Lmu.Apu → Prop} {I : Soc → Prop} {a v : UInt32}
    (hI : Stable (Rely img 0) I) (hIwords : ∀ s w, I s → I { s with words := w })
    (ha : a.toNat < 0x70000010) (hs : P s.words s.lmu.apu ∧ I s) :
    (store a v).among (bus tag) (Rely img 0) (Guarantee img 0) (fun _ s' =>
      (∃ w, P w s'.lmu.apu ∧ s'.words = Function.update w a v) ∧ I s') X s := by
  apply among_first_store ((stable_own img P).and hI)
    ((stable_own img fun w c => ∃ w', P w' c ∧ w = Function.update w' a v).and hI) hs
  rintro t t' ⟨hp, ht⟩ hwrite
  have hplain := bus_plain hwrite (plain_low (by omega))
  subst hplain
  exact ⟨fun j _ => keeps_flag ha j t, ⟨t.words, hp, rfl⟩, hIwords t _ ht⟩

/-- A load of a result for a flag. -/
theorem among_result {ok : UInt32} {P : (UInt32 → UInt32) → Lmu.Apu → Prop}
    {Q : Outcome → Soc → Prop}
    {k : UInt32 → Mmio Outcome} (hi : i ≠ 0)
    (hs : P s.words s.lmu.apu ∧ (∀ j, Sound j s) ∧ Counted secondaries ok s)
    (h : ∀ s r, Flag i ok r → P s.words s.lmu.apu ∧ (∀ j, Sound j s) ∧ Counted secondaries ok s →
      (k r).among (bus tag) (Rely img 0) (Guarantee img 0) Q X s) :
    (load (out i) >>= k).among (bus tag) (Rely img 0) (Guarantee img 0) Q X s := by
  apply among_first_load
    ((stable_own img P).and (stable_sounds.and (stable_counted secondaries ok))) hs
  intro s₁ r hs₁ hr
  rw [if_pos (out_window i)] at hr
  refine h s₁ r ⟨?_, fun hok => ?_⟩ hs₁
  · rw [hr]
    exact hs₁.2.1 i
  · rw [hr]
    exact hs₁.2.2.all hok hi

theorem among_report {ok : UInt32} (hs : (∀ j, Sound j s) ∧ Counted secondaries ok s) :
    (report ok).among (bus tag) (Rely img 0) (Guarantee img 0)
      (fun o s' => o = .reported ok ∧ Reported ok s') X s := by
  have hkept : Stable (Rely img 0) fun s => (∀ j, Sound j s) ∧ Counted secondaries ok s :=
    stable_sounds.and (stable_counted secondaries ok)
  have hwords : ∀ s w, ((∀ j, Sound j s) ∧ Counted secondaries ok s) →
      (∀ j, Sound j { s with words := w }) ∧ Counted secondaries ok { s with words := w } :=
    fun _ _ h => h
  apply among_result (i := 1) (P := fun _ _ => True) (by decide) ⟨trivial, hs⟩
  intro s₁ r₁ hflag₁ hs₁
  apply among_bind
  apply among_mono _ (among_flag (P := fun _ _ => True) hkept hwords (by decide) hs₁)
  rintro _ s₂ ⟨⟨w₁, -, hw₁⟩, hs₂⟩
  have hfirst : s₂.words FLAG_CPU1 = r₁ := by
    rw [hw₁]
    exact Function.update_self ..
  apply among_result (i := 5) (P := fun w _ => w FLAG_CPU1 = r₁) (by decide) ⟨hfirst, hs₂⟩
  intro s₃ r₅ hflag₅ hs₃
  apply among_bind
  apply among_mono _ (among_flag (P := fun w _ => w FLAG_CPU1 = r₁) hkept hwords (by decide) hs₃)
  rintro _ s₄ ⟨⟨w₃, hfirst₃, hw₃⟩, hs₄⟩
  have hboth : s₄.words FLAG_CPU1 = r₁ ∧ s₄.words FLAG_CPU5 = r₅ := by
    rw [hw₃, ← hfirst₃]
    exact ⟨Function.update_of_ne (by decide) .., Function.update_self ..⟩
  apply among_bind
  apply among_mono _ (among_flag (P := fun w _ => w FLAG_CPU1 = r₁ ∧ w FLAG_CPU5 = r₅) hkept hwords
    (by decide) ⟨hboth, hs₄⟩)
  rintro _ s₅ ⟨⟨w₅, ⟨hfirst₅, hlast₅⟩, hw₅⟩, hs₅⟩
  have hall : s₅.words HEARTBEAT = ok ∧ s₅.words FLAG_CPU1 = r₁ ∧ s₅.words FLAG_CPU5 = r₅ := by
    rw [hw₅, ← hfirst₅, ← hlast₅]
    exact ⟨Function.update_self .., Function.update_of_ne (by decide) ..,
      Function.update_of_ne (by decide) ..⟩
  refine among_ret (a := Outcome.reported ok) ((stable_own img fun w _ => w HEARTBEAT = ok ∧
    w FLAG_CPU1 = r₁ ∧ w FLAG_CPU5 = r₅).and hkept) ⟨hall, hs₅⟩ ?_
  rintro s₆ ⟨⟨hheartbeat, hfirst, hlast⟩, hsound, hcounted⟩
  rw [← hfirst] at hflag₁
  rw [← hlast] at hflag₅
  exact ⟨rfl, hheartbeat, hcounted, fun hok i hi => hcounted.all hok hi, hflag₁, hflag₅⟩

theorem among_lightUp (htag : tag < 64) (hs : Halted s.words) :
    (lightUp img).among (bus tag) (Rely img 0) (Guarantee img 0)
      (fun _ s' => Stage img [] s'.words s'.lmu.apu ∧ ∀ j, Sound j s') X s := by
  apply among_bind
  apply among_mono _ (among_grant hs)
  intro _ s₁ hs₁
  have hclear : clearOut = storeAll ((List.finRange 6).map fun i => (OUT + num i * 4, 0)) := rfl
  rw [hclear]
  apply among_bind
  apply among_mono _ (among_clear htag ⟨hs₁, fun j hj => absurd (List.mem_finRange j) hj⟩)
  rintro _ s₂ ⟨⟨hhalted, hopen⟩, hsound⟩
  have hstage : Stage img secondaries s₂.words s₂.lmu.apu := by
    have hall : ∀ j : Fin 6, j ≠ 0 → j ∈ secondaries := by decide
    have hnot : ∀ j : Fin 6, j ∈ secondaries → j ≠ 0 := by decide
    exact ⟨hopen, fun j hj hmem => absurd (hall j hj) hmem, fun j hmem => hhalted j (hnot j hmem)⟩
  exact among_startAll secondaries (by decide) (by decide) ⟨hstage, hsound⟩

theorem among_main (polls : Nat) (htag : tag < 64) (hs : Halted s.words) :
    (main img polls).among (bus tag) (Rely img 0) (Guarantee img 0)
      (fun o s' => ∃ ok, o = .reported ok ∧ Reported ok s') X s := by
  apply among_bind
  apply among_mono _ (among_lightUp htag hs)
  rintro _ s₁ ⟨-, hsound⟩
  apply among_bind
  apply among_mono _ (among_await (P := fun _ _ => True) polls 0
    ⟨trivial, hsound, [], List.nil_sublist _, rfl, fun i hi => by cases hi⟩)
  rintro ok s₂ ⟨-, hs₂⟩
  apply among_mono _ (among_report hs₂)
  exact fun _ _ h => ⟨ok, h⟩

end

/-! ## All cores -/

/-- Where a core ends up. -/
def Fulfilled (own : Fin 6 → Core) (i : Fin 6) (o : Outcome) (s : Soc) : Prop :=
  if i = 0 then ∃ ok, o = .reported ok ∧ Reported ok s
  else ∃ own', o = .worked own' ∧ SecondaryStarted (own i) own' ∧ Done i s

/-- However the six cores interleave: no core that is started goes astray or finds nothing to
do, each has its list of context save areas and its result in the LMU when it is through, and
the heartbeat of CPU0 never counts a result that is not there. -/
theorem six_cores (img : Image) (polls : Nat) (own : Fin 6 → Core) (tag : Fin 6 → Nat)
    (htag : ∀ i, tag i < 64) (hid : ∀ i, coreId (own i) = num i) (s s' : Soc)
    (hs : ∀ i, i ≠ 0 → ¬ s.Released i) (ps' : Fin 6 → Party)
    (hturns : ReflTransGen (Turn (soc tag)) (s, party img polls own) (s', ps')) (i : Fin 6)
    (o : Outcome) (hret : ps' i = .ret o) : Fulfilled own i o s' := by
  have hstart : Together (soc tag) (Rely img) (Guarantee img) (Fulfilled own) (fun _ _ _ => False)
      (s, party img polls own) := by
    intro i
    dsimp only
    by_cases hi : i = 0
    · subst hi
      rw [party, if_pos rfl]
      apply among_mono _ (among_awake (among_main polls (htag 0) hs))
      intro o t ho
      rwa [Fulfilled, if_pos rfl]
    · rw [party, if_neg hi]
      have hgood : Good img i s := fun hreleased => absurd hreleased (hs i hi)
      apply among_mono _ (among_second hi tag (htag i) (hid i) hgood)
      intro o t ho
      rwa [Fulfilled, if_neg hi]
  have hend := (hstart.turns (guarantee_rely img) (I := fun _ => True)
    (fun _ _ _ _ _ => trivial) trivial hturns).1
  exact hend.returned hret

/-! A run in which all of them get through: CPU0 starts the others, they work one after the
other, and CPU0 reports. -/

def Soc.serve (tag : Nat) (s : Soc) : (o : MmioOp) → MmioSig.Res o × Soc
  | .read a => (if InWindow a then s.lmu.words a else s.words a, s)
  | .write a v => ((), {
      lmu := {
        apu := s.lmu.apu.write a v
        words := if InWindow a ∧ s.lmu.apu.Permits tag a then Function.update s.lmu.words a v
          else s.lmu.words }
      words := if InWindow a then s.words else Function.update s.words a v })

theorem bus_serve (tag : Nat) (s : Soc) (o : MmioOp) :
    bus tag s o (s.serve tag o).1 (s.serve tag o).2 := by
  cases o with
  | read a => exact ⟨rfl, rfl⟩
  | write a v =>
    refine ⟨⟨rfl, fun hwindow hpermits => ?_, fun hwindow hnot => ?_, fun hwindow _ => ?_⟩, rfl⟩
    · exact if_pos ⟨hwindow, hpermits⟩
    · exact if_neg fun h => hnot h.2
    · exact if_neg fun h => hwindow h.1

section
variable {img : Image} {own : Fin 6 → Core} {tag : Fin 6 → Nat}

theorem runs_awake (tag : Fin 6 → Nat) {i : Fin 6} {α : Type} {p : Mmio α} {s s' : Soc} {a : α}
    (h : Runs (bus (tag i)) p s (.ok a) s') :
    Runs (soc tag i) (awake p) s (.ok a) s' :=
  h.lift (T := SmpSig) (f := SmpOp.mmio) (g := fun _ r => r) fun _ _ r _ hE => ⟨r, rfl, hE⟩

/-- A core that is up can get through, and the others are up after it. -/
theorem second_runs (polls : Nat) (htag : ∀ i, tag i < 64)
    (hid : ∀ i, coreId (own i) = num i) {i : Fin 6}
    (hi : i ≠ 0) {s : Soc} (hs : Stage img [] s.words s.lmu.apu) :
    ∃ o s', Runs (soc tag i) (party img polls own i) s (.ok o) s' ∧
      Stage img [] s'.words s'.lmu.apu := by
  have hup := hs.up i hi List.not_mem_nil
  obtain ⟨o, s', hrun⟩ := runs_ok _ _ (bus_serve (tag i)) (run img (own i) (s.words (pcReg i))) s
  have hparty : Runs (soc tag i) (party img polls own i) s (.ok o) s' := by
    rw [party, if_neg hi]
    exact .ask (S := SmpSig) (o := SmpOp.boot) ⟨hup.released, rfl, rfl⟩ (runs_awake tag hrun)
  have hamong : (party img polls own i).among (soc tag i) (Rely img i) (Guarantee img i)
      (fun _ _ => True) (fun _ _ => True) s := by
    rw [party, if_neg hi]
    exact among_mono (fun _ _ _ => trivial)
      (among_second hi tag (htag i) (hid i) fun hreleased => hup)
  obtain ⟨hsteps, -⟩ := hparty.among hamong
  refine ⟨o, s', hparty, ?_⟩
  clear hparty hrun hamong hup
  induction hsteps with
  | refl => exact hs
  | tail _ hstep ih =>
    rw [Guarantee, if_neg hi] at hstep
    rw [hstep.words, hstep.apu]
    exact ih

theorem seconds_run (polls : Nat) (htag : ∀ i, tag i < 64) (hid : ∀ i, coreId (own i) = num i)
    (is : List (Fin 6)) (h0 : 0 ∉ is) (hnodup : is.Nodup) (s : Soc) (ps : Fin 6 → Party)
    (hs : Stage img [] s.words s.lmu.apu) (hps : ∀ i ∈ is, ps i = party img polls own i) :
    ∃ s' ps', ReflTransGen (Turn (soc tag)) (s, ps) (s', ps') ∧ (∀ i ∈ is, ∃ o, ps' i = .ret o) ∧
      ∀ i, i ∉ is → ps' i = ps i := by
  induction is generalizing s ps with
  | nil => exact ⟨s, ps, .refl, fun i hi => absurd hi List.not_mem_nil, fun _ _ => rfl⟩
  | cons i is ih =>
    obtain ⟨hmem, hnodup⟩ := List.nodup_cons.mp hnodup
    obtain ⟨o, s₁, hrun, hs₁⟩ :=
      second_runs polls htag hid (fun heq => h0 (heq ▸ List.mem_cons_self)) hs
    have hturns := hrun.turns ps (hps i List.mem_cons_self)
    obtain ⟨s', ps', hrest, hret, hsame⟩ := ih (fun h => h0 (List.mem_cons_of_mem _ h)) hnodup s₁
      (Function.update ps i (.ret o)) hs₁ (by
        intro j hj
        rw [Function.update_of_ne (ne_of_mem_of_not_mem hj hmem)]
        exact hps j (List.mem_cons_of_mem _ hj))
    refine ⟨s', ps', hturns.trans hrest, fun j hj => ?_, fun j hj => ?_⟩
    · rcases List.mem_cons.mp hj with rfl | hj
      · exact ⟨o, (hsame j hmem).trans (Function.update_self ..)⟩
      · exact hret j hj
    · obtain ⟨hji, hj⟩ := List.ne_and_not_mem_of_not_mem_cons hj
      rw [hsame j hj, Function.update_of_ne hji]

end

def demoImage : Image where
  entries := 0x70000010
  tramp := 0x70100000
  worker := 0x70100100
  low := by decide
  high := by decide
  worker_ne := by decide

def demoCore (i : Fin 6) : Core := ⟨fun _ => 0, fun _ => num i, []⟩

def resetSoc : Soc where
  lmu := { apu := ⟨0, false, fun _ => 0, fun _ => 0⟩, words := fun _ => 0xDEADBEEF }
  words _ := 1

theorem six_cores_demo : ∃ s' ps', ReflTransGen (Turn (soc fun i => i))
    (resetSoc, party demoImage 1 demoCore) (s', ps') ∧
      ∀ i, ∃ o, ps' i = .ret o ∧ Fulfilled demoCore i o s' := by
  have htag : ∀ i : Fin 6, (i : Nat) < 64 := by decide
  have hid : ∀ i, coreId (demoCore i) = num i := by decide
  have h0 : (0 : Fin 6) ∉ secondaries := by decide
  have hone : ¬ (1 : UInt32) &&& 1 = 0 := by decide
  have hhalted : ∀ i, i ≠ 0 → ¬ resetSoc.Released i := fun _ _ => hone
  obtain ⟨u, s₁, hlight⟩ := runs_ok _ _ (bus_serve 0) (lightUp demoImage) resetSoc
  obtain ⟨-, hstage⟩ := hlight.among
    (among_lightUp (X := fun _ _ => True) (by decide) hhalted)
  have hfirst := (runs_awake (fun i => i) (i := 0) hlight).turns_bind (E := soc fun i => i)
    (f := fun _ => awake (await 1 0 >>= report)) (party demoImage 1 demoCore) (lift_bind ..)
  obtain ⟨s₂, ps, hsecond, hret, hsame⟩ := seconds_run 1 htag hid
    secondaries h0 (by decide) s₁
    (Function.update (party demoImage 1 demoCore) 0 (awake (await 1 0 >>= report))) (hstage u rfl).1
    (fun i hi => Function.update_of_ne (ne_of_mem_of_not_mem hi h0) ..)
  obtain ⟨o, s₃, hrest⟩ := runs_ok _ _ (bus_serve 0) (await 1 0 >>= report) s₂
  have hlast := (runs_awake (fun i => i) (i := 0) hrest).turns (E := soc fun i => i) ps
    ((hsame 0 h0).trans (Function.update_self ..))
  have hturns := (hfirst.trans hsecond).trans hlast
  have hall : ∀ i, ∃ o', Function.update ps 0 (.ret o) i = .ret o' := by
    intro i
    by_cases hi : i = 0
    · subst hi
      exact ⟨o, Function.update_self ..⟩
    · have hmem : ∀ i : Fin 6, i ≠ 0 → i ∈ secondaries := by decide
      rw [Function.update_of_ne hi]
      exact hret i (hmem i hi)
  refine ⟨s₃, _, hturns, fun i => ?_⟩
  obtain ⟨o', ho'⟩ := hall i
  exact ⟨o', ho', six_cores demoImage 1 demoCore _ htag hid resetSoc s₃ hhalted _ hturns i o' ho'⟩

end OpenTricore.Smp
