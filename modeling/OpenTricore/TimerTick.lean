import Mathlib.Algebra.Group.Nat.Defs
import OpenTricore.Lib.Interleave

/-! The timer tick, `bsp/tc4d7/irq.c`. The system timer counts on while the code runs, so
its ticks come between any two accesses. A compare match sets a flag, and the handler
advances the compare register and clears the flag again. -/

namespace OpenTricore.TimerTick
open Lib Lib.Prog

/-! ## The code -/

def STM_ABS : UInt32 := 0xF8800020
def STM_CMP0 : UInt32 := 0xF8800120
def STM_CMCON : UInt32 := 0xF8800128
def STM_ICR : UInt32 := 0xF880012C
def STM_ISCR : UInt32 := 0xF8800130
def SRC_STM0 : UInt32 := 0xF4432028
def CSFR_BIV : UInt32 := 0xFE20
def CSFR_ISP : UInt32 := 0xFE28
def STM_TICK_PRIO : UInt32 := 10

inductive IrqOp
  | read (a : UInt32)
  | write (a v : UInt32)
  | mtcr (id v : UInt32)
  | enable
  | getInterval
  | setInterval (v : UInt32)
  | getTicks
  | setTicks (v : UInt32)

def IrqSig : Sig where
  Op := IrqOp
  Res
    | .read _ | .getInterval | .getTicks => UInt32
    | .write .. | .mtcr .. | .enable | .setInterval _ | .setTicks _ => Unit

abbrev Irq := Prog IrqSig Empty

def load (a : UInt32) : Irq UInt32 := Prog.perform (S := IrqSig) (.read a)
def store (a v : UInt32) : Irq Unit := Prog.perform (S := IrqSig) (.write a v)
def mtcr (id v : UInt32) : Irq Unit := Prog.perform (S := IrqSig) (.mtcr id v)
def enable : Irq Unit := Prog.perform (S := IrqSig) .enable
/-- The variables `g_interval` and `g_ticks`. -/
def gInterval : Irq UInt32 := Prog.perform (S := IrqSig) .getInterval
def setInterval (v : UInt32) : Irq Unit := Prog.perform (S := IrqSig) (.setInterval v)
def gTicks : Irq UInt32 := Prog.perform (S := IrqSig) .getTicks
def setTicks (v : UInt32) : Irq Unit := Prog.perform (S := IrqSig) (.setTicks v)

def stmIsr : Irq Unit := do
  let cmp ← load STM_CMP0
  store STM_CMP0 (cmp + (← gInterval))
  store STM_ISCR 1
  setTicks ((← gTicks) + 1)

/-- Where the linker put `&istack[512]` and `__ivt`. -/
structure Layout where
  istackTop : UInt32
  ivt : UInt32

def timerTickInit (l : Layout) (interval : UInt32) : Irq Unit := do
  setInterval interval
  mtcr CSFR_ISP l.istackTop
  mtcr CSFR_BIV l.ivt
  store STM_CMCON 31
  store STM_CMP0 ((← load STM_ABS) + interval)
  store STM_ISCR 1
  store STM_ICR 1
  store SRC_STM0 <| STM_TICK_PRIO ||| ((1 : UInt32) <<< 23)
  enable

/-! ## The timer -/

/-- What only the code changes. `t0` is ours: the count when `STM_ABS` was last read. -/
structure Regs where
  cmp0 : UInt32
  cmcon : UInt32
  icr : UInt32
  src : UInt32
  biv : UInt32
  isp : UInt32
  gInterval : UInt32
  gTicks : UInt32
  ie : Bool
  t0 : Nat

/-- `count` is the 64-bit count, taken as a number that does not wrap, and `flag` is
`CMP0IR`. `hits` is ours: the counts at which an enabled compare matched. -/
structure Stm extends Regs where
  count : Nat
  flag : Bool
  hits : List Nat

/-- The low `MSIZE0 + 1` bits are compared. -/
def Regs.Compares (r : Regs) (count : Nat) : Prop :=
  count % 2 ^ ((r.cmcon &&& 31).toNat + 1) = r.cmp0.toNat % 2 ^ ((r.cmcon &&& 31).toNat + 1)

instance (r : Regs) (count : Nat) : Decidable (r.Compares count) := by
  unfold Regs.Compares
  infer_instance

def Regs.set (r : Regs) (a v : UInt32) : Regs :=
  if a = STM_CMP0 then { r with cmp0 := v }
  else if a = STM_CMCON then { r with cmcon := v }
  else if a = STM_ICR then { r with icr := v }
  else if a = SRC_STM0 then { r with src := v }
  else r

def Regs.setCore (r : Regs) (id v : UInt32) : Regs :=
  if id = CSFR_BIV then { r with biv := v } else if id = CSFR_ISP then { r with isp := v } else r

def clears (a v : UInt32) : Bool := a == STM_ISCR && v &&& 1 != 0

namespace Stm

/-- A match sets the flag, as long as it lasts. -/
def latch (s : Stm) : Stm :=
  if s.Compares s.count then
    { s with flag := true, hits := if s.icr &&& 1 ≠ 0 then s.hits ++ [s.count] else s.hits }
  else s

def tick (s : Stm) : Stm := latch { s with count := s.count + 1 }

/-- A write of the timer. `CMP0IRR` of `ISCR` clears the flag, unless the match lasts. -/
def write (s : Stm) (a v : UInt32) : Stm :=
  latch { s with toRegs := s.toRegs.set a v, flag := s.flag && !clears a v }

/-- `CMP0EN` lets the flag through to the service request node, the node to the CPU. -/
def Due (l : Layout) (s : Stm) : Prop :=
  s.flag = true ∧ s.icr &&& 1 ≠ 0 ∧ s.src = STM_TICK_PRIO ||| ((1 : UInt32) <<< 23) ∧
    s.biv = l.ivt ∧
    s.ie = true

instance (l : Layout) (s : Stm) : Decidable (s.Due l) := by
  unfold Due
  infer_instance

end Stm

/-- One access, while the timer stands still. -/
def core : Env IrqSig Stm
  | s, .read a, r, s' =>
    (a = STM_ABS → r = UInt32.ofNat s.count) ∧ (a = STM_CMP0 → r = s.cmp0) ∧
      s' = if a = STM_ABS then { s with t0 := s.count } else s
  | s, .write a v, _, s' => s' = s.write a v
  | s, .mtcr id v, _, s' => s' = { s with toRegs := s.toRegs.setCore id v }
  | s, .enable, _, s' => s' = { s with ie := true }
  | s, .getInterval, r, s' => r = s.gInterval ∧ s' = s
  | s, .setInterval v, _, s' => s' = { s with gInterval := v }
  | s, .getTicks, r, s' => r = s.gTicks ∧ s' = s
  | s, .setTicks v, _, s' => s' = { s with gTicks := v }

def Ticks (s s' : Stm) : Prop := s' = s.tick

/-- The timer counts between any two accesses. -/
def stm : Env IrqSig Stm := interleave Ticks core

/-- Out of reset, with `g_ticks` cleared by the C runtime. -/
def Fresh (s : Stm) : Prop := s.icr &&& 1 = 0 ∧ s.ie = false ∧ s.gTicks = 0 ∧ s.hits = []

/-- The next interval after the last match, or after the start, is over then. -/
def Stm.deadline (s : Stm) (interval : UInt32) : Nat := s.hits.getLastD s.t0 + interval.toNat

/-- The states after set-up and between the handlers, after `k` services; `t0` is the count
at set-up. Set-up and the service of a match are done before the next interval is over. -/
inductive Reached (l : Layout) (interval : UInt32) : Nat → Stm → Nat → Prop
  | setUp {s s' : Stm} : Fresh s → Runs stm (timerTickInit l interval) s (.ok ()) s' →
      s'.count < s'.t0 + interval.toNat → Reached l interval s'.t0 s' 0
  | tick {t0 k : Nat} {s : Stm} : Reached l interval t0 s k →
      (s.flag = true → s.count + 1 < s.deadline interval) → Reached l interval t0 s.tick k
  | service {t0 k : Nat} {s s' : Stm} : Reached l interval t0 s k → s.Due l →
      Runs stm stmIsr { s with ie := false } (.ok ()) s' → s'.count < s.deadline interval →
      Reached l interval t0 { s' with ie := true } (k + 1)

/-! ## Matches -/

/-- Of the counts less than a wrap away from `m`, only `m` matches. -/
theorem compares_iff {r : Regs} (hcmcon : r.cmcon = 31) {m c : Nat} (hcmp : r.cmp0 = UInt32.ofNat m)
    (hlt : c < m + 2 ^ 32) (hgt : m < c + 2 ^ 32) : r.Compares c ↔ c = m := by
  have hbits : (r.cmcon &&& 31).toNat + 1 = 32 := by rw [hcmcon]; rfl
  rw [Regs.Compares, hbits, hcmp, UInt32.toNat_ofNat']
  omega

/-- No count from `lo` to below `hi` matches. -/
def Regs.Silent (r : Regs) (lo hi : Nat) : Prop := ∀ c, lo ≤ c → c < hi → ¬ r.Compares c

theorem Regs.silent_before {r : Regs} (hcmcon : r.cmcon = 31) {m lo : Nat}
    (hcmp : r.cmp0 = UInt32.ofNat m) (hlo : m < lo + 2 ^ 32) : r.Silent lo m := by
  intro c hc hlt
  rw [compares_iff hcmcon hcmp (by omega) (by omega)]
  omega

theorem Regs.silent_after {r : Regs} (hcmcon : r.cmcon = 31) {m hi : Nat}
    (hcmp : r.cmp0 = UInt32.ofNat m) (hhi : hi ≤ m + 2 ^ 32) : r.Silent (m + 1) hi := by
  intro c hc hlt
  rw [compares_iff hcmcon hcmp (by omega) (by omega)]
  omega

theorem Regs.Silent.from_succ {r : Regs} {lo hi : Nat} (h : r.Silent lo hi) :
    r.Silent (lo + 1) hi :=
  fun c hc => h c (Nat.le_of_succ_le hc)

namespace Stm
variable (s : Stm)

theorem latch_toRegs : s.latch.toRegs = s.toRegs := by
  rw [latch]
  split <;> rfl

theorem latch_count : s.latch.count = s.count := by
  rw [latch]
  split <;> rfl

theorem latch_silent (h : ¬ s.Compares s.count) : s.latch = s := if_neg h

/-- A match that is not let through is not recorded. -/
theorem latch_hits (h : s.icr &&& 1 = 0) : s.latch.hits = s.hits := by
  rw [latch]
  split
  · exact if_neg (not_not.mpr h)
  · rfl

end Stm

/-! ## Phases of the code -/

/-- The compare is not enabled. -/
def Off (r : Regs) (lo : Nat) (s : Stm) : Prop := s.toRegs = r ∧ lo ≤ s.count ∧ s.hits = []

/-- The flag and the matches, as long as the count is below `hi`. -/
def Until (r : Regs) (lo hi : Nat) (flag : Bool) (hits : List Nat) (s : Stm) : Prop :=
  s.toRegs = r ∧ lo ≤ s.count ∧ (s.count < hi → s.flag = flag ∧ s.hits = hits)

section
variable {r : Regs} {lo hi : Nat} {flag : Bool} {hits : List Nat} {s : Stm}

theorem Off.latch (hoff : r.icr &&& 1 = 0) (h : Off r lo s) : Off r lo s.latch := by
  obtain ⟨rfl, hlo, hhits⟩ := h
  refine ⟨s.latch_toRegs, ?_, (s.latch_hits hoff).trans hhits⟩
  rw [Stm.latch_count]
  exact hlo

theorem Off.tick (hoff : r.icr &&& 1 = 0) (h : Off r lo s) : Off r lo s.tick := by
  have hnext : Off r lo { s with count := s.count + 1 } := ⟨h.1, Nat.le_succ_of_le h.2.1, h.2.2⟩
  exact hnext.latch hoff

theorem Until.latch (hr : r.Silent lo hi) (h : Until r lo hi flag hits s) :
    Until r lo hi flag hits s.latch := by
  obtain ⟨rfl, hlo, hin⟩ := h
  refine ⟨s.latch_toRegs, ?_, ?_⟩
  · rw [Stm.latch_count]
    exact hlo
  · intro hlt
    rw [Stm.latch_count] at hlt
    rw [s.latch_silent (hr _ hlo hlt)]
    exact hin hlt

theorem Until.tick (hr : r.Silent (lo + 1) hi) (h : Until r lo hi flag hits s) :
    Until r lo hi flag hits s.tick := by
  have hnext : Until r (lo + 1) hi flag hits { s with count := s.count + 1 } :=
    ⟨h.1, Nat.succ_le_succ h.2.1, fun hlt => h.2.2 (Nat.lt_of_succ_lt hlt)⟩
  obtain ⟨hregs, hlo, hin⟩ := hnext.latch hr
  exact ⟨hregs, Nat.le_of_succ_le hlo, hin⟩

theorem Off.stable (hoff : r.icr &&& 1 = 0) : Stable Ticks (Off r lo) := by
  rintro s _ h rfl
  exact h.tick hoff

theorem Until.stable (hr : r.Silent (lo + 1) hi) : Stable Ticks (Until r lo hi flag hits) := by
  rintro s _ h rfl
  exact h.tick hr

theorem Off.write {a v : UInt32} (hoff : (r.set a v).icr &&& 1 = 0) (h : Off r lo s) :
    Off (r.set a v) lo (s.write a v) := by
  obtain ⟨rfl, hlo, hhits⟩ := h
  have hset : Off (s.toRegs.set a v) lo
      { s with toRegs := s.toRegs.set a v, flag := s.flag && !clears a v } := ⟨rfl, hlo, hhits⟩
  exact hset.latch hoff

/-- Once cleared, the flag stays so while nothing matches. -/
theorem Off.clear (hr : r.Silent lo hi) (h : Off r lo s) :
    Until r lo hi false [] (s.write STM_ISCR 1) := by
  obtain ⟨rfl, hlo, hhits⟩ := h
  have hset : Until s.toRegs lo hi false [] { s with flag := s.flag && !clears STM_ISCR 1 } :=
    ⟨rfl, hlo, fun _ => ⟨Bool.and_false _, hhits⟩⟩
  exact hset.latch hr

theorem Until.write {a v : UInt32} (hr : (r.set a v).Silent lo hi) (h : Until r lo hi flag hits s) :
    Until (r.set a v) lo hi (flag && !clears a v) hits (s.write a v) := by
  obtain ⟨rfl, hlo, hin⟩ := h
  have hset : Until (s.toRegs.set a v) lo hi (flag && !clears a v) hits
      { s with toRegs := s.toRegs.set a v, flag := s.flag && !clears a v } := by
    refine ⟨rfl, hlo, ?_⟩
    intro hlt
    obtain ⟨hflag, hhits⟩ := hin hlt
    exact ⟨congrArg (· && !clears a v) hflag, hhits⟩
  exact hset.latch hr

end

/-! ## Accesses in a phase -/

section
variable {X : Empty → Stm → Prop} {I : Stm → Prop} {s : Stm}

theorem wp_stable {o : IrqOp} {Q : IrqSig.Res o → Stm → Prop} (hI : Stable Ticks I) (hs : I s)
    (h : ∀ s, I s → ∀ r s', core s o r s' → Q r s') :
      (Prog.perform (S := IrqSig) o).wp stm Q X s := by
  intro r s' hask
  obtain ⟨s₁, hs₁, hcore⟩ := interleave_cases hI hs hask
  exact h s₁ hs₁ r s' hcore

theorem wp_store {Q : Unit → Stm → Prop} {a v : UInt32} (hI : Stable Ticks I) (hs : I s)
    (h : ∀ s, I s → Q () (s.write a v)) : (store a v).wp stm Q X s := by
  apply wp_stable hI hs
  rintro s hs _ _ rfl
  exact h s hs

theorem wp_readCmp0 {Q : UInt32 → Stm → Prop} (hI : Stable Ticks I) (hs : I s)
    (h : ∀ s, I s → Q s.cmp0 s) : (load STM_CMP0).wp stm Q X s := by
  apply wp_stable hI hs
  rintro s hs r s' ⟨-, hr, hs'⟩
  rw [if_neg (by decide)] at hs'
  rw [hr rfl, hs']
  exact h s hs

theorem wp_gInterval {Q : UInt32 → Stm → Prop} (hI : Stable Ticks I) (hs : I s)
    (h : ∀ s, I s → Q s.gInterval s) : gInterval.wp stm Q X s := by
  apply wp_stable hI hs
  rintro s hs _ _ ⟨rfl, rfl⟩
  exact h _ hs

theorem wp_gTicks {Q : UInt32 → Stm → Prop} (hI : Stable Ticks I) (hs : I s)
    (h : ∀ s, I s → Q s.gTicks s) : gTicks.wp stm Q X s := by
  apply wp_stable hI hs
  rintro s hs _ _ ⟨rfl, rfl⟩
  exact h _ hs

variable {r : Regs} {lo hi : Nat} {flag : Bool} {hits : List Nat}

theorem wp_storeUntil {Q : Unit → Stm → Prop} {a v : UInt32} (hs : Until r lo hi flag hits s)
    (hr : r.Silent (lo + 1) hi) (hr' : (r.set a v).Silent lo hi)
    (h : ∀ s, Until (r.set a v) lo hi (flag && !clears a v) hits s → Q () s) :
    (store a v).wp stm Q X s := by
  apply wp_store (Until.stable hr) hs
  intro s hs
  exact h _ (hs.write hr')

/-! Before the compare is enabled. -/

/-- An access that changes the registers only. -/
theorem wp_off {o : IrqOp} {Q : IrqSig.Res o → Stm → Prop} {f : Regs → Regs} (hs : Off r lo s)
    (hoff : r.icr &&& 1 = 0) (hf : ∀ s x s', core s o x s' → s' = { s with toRegs := f s.toRegs })
    (h : ∀ x s', Off (f r) lo s' → Q x s') : (Prog.perform (S := IrqSig) o).wp stm Q X s := by
  apply wp_stable (Off.stable hoff) hs
  intro s hs x s' hcore
  rw [hf s x s' hcore]
  exact h x _ ⟨congrArg f hs.1, hs.2⟩

theorem wp_setIntervalOff {Q : Unit → Stm → Prop} {v : UInt32} (hs : Off r lo s)
    (hoff : r.icr &&& 1 = 0) (h : ∀ s', Off { r with gInterval := v } lo s' → Q () s') :
    (setInterval v).wp stm Q X s :=
  wp_off (o := .setInterval v) (f := fun r => { r with gInterval := v }) hs hoff
    (fun _ _ _ hcore => hcore) fun _ => h

theorem wp_mtcrOff {Q : Unit → Stm → Prop} {id v : UInt32} (hs : Off r lo s)
    (hoff : r.icr &&& 1 = 0) (h : ∀ s', Off (r.setCore id v) lo s' → Q () s') :
    (mtcr id v).wp stm Q X s :=
  wp_off (o := .mtcr id v) (f := fun r => r.setCore id v) hs hoff
    (fun _ _ _ hcore => hcore) fun _ => h

theorem wp_storeOff {Q : Unit → Stm → Prop} {a v : UInt32} (hs : Off r lo s)
    (hoff : r.icr &&& 1 = 0) (hoff' : (r.set a v).icr &&& 1 = 0)
    (h : ∀ s, Off (r.set a v) lo s → Q () s) : (store a v).wp stm Q X s := by
  apply wp_store (Off.stable hoff) hs
  intro s hs
  exact h _ (hs.write hoff')

theorem wp_readAbs {Q : UInt32 → Stm → Prop} (hs : Off r lo s) (hoff : r.icr &&& 1 = 0)
    (h : ∀ s', Off { r with t0 := s'.t0 } s'.t0 s' → Q (UInt32.ofNat s'.t0) s') :
    (load STM_ABS).wp stm Q X s := by
  apply wp_stable (Off.stable hoff) hs
  rintro s hs x s' ⟨hx, -, hs'⟩
  rw [if_pos rfl] at hs'
  rw [hx rfl, hs']
  have hread : Off { r with t0 := s.count } s.count { s with t0 := s.count } :=
    ⟨congrArg (fun r => { r with t0 := s.count }) hs.1, Nat.le_refl _, hs.2.2⟩
  exact h _ hread

end

/-! ## The handler and the set-up -/

theorem ofNat_add_interval (n : Nat) (interval : UInt32) :
    UInt32.ofNat n + interval = UInt32.ofNat (n + interval.toNat) := by
  rw [UInt32.ofNat_add, UInt32.ofNat_toNat]

/-- The compare register set for the count `m`. -/
def Regs.armed (r : Regs) (m : Nat) : Regs := { r with cmp0 := UInt32.ofNat m }

theorem Regs.arm (r : Regs) (n : Nat) (interval : UInt32) :
    r.set STM_CMP0 (UInt32.ofNat n + interval) = r.armed (n + interval.toNat) := by
  rw [ofNat_add_interval]
  rfl

/-- The handler started at the match `m`, which still lasts or is less than an interval old:
it moves the compare on and counts a tick, and no match is made meanwhile. -/
theorem wp_stmIsr {X : Empty → Stm → Prop} {r : Regs} {m : Nat} {hits : List Nat} {s : Stm}
    (hcmcon : r.cmcon = 31) (hcmp : r.cmp0 = UInt32.ofNat m)
    (hs : Until r m (m + r.gInterval.toNat) true hits s) :
    stmIsr.wp stm (fun _ s' => Until { r.armed (m + r.gInterval.toNat) with gTicks := r.gTicks + 1 }
      m (m + r.gInterval.toNat) false hits s') X s := by
  have hinterval : r.gInterval.toNat < 2 ^ 32 := r.gInterval.toNat_lt
  have hbefore : r.Silent (m + 1) (m + r.gInterval.toNat) :=
    Regs.silent_after hcmcon hcmp (by omega)
  have hafter : (r.armed (m + r.gInterval.toNat)).Silent m (m + r.gInterval.toNat) :=
    Regs.silent_before (r := r.armed _) hcmcon rfl (by omega)
  rw [stmIsr, wp_bind]
  apply wp_readCmp0 (Until.stable hbefore) hs
  intro s₁ hs₁
  rw [wp_bind]
  apply wp_gInterval (Until.stable hbefore) hs₁
  intro s₂ hs₂
  have hvalue : s₁.cmp0 + s₂.gInterval = UInt32.ofNat m + r.gInterval := by
    rw [hs₁.1, hs₂.1, hcmp]
  rw [hvalue, wp_bind]
  apply wp_storeUntil hs₂ hbefore (r.arm m _ ▸ hafter)
  intro s₃ hs₃
  rw [r.arm] at hs₃
  rw [wp_bind]
  apply wp_storeUntil hs₃ hafter.from_succ (by exact hafter)
  intro s₄ hs₄
  rw [wp_bind]
  apply wp_gTicks (Until.stable (by exact hafter.from_succ)) hs₄
  intro s₅ hs₅
  apply wp_stable (Until.stable (by exact hafter.from_succ)) hs₅
  rintro s₆ hs₆ _ _ rfl
  refine ⟨?_, hs₆.2.1, hs₆.2.2⟩
  rw [hs₆.1, hs₅.1]
  rfl

/-- The registers while ticks are counted: `k` services are done. -/
def Regs.counting (l : Layout) (interval : UInt32) (t0 k : Nat) : Regs where
  cmp0 := UInt32.ofNat (t0 + (k + 1) * interval.toNat)
  cmcon := 31
  icr := 1
  src := STM_TICK_PRIO ||| ((1 : UInt32) <<< 23)
  biv := l.ivt
  isp := l.istackTop
  gInterval := interval
  gTicks := UInt32.ofNat k
  ie := true
  t0 := t0

/-- The set-up arms the compare an interval after the count it read. -/
theorem wp_timerTickInit {X : Empty → Stm → Prop} (l : Layout) (interval : UInt32) {s : Stm}
    (hs : Fresh s) :
    (timerTickInit l interval).wp stm (fun _ s' => Until (.counting l interval s'.t0 0)
      s'.t0 (s'.t0 + interval.toNat) false [] s') X s := by
  obtain ⟨hoff, hie, hticks, hhits⟩ := hs
  have hinterval : interval.toNat < 2 ^ 32 := interval.toNat_lt
  have hstart : Off s.toRegs 0 s := ⟨rfl, Nat.zero_le _, hhits⟩
  rw [timerTickInit, wp_bind]
  apply wp_setIntervalOff hstart hoff
  intro s₁ hs₁
  rw [wp_bind]
  apply wp_mtcrOff hs₁ hoff
  intro s₂ hs₂
  rw [wp_bind]
  apply wp_mtcrOff hs₂ hoff
  intro s₃ hs₃
  rw [wp_bind]
  apply wp_storeOff hs₃ hoff (by exact hoff)
  intro s₄ hs₄
  rw [wp_bind]
  apply wp_readAbs hs₄ hoff
  intro s₅ hs₅
  obtain ⟨r, hr⟩ : ∃ r : Regs, r = { s.toRegs with
    gInterval := interval, isp := l.istackTop, biv := l.ivt, cmcon := 31, t0 := s₅.t0 } := ⟨_, rfl⟩
  have hroff : r.icr &&& 1 = 0 := by rw [hr]; exact hoff
  have hread : Off r s₅.t0 s₅ := by
    rw [hr]
    exact hs₅
  have hsilent : (r.armed (s₅.t0 + interval.toNat)).Silent s₅.t0 (s₅.t0 + interval.toNat) :=
    Regs.silent_before (r := r.armed _) (by rw [hr]; rfl) rfl (by omega)
  rw [wp_bind]
  apply wp_storeOff hread hroff (by exact hroff)
  intro s₆ hs₆
  rw [r.arm] at hs₆
  rw [wp_bind]
  apply wp_store (Off.stable (r := r.armed _) hroff) hs₆
  intro s₇ hs₇
  rw [wp_bind]
  apply wp_storeUntil (hs₇.clear hsilent) hsilent.from_succ (by exact hsilent)
  intro s₈ hs₈
  rw [wp_bind]
  apply wp_storeUntil hs₈ hsilent.from_succ (by exact hsilent)
  intro s₉ hs₉
  apply wp_stable (Until.stable (by exact hsilent.from_succ)) hs₉
  rintro s' hs' _ _ rfl
  have hregs : { s'.toRegs with ie := true } = Regs.counting l interval s₅.t0 0 := by
    rw [hs'.1, hr]
    simp only [Regs.counting, Regs.armed, Nat.zero_add, Nat.one_mul]
    rw [hticks]
    rfl
  have hresult : ∀ t, t = s₅.t0 →
      Until (.counting l interval t 0) t (t + interval.toNat) false [] { s' with ie := true } := by
    rintro _ rfl
    exact ⟨hregs, hs'.2.1, hs'.2.2⟩
  have ht0 : s'.t0 = s₅.t0 := by
    rw [hs'.1, hr]
    rfl
  exact hresult s'.t0 ht0

/-! ## Runs -/

/-- The counts of the first `n` matches. -/
def hitsUpTo (interval : UInt32) (t0 n : Nat) : List Nat :=
  (List.range n).map fun j => t0 + (j + 1) * interval.toNat

theorem hitsUpTo_succ (interval : UInt32) (t0 n : Nat) :
    hitsUpTo interval t0 (n + 1) = hitsUpTo interval t0 n ++ [t0 + (n + 1) * interval.toNat] := by
  rw [hitsUpTo, List.range_succ, List.map_append]
  rfl

/-- `n` matches so far, `k` of them served. -/
structure Counting (l : Layout) (interval : UInt32) (n k : Nat) (s : Stm) : Prop where
  regs : s.toRegs = .counting l interval s.t0 k
  hits : s.hits = hitsUpTo interval s.t0 n
  lo : s.t0 + n * interval.toNat ≤ s.count
  hi : s.count < s.t0 + (n + 1) * interval.toNat
  served : n = k + s.flag.toNat

section
variable {l : Layout} {interval : UInt32} {n k : Nat} {s : Stm}

/-- When a count matches next. -/
theorem Counting.compares_iff (h : Counting l interval n k s) {c : Nat}
    (hlo : s.t0 + (k + 1) * interval.toNat < c + 2 ^ 32)
    (hhi : c < s.t0 + (k + 1) * interval.toNat + 2 ^ 32) :
    s.Compares c ↔ c = s.t0 + (k + 1) * interval.toNat := by
  apply TimerTick.compares_iff
  · rw [h.regs]
    rfl
  · rw [h.regs]
    rfl
  · exact hhi
  · exact hlo

/-- A count that does not match. -/
theorem Counting.pass (h : Counting l interval n k s)
    (hhi : s.count + 1 < s.t0 + (n + 1) * interval.toNat) : Counting l interval n k s.tick := by
  have hlo := h.lo
  have hserved := h.served
  have hinterval : interval.toNat < 2 ^ 32 := interval.toNat_lt
  have hnot : ¬ s.Compares (s.count + 1) := by
    cases hflag : s.flag with
    | false =>
      rw [hflag, Bool.toNat_false, Nat.add_zero] at hserved
      subst hserved
      rw [Nat.succ_mul] at hhi
      rw [h.compares_iff] <;> rw [Nat.succ_mul] <;> omega
    | true =>
      rw [hflag, Bool.toNat_true] at hserved
      subst hserved
      rw [Nat.succ_mul, Nat.succ_mul] at hhi
      rw [Nat.succ_mul] at hlo
      rw [h.compares_iff] <;> rw [Nat.succ_mul] <;> omega
  rw [Stm.tick, Stm.latch_silent _ hnot]
  exact ⟨h.regs, h.hits, Nat.le_succ_of_le hlo, hhi, hserved⟩

/-- A count that matches. -/
theorem Counting.hit (h : Counting l interval k k s) (hinterval : 1 ≤ interval.toNat)
    (heq : s.count + 1 = s.t0 + (k + 1) * interval.toNat) :
      Counting l interval (k + 1) k s.tick := by
  have hserved : s.flag.toNat = 0 := by
    have h' := h.served
    omega
  have hmatch : s.Compares (s.count + 1) := by
    rw [h.compares_iff] <;> omega
  have henabled : s.icr &&& 1 ≠ 0 := by
    rw [h.regs]
    exact (by decide : (1 : UInt32) &&& 1 ≠ 0)
  rw [Stm.tick, Stm.latch, if_pos hmatch]
  refine ⟨h.regs, ?_, Nat.le_of_eq heq.symm, ?_, rfl⟩
  · show (if s.icr &&& 1 ≠ 0 then s.hits ++ [s.count + 1] else s.hits) = _
    rw [if_pos henabled, h.hits, heq, hitsUpTo_succ]
  · show s.count + 1 < s.t0 + (k + 1 + 1) * interval.toNat
    rw [Nat.succ_mul (k + 1)]
    omega

theorem Counting.deadline (h : Counting l interval (k + 1) k s) :
    s.deadline interval = s.t0 + (k + 1) * interval.toNat + interval.toNat := by
  rw [Stm.deadline, h.hits, hitsUpTo_succ, List.getLastD_concat]

/-- A tick that keeps the time limit of the handler. -/
theorem Counting.tick (h : Counting l interval n k s) (hinterval : 1 ≤ interval.toNat)
    (htime : s.flag = true → s.count + 1 < s.deadline interval) :
    ∃ n', Counting l interval n' k s.tick := by
  have hserved := h.served
  cases hflag : s.flag with
  | false =>
    rw [hflag, Bool.toNat_false, Nat.add_zero] at hserved
    subst hserved
    have hhi := h.hi
    by_cases heq : s.count + 1 = s.t0 + (n + 1) * interval.toNat
    · exact ⟨n + 1, h.hit hinterval heq⟩
    · exact ⟨n, h.pass (by omega)⟩
  | true =>
    rw [hflag, Bool.toNat_true] at hserved
    subst hserved
    have hlt := htime hflag
    rw [h.deadline, Nat.add_assoc, ← Nat.succ_mul] at hlt
    exact ⟨k + 1, h.pass hlt⟩

/-- A service that keeps the time limit. -/
theorem Counting.serviced {s' : Stm} (h : Counting l interval n k s) (hdue : s.Due l)
    (hrun : Runs stm stmIsr { s with ie := false } (.ok ()) s')
    (htime : s'.count < s.deadline interval) :
    Counting l interval (k + 1) (k + 1) { s' with ie := true } ∧ s'.t0 = s.t0 := by
  have hserved := h.served
  rw [hdue.1, Bool.toNat_true] at hserved
  subst hserved
  have hregs : { s.toRegs with ie := false } =
      { Regs.counting l interval s.t0 k with ie := false } := by
    rw [h.regs]
    rfl
  have hhi := h.hi
  rw [Nat.succ_mul] at hhi
  rw [h.deadline] at htime
  have hstart : Until { Regs.counting l interval s.t0 k with ie := false }
      (s.t0 + (k + 1) * interval.toNat) (s.t0 + (k + 1) * interval.toNat + interval.toNat) true
      (hitsUpTo interval s.t0 (k + 1)) { s with ie := false } :=
    ⟨hregs, h.lo, fun _ => ⟨hdue.1, h.hits⟩⟩
  obtain ⟨hregs', hlo', hquiet⟩ :=
    (hrun.sound _ (wp_stmIsr (X := fun _ _ => False) rfl rfl hstart)).1 () rfl
  obtain ⟨hflag', hhits'⟩ := hquiet htime
  have ht0 : s'.t0 = s.t0 := by rw [hregs']; rfl
  have hnext : { s'.toRegs with ie := true } = Regs.counting l interval s.t0 (k + 1) := by
    rw [hregs']
    simp only [Regs.counting, Regs.armed, Nat.succ_mul (k + 1), Nat.add_assoc]
    rw [UInt32.ofNat_add k 1]
    rfl
  rw [Nat.add_assoc, ← Nat.succ_mul] at htime
  rw [← ht0] at hnext hhits' hlo' htime
  exact ⟨⟨hnext, hhits', hlo', htime, by rw [hflag']; rfl⟩, ht0⟩

end

theorem Stm.tick_t0 (s : Stm) : s.tick.t0 = s.t0 := congrArg Regs.t0 (latch_toRegs _)

/-- Every reached state counts. -/
theorem Reached.counting {l : Layout} {interval : UInt32} (hinterval : 1 ≤ interval.toNat) {s : Stm}
    {t0 k : Nat} (h : Reached l interval t0 s k) : s.t0 = t0 ∧ ∃ n, Counting l interval n k s := by
  induction h with
  | @setUp s s' hfresh hrun htime =>
    obtain ⟨hregs, hlo, hquiet⟩ :=
      (hrun.sound _ (wp_timerTickInit (X := fun _ _ => False) l interval hfresh)).1 () rfl
    obtain ⟨hflag, hhits⟩ := hquiet htime
    refine ⟨rfl, 0, hregs, hhits, ?_, ?_, ?_⟩
    · rw [Nat.zero_mul]
      exact hlo
    · rw [Nat.zero_add, Nat.one_mul]
      exact htime
    · rw [hflag]
      rfl
  | @tick t0 k s _ htime ih =>
    obtain ⟨ht0, n, hn⟩ := ih
    exact ⟨s.tick_t0.trans ht0, hn.tick hinterval htime⟩
  | service _ hdue hrun htime ih =>
    obtain ⟨ht0, n, hn⟩ := ih
    obtain ⟨hnext, ht0'⟩ := hn.serviced hdue hrun htime
    exact ⟨ht0'.trans ht0, _, hnext⟩

/-- After `k` services since the count was `t0`: where the compare stands, which counts
matched, and what `g_ticks` is. -/
structure Exact (interval : UInt32) (t0 k : Nat) (s : Stm) : Prop where
  compare : s.cmp0.toNat = (t0 + (k + 1) * interval.toNat) % 2 ^ 32
  hits : s.hits = hitsUpTo interval t0 ((s.count - t0) / interval.toNat)
  served : (s.count - t0) / interval.toNat = k + s.flag.toNat
  ticks : s.flag = false → s.gTicks.toNat = (s.count - t0) / interval.toNat % 2 ^ 32

/-- No tick is lost or counted twice, however often the compare wraps. -/
theorem ticks_exact (l : Layout) (interval : UInt32) (hinterval : 1 ≤ interval.toNat) (t0 k : Nat)
    (s : Stm) (h : Reached l interval t0 s k) : Exact interval t0 k s := by
  obtain ⟨rfl, n, hregs, hhits, hlo, hhi, hserved⟩ := h.counting hinterval
  have hdiv : (s.count - s.t0) / interval.toNat = n := by
    apply Nat.div_eq_of_lt_le
    · omega
    · omega
  constructor
  · rw [hregs, Regs.counting, UInt32.toNat_ofNat']
  · rw [hdiv]
    exact hhits
  · rw [hdiv]
    exact hserved
  · intro hflag
    rw [hdiv, hregs, Regs.counting, UInt32.toNat_ofNat', hserved, hflag]
    rfl

/-- The timer standing still. -/
def Stm.still (s : Stm) : (o : IrqOp) → IrqSig.Res o × Stm
  | .read a => (if a = STM_ABS then UInt32.ofNat s.count else s.cmp0,
      if a = STM_ABS then { s with t0 := s.count } else s)
  | .write a v => ((), s.write a v)
  | .mtcr id v => ((), { s with toRegs := s.toRegs.setCore id v })
  | .enable => ((), { s with ie := true })
  | .getInterval => (s.gInterval, s)
  | .setInterval v => ((), { s with gInterval := v })
  | .getTicks => (s.gTicks, s)
  | .setTicks v => ((), { s with gTicks := v })

theorem still_stm (s : Stm) (o : IrqOp) : stm s o (s.still o).1 (s.still o).2 := by
  refine ⟨s, .refl, ?_⟩
  cases o with
  | read a =>
    refine ⟨fun h => if_pos h, ?_, rfl⟩
    rintro rfl
    rfl
  | getInterval => exact ⟨rfl, rfl⟩
  | getTicks => exact ⟨rfl, rfl⟩
  | write a v => exact rfl
  | mtcr id v => exact rfl
  | enable => exact rfl
  | setInterval v => exact rfl
  | setTicks v => exact rfl

/-- A timer at rest, and after a set-up with an interval of two. -/
def resting : Stm := ⟨⟨0, 0, 0, 0, 0, 0, 0, 0, false, 0⟩, 0, false, []⟩
def first : Stm := ((timerTickInit ⟨0, 0⟩ 2).exec Stm.still resting).2

/-- The first match is served. -/
theorem ticks_exact_first : ∃ s, Reached ⟨0, 0⟩ 2 0 s 1 ∧ Exact 2 0 1 s := by
  have hinit := runs_exec stm Stm.still still_stm (timerTickInit ⟨0, 0⟩ 2) resting
  have hisr := runs_exec stm Stm.still still_stm stmIsr { first.tick.tick with ie := false }
  have hstart : Reached ⟨0, 0⟩ 2 0 first 0 := .setUp ⟨rfl, rfl, rfl, rfl⟩ hinit (by decide)
  have hmatch : Reached ⟨0, 0⟩ 2 0 first.tick.tick 0 :=
    (hstart.tick (by decide)).tick (by decide)
  have hserved := hmatch.service (by decide) hisr (by decide)
  exact ⟨_, hserved, ticks_exact _ 2 (by decide) 0 1 _ hserved⟩

end OpenTricore.TimerTick
