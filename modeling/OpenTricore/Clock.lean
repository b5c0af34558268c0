import OpenTricore.DataFlash
import OpenTricore.Lib.Settings

/-! The clock tree, `bsp/tc4d7/clock.c`. The registers are protected: a write counts only
while `PROTE` is in the config state, and each routine steps into that state and back.
What a routine sets is a group of bits of its own peripheral. -/

namespace OpenTricore.Clock
open Lib Lib.Prog
open DataFlash (MmioOp MmioSig Mmio load store bit RUN CONFIG poll wp_load wp_store wp_poll_kept)

/-! ## The code -/

def PROTE : UInt32 := 0xF0064020
def OSCCON : UInt32 := 0xF0064100
def PERPLLCON0 : UInt32 := 0xF0064380
def PERPLLCON1 : UInt32 := 0xF0064384
def PERPLLSTAT : UInt32 := 0xF006438C
def CCUCON : UInt32 := 0xF0064400
def CCUSTAT : UInt32 := 0xF0064404
def PERCCUCON0 : UInt32 := 0xF0064420
def PERCCUCON1 : UInt32 := 0xF0064424
def SYSCCUCON1 : UInt32 := 0xF0064414

def protUnlock : Mmio Unit := do
  store PROTE (bit 31 ||| bit 30)   -- define owner
  store PROTE (bit 3 ||| 4)
  store PROTE (bit 3 ||| 1)

/-- `R(PROTE) = (1u << 3) | 4u`, also at the end of each routine. -/
def protRelock : Mmio Unit := store PROTE (bit 3 ||| 4)

/-- `R(PROTE) = (1u << 3) | 1u`. -/
def protConfig : Mmio Unit := store PROTE (bit 3 ||| 1)

def waitLck : Mmio Unit := do let _ ← poll CCUSTAT (· &&& bit 31 == 0) 2000000

def clockInitPll : Mmio Int := do
  protUnlock
  waitLck
  store OSCCON ((← load OSCCON) &&& ~~~((3 : UInt32) <<< 24))
  waitLck
  store PERPLLCON1 0x0010A010
  waitLck
  store PERPLLCON1 ((← load PERPLLCON1) ||| 0x00010101)
  waitLck
  store PERPLLCON0 (((3 : UInt32) <<< 8) ||| 1)
  waitLck
  let _ ← poll PERPLLSTAT (· &&& 1 != 0) 3000000   -- PWRSTAT
  let lock ← poll PERPLLSTAT (· &&& 2 != 0) 8000000   -- PLLLOCK
  store CCUCON ((← load CCUCON) &&& ~~~(bit 16))
  waitLck
  protRelock
  return if lock then 0 else 1

def clockEnableCan (divsel : UInt32) : Mmio Unit := do
  protConfig
  waitLck
  store PERCCUCON0 (((← load PERCCUCON0) &&& ~~~0x3F) ||| bit 4 ||| (divsel &&& 0xF))
  waitLck
  let vc ← load SYSCCUCON1
  store SYSCCUCON1 ((vc &&& ~~~((0xF : UInt32) <<< 16)) ||| bit 16 ||| bit 30)
  waitLck
  protRelock

def clockEnableEgtm : Mmio Unit := do
  protConfig
  waitLck
  let v ← load SYSCCUCON1
  store SYSCCUCON1 ((v &&& ~~~((0xF : UInt32) <<< 12)) ||| bit 12 ||| bit 30)
  waitLck
  protRelock

def clockEnableAdc : Mmio Unit := do
  protConfig
  waitLck
  store PERCCUCON1 ((← load PERCCUCON1) ||| bit 16)
  waitLck
  protRelock

def clockEnableI2c (divsel : UInt32) : Mmio Unit := do
  protConfig
  waitLck
  let p1 ← load PERPLLCON1
  store PERPLLCON1 ((p1 &&& ~~~((0x7 : UInt32) <<< 8) &&& ~~~((0xF : UInt32) <<< 12)) |||
    bit 8 ||| bit 12)
  waitLck
  store PERCCUCON0 (((← load PERCCUCON0) &&& ~~~((0xF : UInt32) <<< 24)) |||
    ((divsel &&& 0xF) <<< 24))
  waitLck
  protRelock

def clockQspiSelectPll (divsel : UInt32) : Mmio Unit := do
  protConfig
  waitLck
  store PERCCUCON0 (((← load PERCCUCON0) &&& ~~~((0xF : UInt32) <<< 16) &&&
    ~~~((3 : UInt32) <<< 20)) |||
    ((divsel &&& 0xF) <<< 16) ||| bit 20)
  waitLck
  protRelock

/-! ## The registers -/

/-- `reg` are the registers but `PROTE`, of which `state` and `owner` are its `STATE` and
`ODEF` fields. `outside` is ours: the protected registers that were written while
`PROTE` was not in the config state. -/
structure Ccu where
  reg : UInt32 → UInt32
  state : UInt32
  owner : Bool
  outside : List UInt32

/-- The registers under access protection. -/
def Protected (a : UInt32) : Prop :=
  a ∈ [OSCCON, PERPLLCON0, PERPLLCON1, CCUCON, PERCCUCON0, PERCCUCON1, SYSCCUCON1]

instance (a : UInt32) : Decidable (Protected a) := by
  unfold Protected
  infer_instance

namespace Ccu

/-- `SWEN` enables the write of `STATE`, `OWEN` that of `ODEF`. -/
def writeProte (s : Ccu) (v : UInt32) : Ccu :=
  { s with
    state := if v &&& bit 3 ≠ 0 then v &&& 7 else s.state
    owner := if v &&& bit 31 ≠ 0 then v &&& bit 30 ≠ 0 else s.owner }

def writeReg (s : Ccu) (a v : UInt32) : Ccu :=
  { s with reg := fun x => if x = a then v else s.reg x }

/-- Without an owner nothing is protected yet. -/
def write (s : Ccu) (a v : UInt32) : Ccu :=
  if a = PROTE then s.writeProte v
  else if Protected a ∧ s.state ≠ CONFIG then
    let s := { s with outside := s.outside ++ [a] }
    if s.owner then s else s.writeReg a v
  else s.writeReg a v

end Ccu

/-- The status registers read anything. -/
def ccu : Env MmioSig Ccu
  | s, .read a, r, s' => s' = s ∧ (a = CCUSTAT ∨ a = PERPLLSTAT ∨ r = s.reg a)
  | s, .write a v, _, s' => s' = s.write a v

theorem ccu_answers (s : Ccu) (o : MmioOp) : ∃ r s', ccu s o r s' := by
  cases o with
  | read a => exact ⟨s.reg a, s, rfl, .inr (.inr rfl)⟩
  | write a v => exact ⟨(), _, rfl⟩

section
variable {X : Empty → Ccu → Prop} (s : Ccu)

theorem wp_write {Q : Unit → Ccu → Prop} (a v : UInt32) :
    (store a v).wp ccu Q X s ↔ Q () (s.write a v) := by
  rw [wp_store]
  constructor
  · exact fun h => h () _ rfl
  · rintro h _ _ rfl
    exact h

theorem wp_read {Q : UInt32 → Ccu → Prop} {a : UInt32} (h : a ≠ CCUSTAT ∧ a ≠ PERPLLSTAT) :
    (load a).wp ccu Q X s ↔ Q (s.reg a) s := by
  rw [wp_load]
  constructor
  · exact fun hQ => hQ _ _ ⟨rfl, .inr (.inr rfl)⟩
  · rintro hQ r s' ⟨rfl, ha | ha | hr⟩
    · exact absurd ha h.1
    · exact absurd ha h.2
    · rw [hr]
      exact hQ

/-- Polling changes nothing, whatever is read. -/
theorem wp_poll {Q : Bool → Ccu → Prop} (a : UInt32) (done : UInt32 → Bool) (n : Nat)
    (h : ∀ b, Q b s) : (poll a done n).wp ccu Q X s := by
  apply wp_poll_kept ccu (I := (· = s)) ?_ ?_ n rfl
  · rintro _ _ _ rfl ⟨rfl, -⟩
    rfl
  · rintro b _ rfl
    exact h b

theorem wp_waitLck {Q : Unit → Ccu → Prop} (h : Q () s) : waitLck.wp ccu Q X s := by
  rw [waitLck, wp_bind]
  exact wp_poll s _ _ _ fun _ => h

end

/-! ## What a routine sets -/

/-- A call of one of the routines. -/
inductive Enable
  | can (divsel : UInt32)
  | egtm
  | adc
  | i2c (divsel : UInt32)
  | qspi (divsel : UInt32)

inductive Peripheral
  | can
  | egtm
  | adc
  | i2c
  | qspi
  deriving DecidableEq

def Enable.peripheral : Enable → Peripheral
  | .can _ => .can
  | .egtm => .egtm
  | .adc => .adc
  | .i2c _ => .i2c
  | .qspi _ => .qspi

def Enable.code : Enable → Mmio Unit
  | .can divsel => clockEnableCan divsel
  | .egtm => clockEnableEgtm
  | .adc => clockEnableAdc
  | .i2c divsel => clockEnableI2c divsel
  | .qspi divsel => clockQspiSelectPll divsel

/-- The fields of each peripheral, and the `UP` bit of `SYSCCUCON1`. -/
def Peripheral.fields : Peripheral → UInt32 → UInt32
  | .can, a =>
    if a = PERCCUCON0 then 0x3F   -- CLKSELMCAN, MCANDIV
    else if a = SYSCCUCON1 then ((0xF : UInt32) <<< 16) ||| bit 30   -- MCANHDIV, UP
    else 0
  | .egtm, a => if a = SYSCCUCON1 then ((0xF : UInt32) <<< 12) ||| bit 30 else 0   -- EGTMDIV, UP
  | .adc, a => if a = PERCCUCON1 then bit 16 else 0   -- ADCPERON
  | .i2c, a =>
    if a = PERPLLCON1 then ((0x7 : UInt32) <<< 8) ||| ((0xF : UInt32) <<< 12)   -- K3DIV, K3PREDIV
    else if a = PERCCUCON0 then (0xF : UInt32) <<< 24   -- I2CDIV
    else 0
  | .qspi, a =>   -- QSPIDIV, CLKSELQSPI
    if a = PERCCUCON0 then ((0xF : UInt32) <<< 16) ||| ((3 : UInt32) <<< 20)
    else 0

/-- What they are set to. -/
def Enable.value : Enable → UInt32 → UInt32
  | .can divsel, a =>
    if a = PERCCUCON0 then bit 4 ||| (divsel &&& 0xF)
    else if a = SYSCCUCON1 then bit 16 ||| bit 30
    else 0
  | .egtm, a => if a = SYSCCUCON1 then bit 12 ||| bit 30 else 0
  | .adc, a => if a = PERCCUCON1 then bit 16 else 0
  | .i2c divsel, a =>
    if a = PERPLLCON1 then bit 8 ||| bit 12
    else if a = PERCCUCON0 then (divsel &&& 0xF) <<< 24
    else 0
  | .qspi divsel, a => if a = PERCCUCON0 then ((divsel &&& 0xF) <<< 16) ||| bit 20 else 0

theorem Enable.value_fits (c : Enable) (a : UInt32) :
    c.value a &&& c.peripheral.fields a = c.value a := by
  cases c with
  | can divsel =>
    simp only [value, peripheral, Peripheral.fields]
    split
    · exact or_within (by decide) (and_within (by decide))
    · split <;> decide
  | egtm =>
    simp only [value, peripheral, Peripheral.fields]
    split <;> decide
  | adc =>
    simp only [value, peripheral, Peripheral.fields]
    split <;> decide
  | i2c divsel =>
    simp only [value, peripheral, Peripheral.fields]
    split
    · decide
    · split
      · rw [UInt32.shiftLeft_and]
        exact and_within (by decide)
      · rfl
  | qspi divsel =>
    simp only [value, peripheral, Peripheral.fields]
    split
    · rw [UInt32.shiftLeft_and]
      exact or_within (and_within (by decide)) (by decide)
    · rfl

def Enable.setting (c : Enable) (a : UInt32) : Setting :=
  ⟨c.peripheral.fields a, c.value a, c.value_fits a⟩

/-- The registers after a call. -/
def Enable.set (reg : UInt32 → UInt32) (c : Enable) : UInt32 → UInt32 :=
  fun a => (c.setting a).apply (reg a)

/-! ## What a routine does -/

/-- A write that enables `STATE` and not `ODEF`. -/
theorem write_state (s : Ccu) {v : UInt32} (hswen : v &&& bit 3 ≠ 0) (howen : v &&& bit 31 = 0) :
    s.write PROTE v = { s with state := v &&& 7 } := by
  rw [Ccu.write, if_pos rfl, Ccu.writeProte, if_pos hswen, if_neg (not_not.mpr howen)]

theorem write_config (s : Ccu) : s.write PROTE (bit 3 ||| 1) = { s with state := CONFIG } :=
  write_state s (by decide) (by decide)

theorem write_run (s : Ccu) : s.write PROTE (bit 3 ||| 4) = { s with state := RUN } :=
  write_state s (by decide) (by decide)

/-- A write in the config state. -/
theorem write_allowed {s : Ccu} (hs : s.state = CONFIG) {a : UInt32} (ha : a ≠ PROTE) (v : UInt32) :
    s.write a v = s.writeReg a v := by
  rw [Ccu.write, if_neg ha, if_neg (fun h => h.2 hs)]

section
variable {X : Empty → Ccu → Prop} (s : Ccu)

theorem wp_protConfig {Q : Unit → Ccu → Prop} (h : Q () { s with state := CONFIG }) :
    protConfig.wp ccu Q X s := by
  rw [protConfig, wp_write, write_config]
  exact h

theorem wp_protRelock {Q : Unit → Ccu → Prop} (h : Q () { s with state := RUN }) :
    protRelock.wp ccu Q X s := by
  rw [protRelock, wp_write, write_run]
  exact h

end

/-- A register without fields of the peripheral. -/
theorem Enable.set_other {c : Enable} {a : UInt32} (h : c.peripheral.fields a = 0)
    (reg : UInt32 → UInt32) :
    c.set reg a = reg a :=
  (c.setting a).apply_of_no_mask h (reg a)

/-- The registers as they are after one write, or after two. -/
theorem Enable.set_one {c : Enable} {a v : UInt32} {reg : UInt32 → UInt32} (ha : v = c.set reg a)
    (hother : ∀ x, x ≠ a → c.peripheral.fields x = 0) :
      (fun x => if x = a then v else reg x) = c.set reg := by
  funext x
  split
  · rename_i hx
    rw [ha, hx]
  · rename_i hx
    rw [set_other (hother x hx)]

theorem Enable.set_two {c : Enable} {a v a' v' : UInt32} {reg : UInt32 → UInt32}
    (ha : v = c.set reg a) (ha' : v' = c.set reg a')
    (hother : ∀ x, x ≠ a → x ≠ a' → c.peripheral.fields x = 0) :
    (fun x => if x = a' then v' else if x = a then v else reg x) = c.set reg := by
  funext x
  split
  · rename_i hx
    rw [ha', hx]
  · rename_i hx'
    split
    · rename_i hx
      rw [ha, hx]
    · rename_i hx
      rw [set_other (hother x hx hx')]

/-- The registers are only written between these two. -/
theorem wp_opened {Q : Unit → Ccu → Prop} {X : Empty → Ccu → Prop} {s : Ccu} {p : Mmio Unit}
    (h : p.wp ccu Q X { s with state := CONFIG }) :
    (do protConfig; waitLck; p : Mmio Unit).wp ccu Q X s := by
  rw [wp_bind]
  apply wp_protConfig
  rw [wp_bind]
  exact wp_waitLck _ h

/-- A register is read, written and waited for. -/
theorem wp_update {α : Type} {Q : α → Ccu → Prop} {X : Empty → Ccu → Prop} {s : Ccu} {p : Mmio α}
    {a : UInt32} {f : UInt32 → UInt32} (hs : s.state = CONFIG) (ha : a ≠ PROTE)
    (hstatus : a ≠ CCUSTAT ∧ a ≠ PERPLLSTAT) (h : p.wp ccu Q X (s.writeReg a (f (s.reg a)))) :
    (do let v ← load a; store a (f v); waitLck; p : Mmio α).wp ccu Q X s := by
  rw [wp_bind, wp_read s hstatus, wp_bind, wp_write, write_allowed hs ha, wp_bind]
  exact wp_waitLck _ h

/-- Back in the run state. -/
theorem relocked {s : Ccu} (hs : s.state = RUN) {reg reg' : UInt32 → UInt32} (h : reg' = reg) :
    { s with reg := reg', state := RUN } = { s with reg := reg } := by
  rw [h, ← hs]

/-- The call keeps `PROTE` and sets its fields. -/
theorem Enable.code_sets (c : Enable) (s : Ccu) (hs : s.state = RUN) :
    c.code.wp ccu (fun _ s' => s' = { s with reg := c.set s.reg }) (fun _ _ => False) s := by
  cases c with
  | can divsel =>
    apply wp_opened
    apply wp_update rfl (by decide) (by decide)
    apply wp_update rfl (by decide) (by decide)
    apply wp_protRelock
    apply relocked hs
    apply set_two (c := .can divsel)
    · exact UInt32.or_assoc ..
    · show (s.reg SYSCCUCON1 &&& ~~~((0xF : UInt32) <<< 16)) ||| bit 16 ||| bit 30 = _
      exact Setting.and_not_or_or ..
    · intro x h0 h1
      rw [peripheral, Peripheral.fields, if_neg h0, if_neg h1]
  | egtm =>
    apply wp_opened
    apply wp_update rfl (by decide) (by decide)
    apply wp_protRelock
    apply relocked hs
    apply set_one (c := .egtm)
    · exact Setting.and_not_or_or ..
    · intro x hx
      rw [peripheral, Peripheral.fields, if_neg hx]
  | adc =>
    apply wp_opened
    apply wp_update rfl (by decide) (by decide)
    apply wp_protRelock
    apply relocked hs
    apply set_one (c := .adc)
    · exact ((setting .adc PERCCUCON1).apply_ones rfl _).symm
    · intro x hx
      rw [peripheral, Peripheral.fields, if_neg hx]
  | i2c divsel =>
    apply wp_opened
    apply wp_update rfl (by decide) (by decide)
    apply wp_update rfl (by decide) (by decide)
    apply wp_protRelock
    apply relocked hs
    apply set_two (c := .i2c divsel)
    · rw [← Setting.and_not_or]
      exact UInt32.or_assoc ..
    · rfl
    · intro x h0 h1
      rw [peripheral, Peripheral.fields, if_neg h0, if_neg h1]
  | qspi divsel =>
    apply wp_opened
    apply wp_update rfl (by decide) (by decide)
    apply wp_protRelock
    apply relocked hs
    apply set_one (c := .qspi divsel)
    · rw [← Setting.and_not_or]
      exact UInt32.or_assoc ..
    · intro x hx
      rw [peripheral, Peripheral.fields, if_neg hx]

/-! ## Sequences of calls -/

/-- The calls, one after the other. -/
def enableAll : List Enable → Mmio Unit
  | [] => return ()
  | c :: cs => do c.code; enableAll cs

theorem enableAll_sets (cs : List Enable) (s : Ccu) (hs : s.state = RUN) :
    (enableAll cs).wp ccu (fun _ s' => s' = { s with reg := cs.foldl Enable.set s.reg })
      (fun _ _ => False) s := by
  induction cs generalizing s with
  | nil => rfl
  | cons c cs ih =>
    rw [enableAll, wp_bind]
    apply wp_mono _ ?_ (fun _ _ h => h) (c.code_sets s hs)
    rintro _ _ rfl
    exact ih { s with reg := c.set s.reg } hs

/-- Two peripherals share no bit but `UP`. -/
theorem fields_disjoint {p q : Peripheral} (hne : p ≠ q) {a : UInt32} (ha : a ≠ SYSCCUCON1) :
    p.fields a &&& q.fields a = 0 := by
  by_cases h0 : a = PERCCUCON0
  · subst h0
    cases p <;> cases q <;> first | contradiction | decide
  · by_cases h1 : a = PERCCUCON1
    · subst h1
      cases p <;> cases q <;> first | contradiction | decide
    · by_cases h2 : a = PERPLLCON1
      · subst h2
        cases p <;> cases q <;> first | contradiction | decide
      · cases p <;> simp [Peripheral.fields, ha, h0, h1, h2]

/-- What a peripheral sets in `SYSCCUCON1`. -/
def Peripheral.system : Peripheral → UInt32
  | .can => bit 16 ||| bit 30
  | .egtm => bit 12 ||| bit 30
  | .adc | .i2c | .qspi => 0

theorem Enable.value_system (c : Enable) : c.value SYSCCUCON1 = c.peripheral.system := by
  cases c with
  | can divsel => rw [value, if_neg (by decide), if_pos rfl]; rfl
  | egtm => rfl
  | adc => rfl
  | i2c divsel => rw [value, if_neg (by decide), if_neg (by decide)]; rfl
  | qspi divsel => rw [value, if_neg (by decide)]; rfl

theorem system_agree {p q : Peripheral} (hne : p ≠ q) :
    p.system &&& q.fields SYSCCUCON1 = q.system &&& p.fields SYSCCUCON1 := by
  cases p <;> cases q <;> first | contradiction | decide

/-- Where the fields of two calls overlap, they ask for the same. -/
theorem values_agree {c d : Enable} (hne : c.peripheral ≠ d.peripheral) (a : UInt32) :
    c.value a &&& d.peripheral.fields a = d.value a &&& c.peripheral.fields a := by
  by_cases ha : a = SYSCCUCON1
  · rw [ha, c.value_system, d.value_system]
    exact system_agree hne
  · rw [← c.value_fits a, ← d.value_fits a, UInt32.and_assoc, UInt32.and_assoc,
      fields_disjoint hne ha, fields_disjoint hne.symm ha, UInt32.and_zero, UInt32.and_zero]

theorem independent : Independent Enable.peripheral Enable.set where
  comm := by
    intro c d reg hne
    funext a
    exact (c.setting a).apply_comm (d.setting a) (values_agree hne a) (reg a)
  last := by
    intro c d reg heq
    funext a
    exact (c.setting a).apply_last (d.setting a) (congrArg (·.fields a) heq) (reg a)

/-- `clock_init_pll` leaves `PROTE` in the run state. -/
theorem clockInitPll_locks (s : Ccu) :
    clockInitPll.wp ccu (fun _ s' => s'.state = RUN ∧ s'.owner = true) (fun _ _ => False) s := by
  have howner : s.write PROTE (bit 31 ||| bit 30) = { s with owner := true } := by
    rw [Ccu.write, if_pos rfl, Ccu.writeProte, if_neg (not_not.mpr (by decide)), if_pos (by decide)]
    rfl
  rw [clockInitPll, protUnlock, wp_bind, wp_bind, wp_write, howner, wp_bind, wp_write, write_run,
    wp_write, write_config, wp_bind]
  apply wp_waitLck
  apply wp_update rfl (by decide) (by decide)
  rw [wp_bind, wp_write, write_allowed rfl (by decide), wp_bind]
  apply wp_waitLck
  apply wp_update rfl (by decide) (by decide)
  rw [wp_bind, wp_write, write_allowed rfl (by decide), wp_bind]
  apply wp_waitLck
  rw [wp_bind]
  apply wp_poll
  intro _
  rw [wp_bind]
  apply wp_poll
  intro _
  apply wp_update rfl (by decide) (by decide)
  rw [wp_bind]
  apply wp_protRelock
  exact ⟨rfl, rfl⟩

/-- The clock registers hold anything, and `PROTE` is as `clock_init_pll` leaves it. -/
def Initialised (s : Ccu) : Prop :=
  ∃ s₀ rc s₁, Runs ccu clockInitPll s₀ (.ok rc) s₁ ∧ s.state = s₁.state ∧ s.owner = s₁.owner

theorem Initialised.run {s : Ccu} (h : Initialised s) : s.state = RUN := by
  obtain ⟨s₀, rc, s₁, hrun, hstate, -⟩ := h
  rw [hstate]
  exact ((hrun.sound _ (clockInitPll_locks s₀)).1 rc rfl).1

/-- A sequence of calls ends with the fields of each set. -/
theorem enableAll_runs {cs : List Enable} {s s' : Ccu} {x : Except Empty Unit} (hs : s.state = RUN)
    (h : Runs ccu (enableAll cs) s x s') :
    x = .ok () ∧ s' = { s with reg := cs.foldl Enable.set s.reg } := by
  obtain ⟨hok, -⟩ := h.sound _ (enableAll_sets cs s hs)
  cases x with
  | error e => exact e.elim
  | ok _ => exact ⟨rfl, hok () rfl⟩

/-- What the routines promise each other, from `s` on. `locked` is about all sequences of
calls, so it holds after each call. -/
structure EnablesIndependent (s : Ccu) : Prop where
  locked : ∀ cs x s', Runs ccu (enableAll cs) s x s' →
    x = .ok () ∧ s'.state = RUN ∧ s'.outside = s.outside
  last : ∀ cs cs' s₁ s₂,
    (∀ p, lastOf Enable.peripheral p cs = lastOf Enable.peripheral p cs') →
    Runs ccu (enableAll cs) s (.ok ()) s₁ → Runs ccu (enableAll cs') s (.ok ()) s₂ → s₁ = s₂
  commute : ∀ before (c d : Enable) after s₁ s₂, c.peripheral ≠ d.peripheral →
    Runs ccu (enableAll (before ++ c :: d :: after)) s (.ok ()) s₁ →
    Runs ccu (enableAll (before ++ d :: c :: after)) s (.ok ()) s₂ → s₁ = s₂
  own : ∀ before (c : Enable) s₁ s₂, Runs ccu (enableAll before) s (.ok ()) s₁ →
    Runs ccu c.code s₁ (.ok ()) s₂ → ∀ a,
      s₂.reg a &&& ~~~(c.peripheral.fields a) = s₁.reg a &&& ~~~(c.peripheral.fields a)

/-- The calls keep the lock protocol, only the last for each peripheral counts, calls for
different peripherals commute, and each changes its own fields only. -/
theorem clock_enables_independent (s : Ccu) (hs : Initialised s) : EnablesIndependent s := by
  have hstate := hs.run
  constructor
  · intro cs x s' h
    obtain ⟨hx, rfl⟩ := enableAll_runs hstate h
    exact ⟨hx, hstate, rfl⟩
  · intro cs cs' s₁ s₂ hlast h₁ h₂
    rw [(enableAll_runs hstate h₁).2, (enableAll_runs hstate h₂).2, independent.foldl_eq hlast]
  · intro before c d after s₁ s₂ hne h₁ h₂
    rw [(enableAll_runs hstate h₁).2, (enableAll_runs hstate h₂).2, List.foldl_append,
      List.foldl_append, List.foldl_cons, List.foldl_cons, List.foldl_cons, List.foldl_cons,
      independent.comm c d _ hne]
  · intro before c s₁ s₂ h₁ h₂ a
    obtain ⟨-, rfl⟩ := enableAll_runs hstate h₁
    rw [(h₂.sound _ (c.code_sets _ hstate)).1 () rfl]
    exact (c.setting a).apply_outside _

/-- After `clock_init_pll` on registers that were zero. -/
theorem clock_enables_independent_zero : ∃ s, Initialised s ∧ EnablesIndependent s := by
  obtain ⟨rc, s, hrun, -, -⟩ := (asks_anything clockInitPll).can (fun s o _ => ccu_answers s o)
    (clockInitPll_locks ⟨fun _ => 0, 0, false, []⟩)
  have hs : Initialised s := ⟨_, rc, s, hrun, rfl, rfl⟩
  exact ⟨s, hs, clock_enables_independent s hs⟩

end OpenTricore.Clock
