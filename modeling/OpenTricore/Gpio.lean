import OpenTricore.DataFlash
import OpenTricore.Lib.Crowd
import OpenTricore.Lib.Settings

/-! The port API, `bsp/tc4d7/gpio.c`, called by any number of parties at once: cores,
interrupt handlers, a host over the debugger. An output pin is driven through the
atomic OMR, so parties with pins of their own do not disturb each other, although the
pins share the registers of a port. -/

namespace OpenTricore.Gpio
open Lib Lib.Prog Lib.Setting Relation
open DataFlash (MmioOp MmioSig Mmio load store)

/-! ## The code -/

def P_OUT (p : UInt32) : UInt32 := p + 0x20
def P_IN (p : UInt32) : UInt32 := p + 0x24
def P_OMR (p : UInt32) : UInt32 := p + 0x3C
def P_DRVCFG (p n : UInt32) : UInt32 := p + 0x300 + n * 0x10 + 0x4

def DRVCFG_OUTPUT : UInt32 := 0x1
def DRVCFG_INPUT : UInt32 := 0x0

def gpioOutput (port pin : UInt32) : Mmio Unit := store (P_DRVCFG port pin) DRVCFG_OUTPUT
def gpioInput (port pin : UInt32) : Mmio Unit := store (P_DRVCFG port pin) DRVCFG_INPUT
def gpioMode (port pin drvcfg : UInt32) : Mmio Unit := store (P_DRVCFG port pin) drvcfg

def gpioSet (port pin : UInt32) : Mmio Unit := store (P_OMR port) (1 <<< pin)   -- PS
def gpioClear (port pin : UInt32) : Mmio Unit := store (P_OMR port) (1 <<< (pin + 16))   -- PCL

def gpioWrite (port pin : UInt32) (value : Int) : Mmio Unit :=
  if value ≠ 0 then gpioSet port pin else gpioClear port pin

def gpioToggle (port pin : UInt32) : Mmio Unit := do
  if (← load (P_OUT port)) &&& (1 <<< pin) ≠ 0 then gpioClear port pin else gpioSet port pin

def gpioRead (port pin : UInt32) : Mmio UInt32 := do
  return ((← load (P_IN port)) >>> pin) &&& 1

/-! ## Ports -/

/-- A pin of a port. Ports are named by their module bases, which are `0x400` apart. -/
structure PinId where
  port : UInt32
  pin : UInt32
  deriving DecidableEq, Repr

structure PinId.Valid (q : PinId) : Prop where
  port : q.port.toNat % 1024 = 0
  pin : q.pin.toNat < 16

/-- `out` is OUT of each port, `drv` the words of the DRVCFG registers by address. -/
structure Ports where
  out : UInt32 → UInt32
  drv : UInt32 → UInt32

/-- What OMR does to OUT: bit `n` sets a pin and bit `n + 16` clears it. What both at once
do is left open. -/
structure Driven (v w w' : UInt32) : Prop where
  keep : ∀ n < 16, bitOf v n = false → bitOf v (n + 16) = false → bitOf w' n = bitOf w n
  set : ∀ n < 16, bitOf v n = true → bitOf v (n + 16) = false → bitOf w' n = true
  clear : ∀ n < 16, bitOf v n = false → bitOf v (n + 16) = true → bitOf w' n = false

/-- What a write does to the pins. -/
structure Written (a v : UInt32) (s s' : Ports) : Prop where
  omr : ∀ q : PinId, q.Valid → a = P_OMR q.port → Driven v (s.out q.port) (s'.out q.port)
  out : ∀ q : PinId, q.Valid → a ≠ P_OMR q.port → a ≠ P_OUT q.port →
    s'.out q.port = s.out q.port
  drvcfg : ∀ q : PinId, q.Valid → s'.drv (P_DRVCFG q.port q.pin) =
    if a = P_DRVCFG q.port q.pin then v else s.drv (P_DRVCFG q.port q.pin)

/-- OUT is what it is. Other registers, the level of the pads too, read anything. -/
def ports : Env MmioSig Ports
  | s, .read a, r, s' => s' = s ∧ ∀ q : PinId, q.Valid → a = P_OUT q.port → r = s.out q.port
  | s, .write a v, _, s' => Written a v s s'

/-- One port that behaves so: it clears a pin that is both set and cleared. -/
def Ports.write (s : Ports) (a v : UInt32) : Ports where
  out p := if a = P_OMR p then (s.out p ||| v) &&& ~~~(v >>> 16) else s.out p
  drv := Function.update s.drv a v

/-- How a pin is driven, and how it is configured. -/
structure Pad where
  level : Bool
  drvcfg : UInt32
  deriving DecidableEq, Repr

def Ports.pad (s : Ports) (q : PinId) : Pad where
  level := bitOf (s.out q.port) q.pin.toNat
  drvcfg := s.drv (P_DRVCFG q.port q.pin)

/-! ## Calls -/

inductive Action
  | output
  | input
  | mode (drvcfg : UInt32)
  | set
  | clear
  | write (value : Int)
  | toggle
  | read

/-- A call, and the pin it is for. -/
structure Call where
  id : PinId
  what : Action

def Call.code (c : Call) : Mmio Unit :=
  match c.what with
  | .output => gpioOutput c.id.port c.id.pin
  | .input => gpioInput c.id.port c.id.pin
  | .mode drvcfg => gpioMode c.id.port c.id.pin drvcfg
  | .set => gpioSet c.id.port c.id.pin
  | .clear => gpioClear c.id.port c.id.pin
  | .write value => gpioWrite c.id.port c.id.pin value
  | .toggle => gpioToggle c.id.port c.id.pin
  | .read => do
    let _ ← gpioRead c.id.port c.id.pin

def callAll : List Call → Mmio Unit
  | [] => return ()
  | c :: cs => do
    c.code
    callAll cs

/-- What a call is for. -/
def Action.after : Action → Pad → Pad
  | .output, p => { p with drvcfg := DRVCFG_OUTPUT }
  | .input, p => { p with drvcfg := DRVCFG_INPUT }
  | .mode drvcfg, p => { p with drvcfg := drvcfg }
  | .set, p => { p with level := true }
  | .clear, p => { p with level := false }
  | .write value, p => { p with level := value ≠ 0 }
  | .toggle, p => { p with level := !p.level }
  | .read, p => p

/-- What calls are for, taken one after the other. -/
def after (cs : List Call) (g : PinId → Pad) : PinId → Pad :=
  cs.foldl (fun g c => Function.update g c.id (c.what.after (g c.id))) g

/-! ## Registers and bits -/

section
variable {q q' : PinId}

/-- A register of a port. -/
theorem toNat_register (hq : q.Valid) {off : UInt32} (hoff : off.toNat < 1024) :
    (q.port + off).toNat = q.port.toNat + off.toNat := by
  have hlt := q.port.toNat_lt
  have hport := hq.port
  rw [UInt32.toNat_add]
  omega

theorem toNat_drvcfg (hq : q.Valid) :
    (P_DRVCFG q.port q.pin).toNat = q.port.toNat + 0x304 + q.pin.toNat * 16 := by
  have hlt := q.port.toNat_lt
  have hport := hq.port
  have hpin := hq.pin
  have h16 : (0x10 : UInt32).toNat = 16 := rfl
  have h300 : (0x300 : UInt32).toNat = 0x300 := rfl
  have h4 : (0x4 : UInt32).toNat = 4 := rfl
  rw [P_DRVCFG, UInt32.toNat_add, UInt32.toNat_add, UInt32.toNat_add, UInt32.toNat_mul,
    h16, h300, h4]
  omega

theorem toNat_omr (hq : q.Valid) : (P_OMR q.port).toNat = q.port.toNat + 0x3C :=
  toNat_register hq (by decide)

theorem toNat_out (hq : q.Valid) : (P_OUT q.port).toNat = q.port.toNat + 0x20 :=
  toNat_register hq (by decide)

theorem omr_inj (hq : q.Valid) (hq' : q'.Valid) (h : P_OMR q.port = P_OMR q'.port) :
    q.port = q'.port := by
  have hnat := congrArg UInt32.toNat h
  rw [toNat_omr hq, toNat_omr hq'] at hnat
  exact UInt32.toNat_inj.mp (by omega)

theorem drvcfg_inj (hq : q.Valid) (hq' : q'.Valid)
    (h : P_DRVCFG q.port q.pin = P_DRVCFG q'.port q'.pin) : q = q' := by
  have hnat := congrArg UInt32.toNat h
  rw [toNat_drvcfg hq, toNat_drvcfg hq'] at hnat
  have hport := hq.port
  have hport' := hq'.port
  have hpin := hq.pin
  have hpin' := hq'.pin
  have hports : q.port = q'.port := UInt32.toNat_inj.mp (by omega)
  have hpins : q.pin = q'.pin := UInt32.toNat_inj.mp (by omega)
  cases q
  cases q'
  cases hports
  cases hpins
  rfl

theorem omr_ne_drvcfg (hq : q.Valid) (hq' : q'.Valid) : P_OMR q.port ≠ P_DRVCFG q'.port q'.pin := by
  intro h
  have hnat := congrArg UInt32.toNat h
  rw [toNat_omr hq, toNat_drvcfg hq'] at hnat
  have hport := hq.port
  have hport' := hq'.port
  have hpin' := hq'.pin
  omega

theorem omr_ne_out (hq : q.Valid) (hq' : q'.Valid) : P_OMR q.port ≠ P_OUT q'.port := by
  intro h
  have hnat := congrArg UInt32.toNat h
  rw [toNat_omr hq, toNat_out hq'] at hnat
  have hport := hq.port
  have hport' := hq'.port
  omega

theorem drvcfg_ne_out (hq : q.Valid) (hq' : q'.Valid) : P_DRVCFG q.port q.pin ≠ P_OUT q'.port := by
  intro h
  have hnat := congrArg UInt32.toNat h
  rw [toNat_drvcfg hq, toNat_out hq'] at hnat
  have hport := hq.port
  have hport' := hq'.port
  have hpin := hq.pin
  omega

end

/-! ## What one write does -/

/-- Only the pin `q` changes, as `e` says. -/
def Changes (q : PinId) (e : Pad → Pad) (s s' : Ports) : Prop :=
  ∀ q' : PinId, q'.Valid → s'.pad q' = Function.update s.pad q (e (s.pad q)) q'

/-- A write of OMR for one pin. -/
theorem changes_level {q : PinId} (hq : q.Valid) {s s' : Ports} {v : UInt32} (b : Bool)
    (hv : v = if b then 1 <<< q.pin else 1 <<< (q.pin + 16)) (h : Written (P_OMR q.port) v s s') :
    Changes q (fun p => { p with level := b }) s s' := by
  have hpin := hq.pin
  have hupper : (q.pin + 16).toNat = q.pin.toNat + 16 := by
    rw [UInt32.toNat_add, show (16 : UInt32).toNat = 16 from rfl]
    omega
  -- the two bits of OMR for pin `n`
  have hset : ∀ n < 16, bitOf v n = (b && decide (n = q.pin.toNat)) := by
    intro n hn
    cases b with
    | true => rw [hv, if_pos rfl, bitOf_one_shift (by omega) (by omega), Bool.true_and]
    | false =>
      rw [hv, if_neg Bool.false_ne_true, bitOf_one_shift (by omega) (by omega), hupper,
        Bool.false_and]
      exact decide_eq_false (by omega)
  have hclear : ∀ n < 16, bitOf v (n + 16) = (!b && decide (n = q.pin.toNat)) := by
    intro n hn
    cases b with
    | true =>
      rw [hv, if_pos rfl, bitOf_one_shift (by omega) (by omega), Bool.not_true, Bool.false_and]
      exact decide_eq_false (by omega)
    | false =>
      rw [hv, if_neg Bool.false_ne_true, bitOf_one_shift (by omega) (by omega), hupper,
        Bool.not_false, Bool.true_and]
      exact decide_eq_decide.mpr (by omega)
  intro q' hq'
  have hdrv : s'.drv (P_DRVCFG q'.port q'.pin) = s.drv (P_DRVCFG q'.port q'.pin) := by
    rw [h.drvcfg q' hq', if_neg (omr_ne_drvcfg hq hq')]
  by_cases hport : q'.port = q.port
  · have hdriven := h.omr q' hq' (by rw [hport])
    have hpin' := hq'.pin
    have hset' := hset q'.pin.toNat hpin'
    have hclear' := hclear q'.pin.toNat hpin'
    by_cases hsame : q' = q
    · subst hsame
      rw [Function.update_self, Ports.pad, hdrv]
      congr 1
      cases b with
      | true => exact hdriven.set _ hpin' (by simp [hset']) (by simp [hclear'])
      | false => exact hdriven.clear _ hpin' (by simp [hset']) (by simp [hclear'])
    · have hne : ¬ q'.pin.toNat = q.pin.toNat := by
        intro hnat
        apply hsame
        cases q
        cases q'
        cases hport
        cases UInt32.toNat_inj.mp hnat
        rfl
      rw [Function.update_of_ne hsame, Ports.pad, Ports.pad, hdrv]
      congr 1
      exact hdriven.keep _ hpin' (by simp [hset', hne]) (by simp [hclear', hne])
  · have hother : P_OMR q.port ≠ P_OMR q'.port := fun heq => hport (omr_inj hq hq' heq).symm
    have hne : q' ≠ q := fun heq => hport (congrArg PinId.port heq)
    rw [Function.update_of_ne hne, Ports.pad, Ports.pad, hdrv,
      h.out q' hq' hother (omr_ne_out hq hq')]

/-- A write of DRVCFG. -/
theorem changes_drvcfg {q : PinId} (hq : q.Valid) {s s' : Ports} {v : UInt32}
    (h : Written (P_DRVCFG q.port q.pin) v s s') :
    Changes q (fun p => { p with drvcfg := v }) s s' := by
  intro q' hq'
  have hout : s'.out q'.port = s.out q'.port :=
    h.out q' hq' (omr_ne_drvcfg hq' hq).symm (drvcfg_ne_out hq hq')
  by_cases hsame : q' = q
  · subst hsame
    rw [Function.update_self, Ports.pad, hout, h.drvcfg q' hq', if_pos rfl]
    rfl
  · have hne : P_DRVCFG q.port q.pin ≠ P_DRVCFG q'.port q'.pin :=
      fun heq => hsame (drvcfg_inj hq hq' heq).symm
    rw [Function.update_of_ne hsame, Ports.pad, Ports.pad, hout, h.drvcfg q' hq', if_neg hne]

/-! ## One party -/

section
variable (own : PinId → Prop)

/-- The pins of the party show `g`. -/
def Shows (g : PinId → Pad) (s : Ports) : Prop := ∀ q : PinId, q.Valid → own q → s.pad q = g q

/-- The others leave the pins of the party alone. -/
def Rely (s s' : Ports) : Prop := ∀ q : PinId, q.Valid → own q → s'.pad q = s.pad q

/-- The party leaves all other pins alone. -/
def Guarantee (s s' : Ports) : Prop := ∀ q : PinId, q.Valid → ¬ own q → s'.pad q = s.pad q

variable {own} {g : PinId → Pad} {s : Ports} {X : Empty → Ports → Prop} {q : PinId}

theorem stable_shows (g : PinId → Pad) : Stable (Rely own) (Shows own g) :=
  fun _ _ hs hrely q hq hown => (hrely q hq hown).trans (hs q hq hown)

theorem Changes.shows {e : Pad → Pad} {s' : Ports} (h : Changes q e s s') (hq : q.Valid)
    (hown : own q) (hs : Shows own g s) :
    Guarantee own s s' ∧ Shows own (Function.update g q (e (g q))) s' := by
  constructor
  · intro q' hq' hother
    rw [h q' hq', Function.update_of_ne]
    rintro rfl
    exact hother hown
  · intro q' hq' hown'
    rw [h q' hq', hs q hq hown]
    by_cases hsame : q' = q
    · rw [hsame, Function.update_self, Function.update_self]
    · rw [Function.update_of_ne hsame, Function.update_of_ne hsame]
      exact hs q' hq' hown'

theorem among_store {a v : UInt32} {e : Pad → Pad}
    (he : ∀ s s', Written a v s s' → Changes q e s s') (hq : q.Valid) (hown : own q)
    (hs : Shows own g s) :
    (store a v).among ports (Rely own) (Guarantee own)
      (fun _ => Shows own (Function.update g q (e (g q)))) X s := by
  apply among_ask (stable_shows g) hs
  intro s₁ hs₁ r s₂ hwrite
  obtain ⟨hguarantee, hs₂⟩ := (he s₁ s₂ hwrite).shows hq hown hs₁
  exact ⟨hguarantee, among_ret (stable_shows _) hs₂ fun _ h => h⟩

theorem among_level (hq : q.Valid) (hown : own q) (hs : Shows own g s) (b : Bool) :
    (if b then gpioSet q.port q.pin else gpioClear q.port q.pin).among ports (Rely own)
      (Guarantee own) (fun _ => Shows own (Function.update g q { g q with level := b })) X s := by
  cases b with
  | true => exact among_store (fun _ _ h => changes_level hq true rfl h) hq hown hs
  | false => exact among_store (fun _ _ h => changes_level hq false rfl h) hq hown hs

/-- A read changes nothing. -/
theorem among_load {α : Type} {a : UInt32} {k : UInt32 → Mmio α} {Q : α → Ports → Prop}
    (hs : Shows own g s)
    (h : ∀ s r, Shows own g s → (∀ q : PinId, q.Valid → a = P_OUT q.port → r = s.out q.port) →
      (k r).among ports (Rely own) (Guarantee own) Q X s) :
    (load a >>= k).among ports (Rely own) (Guarantee own) Q X s := by
  apply among_ask (stable_shows g) hs
  rintro s₁ hs₁ r _ ⟨rfl, hr⟩
  exact ⟨fun _ _ _ => rfl, h _ r hs₁ hr⟩

/-- A call on a pin of the party does what it is for. -/
theorem among_call {c : Call} (hq : c.id.Valid) (hown : own c.id) (hs : Shows own g s) :
    c.code.among ports (Rely own) (Guarantee own)
      (fun _ => Shows own (Function.update g c.id (c.what.after (g c.id)))) X s := by
  obtain ⟨q, what⟩ := c
  cases what with
  | output => exact among_store (fun _ _ h => changes_drvcfg hq h) hq hown hs
  | input => exact among_store (fun _ _ h => changes_drvcfg hq h) hq hown hs
  | mode drvcfg => exact among_store (fun _ _ h => changes_drvcfg hq h) hq hown hs
  | set => exact among_level hq hown hs true
  | clear => exact among_level hq hown hs false
  | write value =>
    have hlevel := among_level (X := X) hq hown hs (decide (value ≠ 0))
    simpa only [Call.code, gpioWrite, Action.after, decide_eq_true_eq] using hlevel
  | toggle =>
    apply among_load hs
    intro s₁ r hs₁ hr
    have hbit : r &&& (1 <<< q.pin) ≠ 0 ↔ (g q).level = true := by
      have hpin : q.pin.toNat < 16 := hq.pin
      rw [hr q hq rfl, and_one_shift_ne_zero _ (by omega), ← hs₁ q hq hown]
      rfl
    have hlevel := among_level (X := X) hq hown hs₁ (!(g q).level)
    cases hold : (g q).level with
    | true =>
      rw [if_pos (hbit.mpr hold)]
      simpa [hold, Action.after] using hlevel
    | false =>
      rw [if_neg (fun h => by simpa [hold] using hbit.mp h)]
      simpa [hold, Action.after] using hlevel
  | read =>
    apply among_load hs
    intro s₁ r hs₁ _
    rw [Action.after, Function.update_eq_self]
    exact among_ret (a := ()) (stable_shows g) hs₁ fun _ h => h

theorem among_callAll {cs : List Call} (hcs : ∀ c ∈ cs, c.id.Valid ∧ own c.id)
    (hs : Shows own g s) :
    (callAll cs).among ports (Rely own) (Guarantee own) (fun _ => Shows own (after cs g)) X s := by
  induction cs generalizing g s with
  | nil => exact among_ret (stable_shows g) hs fun _ h => h
  | cons c cs ih =>
    obtain ⟨hq, hown⟩ := hcs c (.head _)
    apply among_bind
    apply among_mono _ (among_call hq hown hs)
    intro _ s' hs'
    exact ih (fun d hd => hcs d (.tail _ hd)) hs'

end

/-! ## All parties -/

/-- The parties' calls are for pins that exist, and no two parties have a pin in common. -/
structure Owned {ι : Type} (calls : ι → List Call) : Prop where
  valid : ∀ i, ∀ c ∈ calls i, c.id.Valid
  apart : ∀ i j, i ≠ j → ∀ c ∈ calls i, ∀ d ∈ calls j, c.id ≠ d.id

/-- However the accesses of the parties interleave, a party that is through with its calls
finds its pins as if it had been alone, and a pin of nobody is never touched. -/
theorem pins_independent {ι : Type} [DecidableEq ι] (calls : ι → List Call) (h : Owned calls)
    (s s' : Ports) (ps' : ι → Mmio Unit)
    (hturns : ReflTransGen (Prog.Turn fun _ => ports) (s, fun i => callAll (calls i)) (s', ps')) :
    (∀ i, ps' i = .ret () → ∀ c ∈ calls i, s'.pad c.id = after (calls i) s.pad c.id) ∧
      ∀ q : PinId, q.Valid → (∀ i, ∀ c ∈ calls i, c.id ≠ q) → s'.pad q = s.pad q := by
  obtain ⟨own, hown⟩ : ∃ own : ι → PinId → Prop, own = fun i q => ∃ c ∈ calls i, c.id = q :=
    ⟨_, rfl⟩
  have hstart : Together (fun _ => ports) (fun i => Rely (own i)) (fun i => Guarantee (own i))
      (fun i _ => Shows (own i) (after (calls i) s.pad)) (fun _ _ _ => False)
      (s, fun i => callAll (calls i)) := by
    intro i
    apply among_callAll
    · intro c hc
      rw [hown]
      exact ⟨h.valid i c hc, c, hc, rfl⟩
    · exact fun _ _ _ => rfl
  have hfit : ∀ i j, i ≠ j → ∀ t t', Guarantee (own j) t t' → Rely (own i) t t' := by
    rintro i j hij t t' hguarantee q hq hi
    apply hguarantee q hq
    rw [hown] at hi ⊢
    rintro ⟨d, hd, hdq⟩
    obtain ⟨c, hc, hcq⟩ := hi
    exact h.apart i j hij c hc d hd (hcq.trans hdq.symm)
  obtain ⟨hend, hnobody⟩ := hstart.turns hfit
    (I := fun t => ∀ q : PinId, q.Valid → (∀ i, ¬ own i q) → t.pad q = s.pad q)
    (fun i t t' ht hguarantee q hq hnot => (hguarantee q hq (hnot i)).trans (ht q hq hnot))
    (fun _ _ _ => rfl) hturns
  constructor
  · intro i hret c hc
    have hshows : Shows (own i) (after (calls i) s.pad) s' := hend.returned hret
    apply hshows c.id (h.valid i c hc)
    rw [hown]
    exact ⟨c, hc, rfl⟩
  · intro q hq hnot
    apply hnobody q hq
    intro i
    rw [hown]
    rintro ⟨c, hc, hcq⟩
    exact hnot i c hc hcq

theorem bitOf_shiftRight (v : UInt32) (n : Nat) : bitOf (v >>> 16) n = bitOf v (n + 16) := by
  simp [bitOf, Nat.add_comm]

theorem written_write (s : Ports) (a v : UInt32) : Written a v s (s.write a v) where
  omr := by
    rintro q hq rfl
    have hout : (s.write (P_OMR q.port) v).out q.port = (s.out q.port ||| v) &&& ~~~(v >>> 16) :=
      if_pos rfl
    rw [hout]
    have hbit : ∀ n < 16, bitOf ((s.out q.port ||| v) &&& ~~~(v >>> 16)) n =
        ((bitOf (s.out q.port) n || bitOf v n) && !bitOf v (n + 16)) := by
      intro n hn
      rw [bitOf_and, bitOf_or, bitOf_not _ (by omega), bitOf_shiftRight]
    constructor
    · intro n hn hset hclear
      rw [hbit n hn, hset, hclear, Bool.or_false, Bool.not_false, Bool.and_true]
    · intro n hn hset hclear
      rw [hbit n hn, hset, hclear, Bool.or_true, Bool.not_false, Bool.and_true]
    · intro n hn _ hclear
      rw [hbit n hn, hclear, Bool.not_true, Bool.and_false]
  out := fun q _ hne _ => if_neg hne
  drvcfg := fun q _ => by
    have hdrv : (s.write a v).drv = Function.update s.drv a v := rfl
    rw [hdrv, Function.update_apply]
    simp only [eq_comm]

def GPIO_P03 : UInt32 := 0xF003AC00

def Ports.serve (s : Ports) : (o : MmioOp) → MmioSig.Res o × Ports
  | .read a => (s.out (a - 0x20), s)
  | .write a v => ((), s.write a v)

theorem ports_serve (s : Ports) (o : MmioOp) : ports s o (s.serve o).1 (s.serve o).2 := by
  cases o with
  | read a =>
    refine ⟨rfl, ?_⟩
    rintro q - rfl
    show s.out (q.port + 0x20 - 0x20) = _
    rw [UInt32.add_sub_cancel]
  | write a v => exact written_write s a v

/-- One party toggles P03.9, and another sets P03.10. -/
def twoParties : Bool → List Call
  | true => [⟨⟨GPIO_P03, 9⟩, .toggle⟩]
  | false => [⟨⟨GPIO_P03, 10⟩, .set⟩]

theorem twoParties_owned : Owned twoParties where
  valid := by
    rintro (_ | _) c hc
    all_goals
      cases List.mem_singleton.mp hc
      exact ⟨rfl, by decide⟩
  apart := by
    rintro (_ | _) (_ | _) hij c hc d hd
    all_goals
      cases List.mem_singleton.mp hc
      cases List.mem_singleton.mp hd
      first | exact absurd rfl hij | decide

theorem pins_independent_two : ∃ s' ps', ReflTransGen (Prog.Turn fun _ => ports)
    (⟨fun _ => 0, fun _ => 0⟩, fun i => callAll (twoParties i)) (s', ps') ∧
      (s'.pad ⟨GPIO_P03, 9⟩).level = true ∧ (s'.pad ⟨GPIO_P03, 10⟩).level = true := by
  obtain ⟨s, hs⟩ : ∃ s : Ports, s = ⟨fun _ => 0, fun _ => 0⟩ := ⟨_, rfl⟩
  obtain ⟨_, s₁, hfirst⟩ := runs_ok _ _ ports_serve (callAll (twoParties true)) s
  obtain ⟨_, s₂, hsecond⟩ := runs_ok _ _ ports_serve (callAll (twoParties false)) s₁
  have hturns := (hfirst.turns (E := fun _ => ports) (fun i => callAll (twoParties i)) rfl).trans
    (hsecond.turns (E := fun _ => ports) (i := false) _ (Function.update_of_ne (by decide) ..))
  rw [← hs]
  refine ⟨_, _, hturns, ?_⟩
  obtain ⟨hend, -⟩ := pins_independent twoParties twoParties_owned s _ _ hturns
  constructor
  · rw [hend true rfl _ (.head _), hs]
    rfl
  · rw [hend false rfl _ (.head _), hs]
    rfl

end OpenTricore.Gpio
