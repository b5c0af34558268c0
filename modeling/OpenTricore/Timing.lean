import Mathlib.Algebra.Order.Ring.Nat
import OpenTricore.DataFlash
import OpenTricore.Tcmcd

/-! Delays and the time source, `bsp/tc4d7/timing.c`. The counter is 64 bits wide and
the code reads its low word. A delay takes differences of ticks, so it is never short
unless its length in ticks is cut to 32 bits. The time source scales the ticks before
a caller can take a difference, so an interval across a wrap comes out wrong. -/

namespace OpenTricore.Timing
open Lib Lib.Prog DataFlash

/-! ## The code -/

def STM_ABS : UInt32 := 0xF8800020

/-- The measured frequency. A build may override it, so the functions take it as `hz`. -/
def STM_HZ : UInt32 := 50300000

abbrev Timed := Prog MmioSig Abort

def tcTicks : Timed UInt32 := Prog.perform (S := MmioSig) (.read STM_ABS)

/-- The loop is cut off after `polls` rounds. -/
def tcDelayTicks (polls : Nat) (ticks : UInt32) : Timed Unit := do
  let start ← tcTicks
  Prog.loop .unfinished (fun _ => do
    if (← tcTicks) - start < ticks then return .inl () else return .inr ()) polls ()

section
variable (hz : UInt32)

/-- `(uint32_t)((uint64_t)us * STM_HZ / 1000000u)`. -/
def usTicks (us : UInt32) : UInt32 := (us.toUInt64 * hz.toUInt64 / 1000000).toUInt32

def tcDelayUs (polls : Nat) (us : UInt32) : Timed Unit := tcDelayTicks polls (usTicks hz us)

def tcDelayMs (polls : Nat) (ms : UInt32) : Timed Unit :=
  Prog.loop .hang (fun ms : UInt32 =>
    if ms = 0 then return .inr ()
    else do
      tcDelayTicks polls (hz / 1000)
      return .inl (ms - 1)) (2 ^ 32) ms

/-- `(uint32_t)((uint64_t)ticks * per / STM_HZ)`. -/
def scaled (per ticks : UInt32) : UInt32 :=
  (ticks.toUInt64 * per.toUInt64 / hz.toUInt64).toUInt32

/-- The ticks in units of `per` a second. -/
def reading (per : UInt32) : Timed UInt32 := do return scaled hz per (← tcTicks)

def tcMicros : Timed UInt32 := reading hz 1000000

def tcMillis : Timed UInt32 := reading hz 1000

end

/-! ## The counter -/

/-- The count never goes back. It may go on by any amount before an access, and the
register is its low word. -/
def stm : Env MmioSig Nat
  | c, .read a, r, c' => c ≤ c' ∧ (a = STM_ABS → r = UInt32.ofNat c')
  | c, .write .., _, c' => c ≤ c'

section
variable {X : Abort → Nat → Prop}

@[simp] theorem wp_tcTicks {Q : UInt32 → Nat → Prop} (c : Nat) :
    tcTicks.wp stm Q X c ↔ ∀ c', c ≤ c' → Q (UInt32.ofNat c') c' := by
  constructor
  · intro h c' hc
    exact h _ c' ⟨hc, fun _ => rfl⟩
  · intro h r c' hr
    obtain rfl := hr.2 rfl
    exact h c' hr.1

/-- The difference of two readings is the elapsed count without its high part. -/
theorem ticks_sub {c c' : Nat} (h : c ≤ c') :
    (UInt32.ofNat c' - UInt32.ofNat c).toNat = (c' - c) % 2 ^ 32 := by
  rw [UInt32.toNat_sub, UInt32.toNat_ofNat', UInt32.toNat_ofNat']
  omega

/-- A delay by ticks takes at least that many. -/
theorem tcDelayTicks_elapsed (polls : Nat) (ticks : UInt32) (c : Nat) :
    (tcDelayTicks polls ticks).wp stm (fun _ c' => c + ticks.toNat ≤ c')
      (fun e c' => e = .unfinished ∧ c ≤ c') c := by
  rw [tcDelayTicks, wp_bind, wp_tcTicks]
  intro c₀ hc₀
  apply wp_loop_partial stm (fun _ c' => c₀ ≤ c')
  · intro _ c₁ hc₁
    rw [wp_bind, wp_tcTicks]
    intro c₂ hc₂
    have hle : c₀ ≤ c₂ := Nat.le_trans hc₁ hc₂
    split
    · exact hle
    · rename_i hge
      rw [UInt32.lt_iff_toNat_lt, ticks_sub hle] at hge
      have hmod := Nat.mod_le (c₂ - c₀) (2 ^ 32)
      show c + ticks.toNat ≤ c₂
      omega
  · exact fun _ c' hc' => ⟨rfl, Nat.le_trans hc₀ hc'⟩
  · exact Nat.le_refl c₀

/-- A reading at any later count is possible. -/
theorem can_tcTicks {c c' : Nat} (h : c ≤ c') :
    tcTicks.Can stm (fun r c₁ => r = UInt32.ofNat c' ∧ c₁ = c') c :=
  ⟨UInt32.ofNat c', c', .ask ⟨h, fun _ => rfl⟩ (.ret _ _), rfl, rfl⟩

/-- A delay can take exactly that many. -/
theorem tcDelayTicks_exact (ticks : UInt32) (c : Nat) :
    (tcDelayTicks 1 ticks).Can stm (fun _ c' => c' = c + ticks.toNat) c := by
  have hdiff : UInt32.ofNat (c + ticks.toNat) - UInt32.ofNat c = ticks := by
    rw [← UInt32.toNat_inj, ticks_sub (Nat.le_add_right _ _), Nat.add_sub_cancel_left]
    exact Nat.mod_eq_of_lt ticks.toNat_lt
  apply (can_tcTicks (Nat.le_refl c)).bind
  rintro start c₀ ⟨rfl, rfl⟩
  simp only [Prog.loop, bind_bind]
  apply (can_tcTicks (Nat.le_add_right c₀ ticks.toNat)).bind
  rintro now c₁ ⟨rfl, rfl⟩
  rw [hdiff, if_neg (UInt32.lt_irrefl ticks)]
  exact can_ret rfl

end

/-! ## Delays by time -/

section
variable (hz : UInt32)

/-- A product of two words, divided and cut to a word. -/
theorem toNat_mul_div (x y : UInt32) (d : UInt64) :
    (x.toUInt64 * y.toUInt64 / d).toUInt32.toNat = x.toNat * y.toNat / d.toNat % 2 ^ 32 := by
  have hprod : x.toNat * y.toNat < 2 ^ 32 * 2 ^ 32 := Nat.mul_lt_mul'' x.toNat_lt y.toNat_lt
  have hmod : x.toNat * y.toNat % 2 ^ 64 = x.toNat * y.toNat := Nat.mod_eq_of_lt hprod
  rw [UInt64.toNat_toUInt32, UInt64.toNat_div, UInt64.toNat_mul, UInt32.toNat_toUInt64,
    UInt32.toNat_toUInt64, hmod]

theorem toNat_usTicks (us : UInt32) :
    (usTicks hz us).toNat = us.toNat * hz.toNat / 1000000 % 2 ^ 32 :=
  toNat_mul_div us hz 1000000

/-- `tc_delay_us(us)` is never shorter than `us` microseconds, in whole ticks. -/
def UsLongEnough (us : UInt32) : Prop :=
  ∀ polls c c', Runs stm (tcDelayUs hz polls us) c (.ok ()) c' →
    us.toNat * hz.toNat / 1000000 ≤ c' - c

/-- `tc_delay_ms(ms)` is never shorter than `ms` times the whole ticks of a millisecond. -/
def MsLongEnough (ms : UInt32) : Prop :=
  ∀ polls c c', Runs stm (tcDelayMs hz polls ms) c (.ok ()) c' →
    ms.toNat * (hz.toNat / 1000) ≤ c' - c

theorem usLongEnough_iff (us : UInt32) :
    UsLongEnough hz us ↔ us.toNat * hz.toNat / 1000000 < 2 ^ 32 := by
  constructor
  · intro hlong
    obtain ⟨_, c', hrun, rfl⟩ := tcDelayTicks_exact (usTicks hz us) 0
    have hle := hlong 1 0 _ hrun
    have hlt := (usTicks hz us).toNat_lt
    omega
  · intro hfits polls c c' hrun
    have hle := (hrun.sound _ (tcDelayTicks_elapsed polls (usTicks hz us) c)).1 () rfl
    rw [toNat_usTicks, Nat.mod_eq_of_lt hfits] at hle
    omega

theorem toNat_pred {n : UInt32} (h : n ≠ 0) : (n - 1).toNat + 1 = n.toNat := by
  have hpos : n.toNat ≠ 0 := fun h0 => h (UInt32.toNat_inj.mp h0)
  have hone : (1 : UInt32) ≤ n := UInt32.le_iff_toNat_le.mpr (by rw [UInt32.toNat_one]; omega)
  rw [UInt32.toNat_sub_of_le _ _ hone, UInt32.toNat_one]
  omega

theorem toNat_msTicks : (hz / 1000).toNat = hz.toNat / 1000 := UInt32.toNat_div hz 1000

theorem tcDelayMs_elapsed (polls : Nat) (ms : UInt32) (c : Nat) :
    (tcDelayMs hz polls ms).wp stm (fun _ c' => c + ms.toNat * (hz.toNat / 1000) ≤ c')
      (fun e _ => e = .unfinished) c := by
  have hms := ms.toNat_lt
  apply wp_loop stm (fun (left : UInt32) c₁ => left.toNat ≤ ms.toNat ∧
    c + (ms.toNat - left.toNat) * (hz.toNat / 1000) ≤ c₁) UInt32.toNat
  · rintro left c₁ ⟨hleft, hc₁⟩
    split
    · rename_i hzero
      rw [hzero] at hc₁
      exact hc₁
    · rename_i hpos
      have hpred := toNat_pred hpos
      rw [wp_bind]
      apply wp_mono _ ?_ (fun _ _ h => h.1) (tcDelayTicks_elapsed polls (hz / 1000) c₁)
      intro _ c₂ hc₂
      have hsteps : ms.toNat - (left - 1).toNat = ms.toNat - left.toNat + 1 := by omega
      rw [toNat_msTicks] at hc₂
      refine ⟨⟨by omega, ?_⟩, by omega⟩
      rw [hsteps, Nat.add_mul, Nat.one_mul]
      omega
  · rw [Nat.sub_self, Nat.zero_mul]
    exact ⟨Nat.le_refl _, Nat.le_refl c⟩
  · exact hms

/-- A delay in milliseconds can take exactly its ticks. -/
theorem tcDelayMs_exact (ms : UInt32) (c : Nat) :
    (tcDelayMs hz 1 ms).Can stm (fun _ c' => c' = c + ms.toNat * (hz.toNat / 1000)) c := by
  apply can_loop (fun (left : UInt32) c₁ =>
    c₁ + left.toNat * (hz.toNat / 1000) = c + ms.toNat * (hz.toNat / 1000)) UInt32.toNat
  · intro left c₁ hc₁
    split
    · rename_i hzero
      rw [hzero, UInt32.toNat_zero, Nat.zero_mul, Nat.add_zero] at hc₁
      exact can_ret hc₁
    · rename_i hpos
      have hpred := toNat_pred hpos
      apply (tcDelayTicks_exact (hz / 1000) c₁).bind
      rintro _ c₂ rfl
      refine can_ret ⟨?_, by omega⟩
      rw [← hpred, Nat.add_mul, Nat.one_mul] at hc₁
      rw [toNat_msTicks]
      omega
  · rfl
  · exact ms.toNat_lt

theorem msLongEnough (ms : UInt32) : MsLongEnough hz ms := by
  intro polls c c' hrun
  have hle := (hrun.sound _ (tcDelayMs_elapsed hz polls ms c)).1 () rfl
  omega

/-- Whatever the count does, a delay in milliseconds is long enough, and one in
microseconds is so if and only if its length in ticks fits the 32 bits it is cut to. -/
theorem delays_long_enough_iff (us ms : UInt32) :
    (UsLongEnough hz us ↔ us.toNat * hz.toNat / 1000000 < 2 ^ 32) ∧ MsLongEnough hz ms :=
  ⟨usLongEnough_iff hz us, msLongEnough hz ms⟩

end

/-- A delay of 86 seconds. -/
theorem long_delay_short : ¬ UsLongEnough STM_HZ 86000000 := by
  intro hlong
  obtain ⟨_, c', hrun, rfl⟩ := tcDelayTicks_exact (usTicks STM_HZ 86000000) 0
  exact absurd (hlong 1 0 _ hrun) (by decide)

/-! ## Intervals -/

section
variable (hz per : UInt32)

/-- `d` is `n`, give or take one. -/
def WithinOne (d : UInt32) (n : Nat) : Prop := n ≤ d.toNat + 1 ∧ d.toNat ≤ n + 1

instance (d : UInt32) (n : Nat) : Decidable (WithinOne d n) := by
  unfold WithinOne
  infer_instance

/-- Rounding two values down and rounding their difference down differ by at most one. -/
theorem floor_sub {a b : Nat} (h : a ≤ b) (p n : Nat) :
    (b - a) * p / n ≤ b * p / n - a * p / n ∧ b * p / n - a * p / n ≤ (b - a) * p / n + 1 := by
  obtain ⟨d, rfl⟩ := Nat.exists_eq_add_of_le h
  rw [Nat.add_sub_cancel_left, Nat.add_mul]
  rcases Nat.eq_zero_or_pos n with rfl | hn
  · simp
  · rw [Nat.add_div hn]
    generalize d * p / n = x
    generalize a * p / n = y
    split <;> omega

theorem toNat_scaled (t : UInt32) :
    (scaled hz per t).toNat = t.toNat * per.toNat / hz.toNat % 2 ^ 32 := by
  rw [scaled, toNat_mul_div, UInt32.toNat_toUInt64]

variable {hz per}

/-- With a clock faster than the unit, a reading fits its 32 bits. -/
theorem scaled_lt (h : per.toNat ≤ hz.toNat) (t : UInt32) :
    (scaled hz per t).toNat = t.toNat * per.toNat / hz.toNat ∧
      t.toNat * per.toNat / hz.toNat ≤ t.toNat := by
  have hle : t.toNat * per.toNat / hz.toNat ≤ t.toNat :=
    Nat.div_le_of_le_mul (by rw [Nat.mul_comm hz.toNat]; exact Nat.mul_le_mul_left _ h)
  have hlt := t.toNat_lt
  exact ⟨by rw [toNat_scaled, Nat.mod_eq_of_lt (by omega)], hle⟩

/-- No wrap between two readings. -/
theorem interval_of_no_wrap (h : per.toNat ≤ hz.toNat) {c₁ c₂ : Nat} (hle : c₁ ≤ c₂)
    (hwrap : c₁ / 2 ^ 32 = c₂ / 2 ^ 32) :
    WithinOne (scaled hz per (UInt32.ofNat c₂) - scaled hz per (UInt32.ofNat c₁))
      ((c₂ - c₁) * per.toNat / hz.toNat) := by
  have hlow₁ : (UInt32.ofNat c₁).toNat = c₁ % 2 ^ 32 := UInt32.toNat_ofNat'
  have hlow₂ : (UInt32.ofNat c₂).toNat = c₂ % 2 ^ 32 := UInt32.toNat_ofNat'
  have hlow : (UInt32.ofNat c₁).toNat ≤ (UInt32.ofNat c₂).toNat := by omega
  obtain ⟨hscaled₁, -⟩ := scaled_lt h (UInt32.ofNat c₁)
  obtain ⟨hscaled₂, -⟩ := scaled_lt h (UInt32.ofNat c₂)
  have hmono : (UInt32.ofNat c₁).toNat * per.toNat / hz.toNat ≤
      (UInt32.ofNat c₂).toNat * per.toNat / hz.toNat :=
    Nat.div_le_div_right (Nat.mul_le_mul_right _ hlow)
  have hsub : (scaled hz per (UInt32.ofNat c₂) - scaled hz per (UInt32.ofNat c₁)).toNat =
      (UInt32.ofNat c₂).toNat * per.toNat / hz.toNat -
        (UInt32.ofNat c₁).toNat * per.toNat / hz.toNat := by
    rw [UInt32.toNat_sub_of_le _ _ (UInt32.le_iff_toNat_le.mpr (by omega)), hscaled₁, hscaled₂]
  have hfloor := floor_sub hlow per.toNat hz.toNat
  have hdiff : (UInt32.ofNat c₂).toNat - (UInt32.ofNat c₁).toNat = c₂ - c₁ := by omega
  rw [hdiff] at hfloor
  rw [WithinOne, hsub]
  omega

/-- A wrap between two readings makes the second one the smaller. -/
theorem not_interval_of_wrap (h : 4 * per.toNat ≤ hz.toNat) (hslow : hz.toNat ≤ per.toNat * 2 ^ 30)
    (hpos : 0 < hz.toNat) {c₁ c₂ : Nat} (hshort : c₂ - c₁ < 2 ^ 32)
    (hwrap : c₁ / 2 ^ 32 < c₂ / 2 ^ 32) :
    ¬ WithinOne (scaled hz per (UInt32.ofNat c₂) - scaled hz per (UInt32.ofNat c₁))
      ((c₂ - c₁) * per.toNat / hz.toNat) := by
  have hlow₁ : (UInt32.ofNat c₁).toNat = c₁ % 2 ^ 32 := UInt32.toNat_ofNat'
  have hlow₂ : (UInt32.ofNat c₂).toNat = c₂ % 2 ^ 32 := UInt32.toNat_ofNat'
  have hlow : (UInt32.ofNat c₂).toNat ≤ (UInt32.ofNat c₁).toNat := by omega
  have hdiff : c₂ - c₁ = 2 ^ 32 - ((UInt32.ofNat c₁).toNat - (UInt32.ofNat c₂).toNat) := by omega
  obtain ⟨hscaled₁, -⟩ := scaled_lt (by omega : per.toNat ≤ hz.toNat) (UInt32.ofNat c₁)
  obtain ⟨hscaled₂, -⟩ := scaled_lt (by omega : per.toNat ≤ hz.toNat) (UInt32.ofNat c₂)
  obtain ⟨hge, -⟩ := floor_sub hlow per.toNat hz.toNat
  -- all values below `2^32` ticks are at most `2^30`
  have hsmall : ∀ x, x ≤ 2 ^ 32 → x * per.toNat / hz.toNat ≤ 2 ^ 30 := by
    intro x hx
    apply Nat.div_le_of_le_mul
    calc x * per.toNat ≤ 2 ^ 32 * per.toNat := Nat.mul_le_mul_right _ hx
      _ = 2 ^ 30 * (4 * per.toNat) := by omega
      _ ≤ hz.toNat * 2 ^ 30 := by rw [Nat.mul_comm hz.toNat]; exact Nat.mul_le_mul_left _ h
  have helapsed := hsmall (c₂ - c₁) (Nat.le_of_lt hshort)
  have hsmall₁ := hsmall (UInt32.ofNat c₁).toNat (Nat.le_of_lt (UInt32.toNat_lt _))
  have hsmall₂ := hsmall (UInt32.ofNat c₂).toNat (Nat.le_of_lt (UInt32.toNat_lt _))
  rw [WithinOne, UInt32.toNat_sub, hscaled₁, hscaled₂]
  rintro ⟨hlong, hnear⟩
  by_cases heq : (UInt32.ofNat c₁).toNat * per.toNat / hz.toNat =
      (UInt32.ofNat c₂).toNat * per.toNat / hz.toNat
  · -- equal readings: almost a whole period has passed
    rw [heq, Nat.sub_add_cancel (by omega)] at hlong
    have hless : (2 ^ 32 - (c₂ - c₁)) * per.toNat < hz.toNat := by
      have hzero : ((UInt32.ofNat c₁).toNat - (UInt32.ofNat c₂).toNat) * per.toNat / hz.toNat =
          0 := by
        rw [heq, Nat.sub_self] at hge
        exact Nat.le_zero.mp hge
      rw [hdiff, Nat.sub_sub_self (by omega)]
      exact (Nat.div_eq_zero_iff_lt hpos).mp hzero
    have hmore : 2 * hz.toNat ≤ (c₂ - c₁) * per.toNat := by
      rw [Nat.sub_mul] at hless
      omega
    have htwo := (Nat.le_div_iff_mul_le hpos).mpr hmore
    omega
  · have hmono : (UInt32.ofNat c₂).toNat * per.toNat / hz.toNat ≤
        (UInt32.ofNat c₁).toNat * per.toNat / hz.toNat :=
      Nat.div_le_div_right (Nat.mul_le_mul_right _ hlow)
    clear hge
    generalize (UInt32.ofNat c₁).toNat * per.toNat / hz.toNat = m₁ at *
    generalize (UInt32.ofNat c₂).toNat * per.toNat / hz.toNat = m₂ at *
    generalize (c₂ - c₁) * per.toNat / hz.toNat = n at *
    omega

end

/-- Whatever `p` reads at the counts `c₁` and `c₂`, the difference is the elapsed time
in units of `per` a second, give or take one. -/
def IntervalRight (stmHz : UInt32) (p : Timed UInt32) (per c₁ c₂ : Nat) : Prop :=
  ∀ b₁ b₂ m₁ m₂, Runs stm p b₁ (.ok m₁) c₁ → Runs stm p b₂ (.ok m₂) c₂ →
    WithinOne (m₂ - m₁) ((c₂ - c₁) * per / stmHz.toNat)

theorem reading_value {stmHz per m : UInt32} {b c : Nat}
    (h : Runs stm (reading stmHz per) b (.ok m) c) :
    m = scaled stmHz per (UInt32.ofNat c) := by
  have hwp : (reading stmHz per).wp stm (fun m c => m = scaled stmHz per (UInt32.ofNat c))
      (fun _ _ => False) b := by
    rw [reading, wp_bind, wp_tcTicks]
    exact fun c' _ => rfl
  exact (h.sound _ hwp).1 m rfl

theorem reading_run (stmHz per : UInt32) (c : Nat) :
    Runs stm (reading stmHz per) c (.ok (scaled stmHz per (UInt32.ofNat c))) c := by
  obtain ⟨m, c', hrun, rfl, rfl⟩ : (reading stmHz per).Can stm
      (fun m c' => m = scaled stmHz per (UInt32.ofNat c) ∧ c' = c) c := by
    apply (can_tcTicks (Nat.le_refl c)).bind
    rintro _ _ ⟨rfl, rfl⟩
    exact can_ret ⟨rfl, rfl⟩
  exact hrun

theorem intervalRight_iff {stmHz per : UInt32} {c₁ c₂ : Nat} :
    IntervalRight stmHz (reading stmHz per) per.toNat c₁ c₂ ↔
      WithinOne (scaled stmHz per (UInt32.ofNat c₂) - scaled stmHz per (UInt32.ofNat c₁))
        ((c₂ - c₁) * per.toNat / stmHz.toNat) := by
  constructor
  · intro h
    exact h _ _ _ _ (reading_run stmHz per c₁) (reading_run stmHz per c₂)
  · intro h b₁ b₂ m₁ m₂ h₁ h₂
    rw [reading_value h₁, reading_value h₂]
    exact h

theorem reading_interval_iff {stmHz per : UInt32} (h : 4 * per.toNat ≤ stmHz.toNat)
    (hslow : stmHz.toNat ≤ per.toNat * 2 ^ 30) (hpos : 0 < stmHz.toNat) {c₁ c₂ : Nat}
    (hle : c₁ ≤ c₂) (hshort : c₂ - c₁ < 2 ^ 32) :
    IntervalRight stmHz (reading stmHz per) per.toNat c₁ c₂ ↔ c₁ / 2 ^ 32 = c₂ / 2 ^ 32 := by
  rw [intervalRight_iff]
  constructor
  · intro hright
    by_contra hwrap
    have hlt : c₁ / 2 ^ 32 < c₂ / 2 ^ 32 :=
      Nat.lt_of_le_of_ne (Nat.div_le_div_right hle) hwrap
    exact not_interval_of_wrap h hslow hpos hshort hlt hright
  · intro hwrap
    exact interval_of_no_wrap (by omega) hle hwrap

/-- An interval of less than `2^32` ticks comes out right, within one, if and only if
the tick counter does not wrap between the readings. -/
theorem interval_right_iff (stmHz : UInt32) (hhz : 4000000 ≤ stmHz.toNat) (c₁ c₂ : Nat)
    (hle : c₁ ≤ c₂) (hshort : c₂ - c₁ < 2 ^ 32) :
    (IntervalRight stmHz (tcMicros stmHz) 1000000 c₁ c₂ ↔ c₁ / 2 ^ 32 = c₂ / 2 ^ 32) ∧
      (IntervalRight stmHz (tcMillis stmHz) 1000 c₁ c₂ ↔ c₁ / 2 ^ 32 = c₂ / 2 ^ 32) := by
  have hlt := stmHz.toNat_lt
  have hmicros : (1000000 : UInt32).toNat = 1000000 := rfl
  have hmillis : (1000 : UInt32).toNat = 1000 := rfl
  exact ⟨reading_interval_iff (by omega) (by omega) (by omega) hle hshort,
    reading_interval_iff (by omega) (by omega) (by omega) hle hshort⟩

/-- A second at the default frequency, over a wrap. -/
theorem interval_right_second :
    (IntervalRight STM_HZ (tcMicros STM_HZ) 1000000 0xFFFFFF00 (0xFFFFFF00 + 50300000) ↔
      0xFFFFFF00 / 2 ^ 32 = (0xFFFFFF00 + 50300000) / 2 ^ 32) ∧
    (IntervalRight STM_HZ (tcMillis STM_HZ) 1000 0xFFFFFF00 (0xFFFFFF00 + 50300000) ↔
      0xFFFFFF00 / 2 ^ 32 = (0xFFFFFF00 + 50300000) / 2 ^ 32) :=
  interval_right_iff STM_HZ (by decide) 0xFFFFFF00 (0xFFFFFF00 + 50300000) (by decide) (by decide)

/-- The last tick before the wrap, and the wrap. -/
theorem wrap_breaks_interval : ¬ ∀ c₁ c₂, c₁ ≤ c₂ → c₂ - c₁ < 2 ^ 32 →
    IntervalRight STM_HZ (tcMicros STM_HZ) 1000000 c₁ c₂ ∧
      IntervalRight STM_HZ (tcMillis STM_HZ) 1000 c₁ c₂ := by
  intro hall
  obtain ⟨hmicros, -⟩ := hall 0xFFFFFFFF 0x100000000 (by decide) (by decide)
  have hnear := hmicros _ _ _ _ (reading_run STM_HZ 1000000 0xFFFFFFFF)
    (reading_run STM_HZ 1000000 0x100000000)
  exact absurd hnear (by decide)

end OpenTricore.Timing
