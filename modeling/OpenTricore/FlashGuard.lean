import OpenTricore.Tcmcd

/-! What keeps the flash commands inside PFLASH. `tcmcd_flash_erase` and
`tcmcd_flash_program` share the check `flash_range_ok`, whose sum is taken
modulo `2^64`. Here it is shown which ranges the check lets through, and that
the commands stay inside the window exactly when none of them wraps. -/

namespace OpenTricore
open Lib Lib.Prog

/-! ## Targets of flash commands -/

/-- The target of the command that a bus access announces, if it is one: the
value written at `FCMD_BASE | 0xaa50`. -/
def commandTarget : Event BusSig → Option UInt32
  | ⟨.write _ a v, _⟩ => if a.address = fcmd 0xaa50 then some v else none
  | ⟨.read .., _⟩ => none

def isWrite : Event BusSig → Bool
  | ⟨.write .., _⟩ => true
  | ⟨.read .., _⟩ => false

def InPflash (v : UInt32) : Prop := FLASH_MIN ≤ v ∧ v < FLASH_MAX

instance (v : UInt32) : Decidable (InPflash v) := by unfold InPflash; infer_instance

/-- The range `[addr, addr + len)`, taken without wrap-around, lies in PFLASH. -/
def InWindow (addr len : Nat) : Prop :=
  ∀ x, addr ≤ x → x < addr + len → FLASH_MIN.toNat ≤ x ∧ x < FLASH_MAX.toNat

/-- Every command so far has a target in `P`. -/
def TargetsIn (P : UInt32 → Prop) (tr : List (Event BusSig)) : Prop :=
  ∀ e ∈ tr, ∀ v, commandTarget e = some v → P v

/-- The flash guard for a call on `[addr, addr + len)`, whatever the bus answers:
commands only inside PFLASH, and none at all for a range that leaves it. -/
def Guarded (p : Bus Int) (addr len : Nat) : Prop :=
  ∀ x tr, Runs anything p [] x tr →
    TargetsIn InPflash tr ∧
      (¬ InWindow addr len → x = .ok (-1) ∧ ∀ e ∈ tr, isWrite e = false)

/-- `flash_range_ok` accepts the range although its end is past `2^64`. -/
def GuardWraps (addr len : Nat) : Prop :=
  FLASH_MIN.toNat ≤ addr ∧ 2 ^ 64 ≤ addr + len ∧ addr + len - 2 ^ 64 ≤ FLASH_MAX.toNat

theorem flashRangeOk_iff (addr len : UInt64) :
    flashRangeOk addr len = true ↔
      0xA0000000 ≤ addr.toNat ∧ (addr.toNat + len.toNat) % 2 ^ 64 ≤ 0xA1400000 := by
  simp [flashRangeOk, FLASH_MIN, FLASH_MAX, UInt64.le_iff_toNat_le, UInt64.toNat_add]

/-- What the check lets through is inside the window, or wraps. -/
theorem flashRangeOk_cases (addr len : UInt64) (h : flashRangeOk addr len = true) :
    (0xA0000000 ≤ addr.toNat ∧ addr.toNat + len.toNat ≤ 0xA1400000) ∨
      GuardWraps addr.toNat len.toNat := by
  rw [flashRangeOk_iff] at h
  have ha := addr.toNat_lt
  have hl := len.toNat_lt
  simp only [GuardWraps, FLASH_MIN, FLASH_MAX, UInt32.reduceToNat]
  omega

theorem inWindow_of_bounds {addr len : Nat} (h : 0xA0000000 ≤ addr ∧ addr + len ≤ 0xA1400000) :
    InWindow addr len := by
  intro x hx hx'
  simp only [FLASH_MIN, FLASH_MAX, UInt32.reduceToNat]
  omega

theorem not_inWindow_of_wraps {addr len : Nat} (ha : addr < 2 ^ 64) (h : GuardWraps addr len) :
    ¬ InWindow addr len := by
  intro hw
  obtain ⟨-, h2, -⟩ := h
  have := (hw (2 ^ 64 - 1) (by omega) (by omega)).2
  simp [FLASH_MAX] at this

/-! ## The command sequences -/

section targets
variable {P : UInt32 → Prop} {tr : List (Event BusSig)}

theorem targets_snoc (h : TargetsIn P tr) {e : Event BusSig}
    (he : ∀ v, commandTarget e = some v → P v) : TargetsIn P (tr ++ [e]) := by
  intro e' he'
  rcases List.mem_append.mp he' with h' | h'
  · exact h e' h'
  · rw [List.mem_singleton.mp h']; exact he

/-- Every outcome of `p` leaves all targets so far in `P`. -/
abbrev KeepsTargets (P : UInt32 → Prop) {α : Type} (p : Bus α) (tr : List (Event BusSig)) : Prop :=
  p.wp anything (fun _ tr => TargetsIn P tr) (fun _ tr => TargetsIn P tr) tr

theorem w32_targets (t : Target) (a : UInt64) (v : UInt32) (h : TargetsIn P tr)
    (hv : a = fcmd 0xaa50 → P v) : KeepsTargets P (w32 t a v) tr := by
  simp only [KeepsTargets, w32, wp_bind, wp_xferW]
  rintro r _ rfl
  have he := targets_snoc h (e := ⟨.write t.core ⟨a, t.msid⟩ v, r⟩) (by
    intro v' hv'
    simp only [commandTarget] at hv'
    split at hv'
    · cases hv'; exact hv (by assumption)
    · cases hv')
  cases r <;> exact he

theorem w32Any_targets (t : Target) (ws : List (UInt64 × UInt32)) (h : TargetsIn P tr)
    (hws : ∀ w ∈ ws, w.1 = fcmd 0xaa50 → P w.2) : KeepsTargets P (w32Any t ws) tr := by
  apply wp_w32Any anything t ws (fun _ tr => TargetsIn P tr) ?_ (fun _ h => h) tr h
  rintro done w rest hdone tr h r _ rfl
  have hw := hws w (by simp [hdone])
  have he := targets_snoc h (e := ⟨.write t.core ⟨w.1, t.msid⟩ w.2, r⟩) (by
    intro v hv
    simp only [commandTarget] at hv
    split at hv
    · cases hv; exact hw (by assumption)
    · cases hv)
  split <;> exact he

theorem flashCommand_targets (t : Target) (ws : List (UInt64 × UInt32)) (h : TargetsIn P tr)
    (hws : ∀ w ∈ ws, w.1 = fcmd 0xaa50 → P w.2) : KeepsTargets P (flashCommand t ws) tr := by
  apply wp_flashCommand anything t ws (fun _ => TargetsIn P) ?_ (fun _ h => h) tr
    (w32Any_targets t ws h hws)
  rintro _ tr r _ h rfl
  exact targets_snoc h fun v hv => by simp [commandTarget] at hv

end targets

/-! ## A bus on which everything succeeds -/

/-- Every transfer succeeds and every read gives zero, so no flash is ever busy. -/
def answerOk : (o : BusOp) → BusSig.Res o
  | .read .. => some (0 : UInt32)
  | .write .. => true

abbrev succeeding : Env BusSig (List (Event BusSig)) := answering answerOk

/-- A call that does not answer -1 on a working bus is not guarded on a range
that leaves the window. -/
theorem not_guarded_of_succeeding (p : Bus Int) (addr len : Nat) (hw : ¬ InWindow addr len)
    (hp : p.wp succeeding (fun a _ => a ≠ -1) (fun _ _ => True) []) : ¬ Guarded p addr len := by
  intro hg
  have hr := runs_answering answerOk p
  have hx := ((hg _ _ (runs_anything_of_answering hr)).2 hw).1
  exact (hr.sound _ hp).1 _ hx rfl

theorem succeeding_never_fails : NeverFails succeeding where
  write := by
    rintro _ _ _ _ _ _ ⟨rfl, -⟩
    rfl
  ready := by
    rintro _ _ _ _ _ ⟨rfl, -⟩
    exact ⟨0, rfl, rfl⟩

/-! ## Erasing -/

theorem fcmd_ne :
    fcmd 0x5554 ≠ fcmd 0xaa50 ∧ fcmd 0x55f4 ≠ fcmd 0xaa50 ∧ fcmd 0xaa58 ≠ fcmd 0xaa50 ∧
      fcmd 0xaaa8 ≠ fcmd 0xaa50 := by decide

theorem inPflash_toUInt32 (s : UInt64) (h : 0xA0000000 ≤ s.toNat ∧ s.toNat < 0xA1400000) :
    InPflash s.toUInt32 := by
  simp only [InPflash, FLASH_MIN, FLASH_MAX, UInt32.le_iff_toNat_le, UInt32.lt_iff_toNat_lt,
    UInt64.toNat_toUInt32, UInt32.reduceToNat]
  omega

theorem eraseSector_targets {P : UInt32 → Prop} (t : Target) (s : UInt32) (hs : P s)
    {tr : List (Event BusSig)} (h : TargetsIn P tr) : KeepsTargets P (eraseSector t s) tr := by
  have hws : ∀ w ∈ eraseCycles s, w.1 = fcmd 0xaa50 → P w.2 := by
    simp [eraseCycles, fcmd_ne, hs]
  exact flashCommand_targets t (eraseCycles s) h hws

theorem erase_targets (t : Target) (addr len : UInt64)
    (h : 0xA0000000 ≤ addr.toNat ∧ addr.toNat + len.toNat ≤ 0xA1400000) :
    KeepsTargets InPflash (tcmcdFlashErase t addr len) [] := by
  have hend : (addr + len).toNat = addr.toNat + len.toNat := by
    rw [UInt64.toNat_add]; omega
  have hs0 : (addr &&& ~~~(TCMCD_FLASH_SECTOR - 1).toUInt64).toNat = addr.toNat / 2 ^ 14 * 2 ^ 14 :=
    toNat_and_not addr _ 14 (by omega) rfl
  simp only [tcmcdFlashErase, KeepsTargets]
  split
  · exact List.forall_mem_nil _
  -- every sector the loop visits starts in the window
  refine wp_loop_partial (X := fun _ tr => TargetsIn InPflash tr) _
    (fun (s : UInt64) tr => 0xA0000000 ≤ s.toNat ∧ TargetsIn InPflash tr) _ _ ?_
    (fun _ _ h => h.2) _ (addr &&& ~~~(TCMCD_FLASH_SECTOR - 1).toUInt64) _
    ⟨by omega, List.forall_mem_nil _⟩
  rintro s tr ⟨hs, htr⟩
  split
  · rename_i hlt
    have hlt' : s.toNat < addr.toNat + len.toNat := hend ▸ UInt64.lt_iff_toNat_lt.mp hlt
    rw [wp_bind]
    refine wp_mono _ ?_ (fun _ _ h => h)
      (eraseSector_targets t _ (inPflash_toUInt32 s ⟨hs, by omega⟩) htr)
    intro failed tr' htr'
    split
    · exact htr'
    · refine ⟨?_, htr'⟩
      rw [UInt64.toNat_add, show TCMCD_FLASH_SECTOR.toUInt64.toNat = 0x4000 from rfl]
      omega
  · exact htr

/-- Where the check accepts, a working bus is never answered by -1. -/
theorem erase_succeeding (t : Target) (addr len : UInt64) (h : flashRangeOk addr len = true) :
    (tcmcdFlashErase t addr len).wp succeeding (fun a _ => a ≠ -1) (fun _ _ => True) [] := by
  simp only [tcmcdFlashErase, h, Bool.not_true, Bool.false_eq_true, ↓reduceIte]
  refine wp_loop_partial _ (fun _ _ => True) _ _ ?_ (fun _ _ _ => trivial) _ _ _ trivial
  intro s tr _
  split
  · rw [wp_bind]
    refine wp_mono _ ?_ (fun _ _ h => h) (succeeding_never_fails.eraseSector_ok t _ tr)
    rintro _ tr' rfl
    trivial
  · exact (by decide : (0 : Int) ≠ -1)

/-! ## Programming -/

theorem pageCycles_target (data : Nat → UInt8) (len off target : UInt32) :
    ∀ w ∈ pageCycles data len off target, w.1 = fcmd 0xaa50 → w.2 = target := by
  simp only [pageCycles, List.forall_mem_append]
  refine ⟨⟨?_, ?_⟩, ?_⟩
  · simp [enterPageCycles, fcmd_ne]
  · intro w hw ha
    obtain ⟨i, -, rfl⟩ := List.mem_map.mp hw
    exact absurd ha fcmd_ne.2.1
  · simp [writePageCycles, fcmd_ne]

theorem programPage_targets {P : UInt32 → Prop} (t : Target) (addr : UInt64) (data : Nat → UInt8)
    (len off : UInt32) (hp : P (addr + off.toUInt64).toUInt32)
    {tr : List (Event BusSig)} (h : TargetsIn P tr) :
    KeepsTargets P (programPage t addr data len off) tr := by
  have hws : ∀ w ∈ pageCycles data len off (addr + off.toUInt64).toUInt32,
      w.1 = fcmd 0xaa50 → P w.2 := by
    intro w hw ha
    rw [pageCycles_target data len off _ w hw ha]
    exact hp
  rw [KeepsTargets, programPage_eq]
  exact flashCommand_targets t _ h hws

theorem program_refused (t : Target) (addr : UInt64) (data : Nat → UInt8) (len : UInt32)
    (h : flashRangeOk addr len.toUInt64 = false ∨ addr &&& (FPAGE - 1).toUInt64 ≠ 0) :
    tcmcdFlashProgram t addr data len = .ret (-1) := by
  have hcheck : (!flashRangeOk addr len.toUInt64 ||
      decide (addr &&& (FPAGE - 1).toUInt64 ≠ 0)) = true := by
    rcases h with h | h
    · simp only [h, Bool.not_false, Bool.true_or]
    · simp only [ne_eq, h, not_false_eq_true, decide_true, Bool.or_true]
  rw [tcmcdFlashProgram, if_pos hcheck]
  rfl

/-- The targets are the pages of the range. -/
theorem program_targets {P : UInt32 → Prop} (t : Target) (addr : UInt64) (data : Nat → UInt8)
    (len : UInt32)
    (hpages : ∀ off < len, off.toNat % 32 = 0 → P (addr + off.toUInt64).toUInt32) :
    KeepsTargets P (tcmcdFlashProgram t addr data len) [] := by
  simp only [tcmcdFlashProgram, KeepsTargets]
  split
  · exact List.forall_mem_nil _
  rw [wp_bind]
  refine wp_loop_partial (X := fun _ tr => TargetsIn P tr) _
    (fun (off : UInt32) tr => off.toNat % 32 = 0 ∧ TargetsIn P tr) _ _ ?_
    (fun _ _ h => h.2) _ 0 _ ⟨rfl, List.forall_mem_nil _⟩
  rintro off tr ⟨hoff, htr⟩
  split
  · rename_i hlt
    rw [wp_bind]
    refine wp_mono _ ?_ (fun _ _ h => h)
      (programPage_targets t addr data len off (hpages off hlt hoff) htr)
    intro failed tr' htr'
    split
    · exact htr'
    · refine ⟨?_, htr'⟩
      rw [UInt32.toNat_add, show FPAGE.toNat = 32 from rfl]
      omega
  · simp only [pure_eq, wp_ret, ne_eq, not_true_eq_false, ↓reduceIte, wp_bind]
    exact w32_targets t (fcmd 0x5554) 0xf0 htr (fun ha => absurd ha fcmd_ne.1)

/-- The pages of a range in the window are in the window. -/
theorem page_inPflash (addr : UInt64) (len : UInt32)
    (h : 0xA0000000 ≤ addr.toNat ∧ addr.toNat + len.toNat ≤ 0xA1400000) (off : UInt32)
    (hlt : off < len) : InPflash (addr + off.toUInt64).toUInt32 := by
  have hlt' : off.toNat < len.toNat := UInt32.lt_iff_toNat_lt.mp hlt
  apply inPflash_toUInt32
  rw [UInt64.toNat_add, UInt32.toNat_toUInt64]
  omega

theorem program_succeeding (t : Target) (addr : UInt64) (data : Nat → UInt8) (len : UInt32)
    (h : flashRangeOk addr len.toUInt64 = true) (ha : addr &&& (FPAGE - 1).toUInt64 = 0) :
    (tcmcdFlashProgram t addr data len).wp succeeding (fun a _ => a ≠ -1) (fun _ _ => True)
      [] := by
  simp only [tcmcdFlashProgram, h, ha, Bool.not_true, ne_eq, not_true_eq_false, decide_false,
    Bool.or_self, Bool.false_eq_true, ↓reduceIte, wp_bind]
  refine wp_loop_partial _ (fun _ _ => True) _ _ ?_ (fun _ _ _ => trivial) _ _ _ trivial
  intro off tr _
  split
  · rw [wp_bind]
    refine wp_mono _ ?_ (fun _ _ h => h)
      (succeeding_never_fails.programPage_ok t addr data len off tr)
    rintro _ tr' rfl
    trivial
  · simp only [pure_eq, wp_ret, not_true_eq_false, ↓reduceIte, wp_bind]
    exact wp_mono _ (fun _ _ _ => (by decide : (0 : Int) ≠ -1)) (fun _ _ h => h)
      (succeeding_never_fails.w32_ok t _ _ tr)

/-! ## Returning -/

theorem w32Any_returns (t : Target) (ws : List (UInt64 × UInt32)) : (w32Any t ws).Returns := by
  apply wp_w32Any everything t ws (fun _ _ => True) ?_ (fun _ _ => trivial) () trivial
  intro done w rest _ s _ r s' _
  split <;> trivial

theorem flashWaitLoop_returns (t : Target) (n : Nat) : (flashWaitLoop t n).Returns :=
  wp_flashWaitLoop everything t n (fun _ => True) (fun _ _ _ _ _ => trivial) () trivial

theorem flashCommand_returns (t : Target) (ws : List (UInt64 × UInt32)) :
    (flashCommand t ws).Returns := by
  refine FailsIn.bind (w32Any_returns t _) fun failed => ?_
  cases failed with
  | true => exact failsIn_ret _
  | false => exact FailsIn.bind (flashWaitLoop_returns t _) fun rc => failsIn_ret _

theorem eraseSector_returns (t : Target) (s : UInt32) : (eraseSector t s).Returns :=
  flashCommand_returns t (eraseCycles s)

theorem programPage_returns (t : Target) (addr : UInt64) (data : Nat → UInt8) (len off : UInt32) :
    (programPage t addr data len off).Returns := by
  rw [programPage_eq]
  exact flashCommand_returns t _

/-- `tcmcd_flash_erase` returns for every range, also where the check has wrapped. -/
theorem tcmcdFlashErase_returns (t : Target) (addr len : UInt64) :
    (tcmcdFlashErase t addr len).Returns := by
  unfold tcmcdFlashErase
  cases hok : flashRangeOk addr len with
  | false => exact failsIn_ret _
  | true =>
    have hend := ((flashRangeOk_iff addr len).mp hok).2
    rw [← UInt64.toNat_add] at hend
    simp only [Bool.not_true, Bool.false_eq_true, ↓reduceIte]
    refine returns_loop (fun _ => True) (fun s => (addr + len).toNat + 0x4000 - s.toNat) _ _ ?_ _ _
      trivial (by omega)
    intro s _
    split
    · rename_i hlt
      rw [UInt64.lt_iff_toNat_lt] at hlt
      rw [wp_bind]
      refine wp_mono _ ?_ (fun _ _ h => h) (eraseSector_returns t _)
      intro failed _ _
      cases failed with
      | true => trivial
      | false =>
        have hnext : (s + TCMCD_FLASH_SECTOR.toUInt64).toNat = s.toNat + 0x4000 := by
          rw [UInt64.toNat_add, show TCMCD_FLASH_SECTOR.toUInt64.toNat = 0x4000 from rfl]
          omega
        simp only [Bool.false_eq_true, ↓reduceIte, pure_eq, wp_ret, true_and, hnext]
        omega
    · trivial

/-- `tcmcd_flash_program` returns, or its offset wraps for ever. -/
theorem tcmcdFlashProgram_failsIn (t : Target) (addr : UInt64) (data : Nat → UInt8) (len : UInt32) :
    (tcmcdFlashProgram t addr data len).FailsIn (· = .hang) := by
  unfold tcmcdFlashProgram
  split
  · exact failsIn_ret _
  · refine FailsIn.bind (failsIn_loop (X := (· = Abort.hang)) _ rfl _ (fun off => ?_) _ _) fun rc =>
      ?_
    · split
      · refine FailsIn.bind ((programPage_returns t addr data len off).mono fun _ h => h.elim) ?_
        intro failed
        cases failed <;> exact failsIn_ret _
      · exact failsIn_ret _
    · split
      · exact failsIn_ret _
      · refine FailsIn.bind (FailsIn.bind (failsIn_perform _) fun ok => ?_) fun _ => failsIn_ret _
        cases ok <;> exact failsIn_ret _

/-! ## The guard -/

theorem guarded_of_inside {p : Bus Int} {addr len : Nat}
    (h : 0xA0000000 ≤ addr ∧ addr + len ≤ 0xA1400000) (hp : KeepsTargets InPflash p []) :
    Guarded p addr len := by
  intro x tr hr
  have hs := hr.sound _ hp
  refine ⟨?_, fun hw => absurd (inWindow_of_bounds h) hw⟩
  cases x with
  | ok a => exact hs.1 a rfl
  | error e => exact hs.2 e rfl

theorem guarded_of_refused (addr len : Nat) : Guarded (.ret (-1)) addr len := by
  rintro x tr ⟨⟩
  exact ⟨List.forall_mem_nil _, fun _ => ⟨rfl, List.forall_mem_nil _⟩⟩

/-- The flash commands stay inside PFLASH, and a range that leaves PFLASH is
refused without any command, exactly for the calls whose range the check does
not accept with a wrapped end. A misaligned page address refuses those too. -/
theorem flash_guarded_iff (t : Target) (addr : UInt64) :
    (∀ len : UInt64, Guarded (tcmcdFlashErase t addr len) addr.toNat len.toNat ↔
      ¬ GuardWraps addr.toNat len.toNat) ∧
    (∀ (data : Nat → UInt8) (len : UInt32),
      Guarded (tcmcdFlashProgram t addr data len) addr.toNat len.toNat ↔
        ¬ (GuardWraps addr.toNat len.toNat ∧ addr.toNat % 32 = 0)) := by
  have haligned : addr &&& (FPAGE - 1).toUInt64 = 0 ↔ addr.toNat % 32 = 0 := by
    rw [← UInt64.toNat_inj, toNat_and_mask addr _ 5 rfl]; rfl
  have hok : ∀ len : UInt64, GuardWraps addr.toNat len.toNat → flashRangeOk addr len = true := by
    intro len h
    rw [flashRangeOk_iff]
    have := addr.toNat_lt
    have := len.toNat_lt
    simp only [GuardWraps, FLASH_MIN, FLASH_MAX, UInt32.reduceToNat] at h
    omega
  refine ⟨fun len => ⟨fun hg hw => ?_, fun hw => ?_⟩, fun data len => ⟨?_, fun hw => ?_⟩⟩
  · exact not_guarded_of_succeeding _ _ _ (not_inWindow_of_wraps addr.toNat_lt hw)
      (erase_succeeding t addr len (hok len hw)) hg
  · cases h : flashRangeOk addr len with
    | true =>
      have hin := (flashRangeOk_cases addr len h).resolve_right hw
      exact guarded_of_inside hin (erase_targets t addr len hin)
    | false =>
      simpa [tcmcdFlashErase, h] using guarded_of_refused addr.toNat len.toNat
  · rintro hg ⟨hw, ha⟩
    exact not_guarded_of_succeeding _ _ _ (not_inWindow_of_wraps addr.toNat_lt hw)
      (program_succeeding t addr data len (hok len.toUInt64 (by simpa using hw))
        (haligned.mpr ha)) hg
  · cases h : flashRangeOk addr len.toUInt64 with
    | true =>
      by_cases ha : addr &&& (FPAGE - 1).toUInt64 = 0
      · have hw' : ¬ GuardWraps addr.toNat len.toNat := fun h' => hw ⟨h', haligned.mp ha⟩
        have hin := (flashRangeOk_cases addr len.toUInt64 h).resolve_right (by simpa using hw')
        exact guarded_of_inside (by simpa using hin)
          (program_targets t addr data len fun off hlt _ =>
            page_inPflash addr len (by simpa using hin) off hlt)
      · rw [program_refused t addr data len (.inr ha)]
        exact guarded_of_refused _ _
    | false =>
      rw [program_refused t addr data len (.inl h)]
      exact guarded_of_refused _ _

/-- Every write succeeds and every read fails, so the first status poll does. -/
def answerWrites : (o : BusOp) → BusSig.Res o
  | .read .. => none
  | .write .. => true

/-- A range that starts in the UCB region and wraps is let through, and the
first page-write command goes to the UCB. -/
theorem ucb_page_programmed :
    ¬ Guarded (tcmcdFlashProgram ⟨0, 0⟩ 0xFFFFFFFFAE000000 (fun _ => 0) 0x52000000)
      0xFFFFFFFFAE000000 0x52000000 := by
  intro hg
  have hr := runs_anything_of_answering (runs_answering answerWrites
    (tcmcdFlashProgram ⟨0, 0⟩ 0xFFFFFFFFAE000000 (fun _ => 0) 0x52000000))
  have ht := (hg _ _ hr).1 ⟨.write 0 ⟨fcmd 0xaa50, 0⟩ 0xAE000000, true⟩
    (List.mem_of_getElem? (i := 10) rfl) 0xAE000000 rfl
  exact absurd ht (by decide)

end OpenTricore
