import OpenTricore.FlashCommands

/-! Page mode after programming. `tcmcd_flash_program` follows its last page with the
return to read mode, and every early return skips it: the flash is in read mode
afterwards exactly when the write that failed, if one did, was itself a switch of the
mode. The data flash driver of the BSP returns to read mode on each of its exits. -/

namespace OpenTricore
open Lib Lib.Prog

namespace PageMode

/-! ## What a run has written -/

/-- The flash, and the bus accesses so far. -/
abbrev State := FlashHw × List (Event BusSig)

/-- The write `w` with its answer. -/
def answered (t : Target) (w : UInt64 × UInt32) (r : Bool) : Event BusSig :=
  ⟨.write t.core ⟨w.1, t.msid⟩ w.2, r⟩

@[simp] theorem answered_inj {t : Target} {w w' : UInt64 × UInt32} {r r' : Bool} :
    answered t w r = answered t w' r' ↔ w = w' ∧ r = r' := by
  obtain ⟨a, v⟩ := w
  obtain ⟨a', v'⟩ := w'
  constructor
  · intro h
    cases h
    exact ⟨rfl, rfl⟩
  · rintro ⟨h, rfl⟩
    cases h
    rfl

theorem mem_answered {t : Target} {ws : List (UInt64 × UInt32)} {w : UInt64 × UInt32}
    {r r' : Bool} :
    answered t w r ∈ ws.map (answered t · r') ↔ w ∈ ws ∧ r = r' := by
  simp only [List.mem_map, answered_inj]
  constructor
  · rintro ⟨w', hw', rfl, rfl⟩
    exact ⟨hw', rfl⟩
  · rintro ⟨hw, rfl⟩
    exact ⟨w, hw, rfl, rfl⟩

/-- Clear the status. -/
def clearStatus : UInt64 × UInt32 := (fcmd 0x5554, 0xFA)

/-- The switch to page mode. -/
def enterPage : UInt64 × UInt32 := (fcmd 0x5554, 0x50)

/-- The switch back to read mode. -/
def readMode : UInt64 × UInt32 := (fcmd 0x5554, 0xf0)

section
variable (t : Target)

/-- No write failed but those that switch the mode. -/
def OnlySwitchesFailed (tr : List (Event BusSig)) : Prop :=
  ∀ w, answered t w false ∈ tr → w.1 = fcmd 0x5554

/-- The accesses `tr` leave flash that was in the state `hw` in read mode: it was
switched back; or it was in read mode and not switched; or the pages were written
whole, on flash with no half command pending. -/
def LeavesPageMode (hw : FlashHw) (tr : List (Event BusSig)) : Prop :=
  answered t readMode true ∈ tr ∨
  (answered t enterPage true ∉ tr ∧ hw.page = none) ∨
  (answered t enterPage true ∈ tr ∧ hw.opcode = none ∧ OnlySwitchesFailed t tr)

/-- The writes up to the first that fails have their effect. -/
theorem w32Any_recorded (ws : List (UInt64 × UInt32)) (hw : FlashHw) (tr : List (Event BusSig)) :
    (w32Any t ws).wp (recorded flashHw) (fun failed s =>
      (failed = false ∧ s = (hw.writes ws, tr ++ ws.map (answered t · true))) ∨
      (failed = true ∧ ∃ done w rest, ws = done ++ w :: rest ∧
        s = (hw.writes done, tr ++ done.map (answered t · true) ++ [answered t w false])))
      (fun _ _ => False) (hw, tr) := by
  apply wp_w32Any (recorded flashHw) t ws
    (fun done s => s = (hw.writes done, tr ++ done.map (answered t · true))) ?_
    (fun s h => .inl ⟨rfl, h⟩) (hw, tr) (by simp [FlashHw.writes])
  rintro done w rest hws _ rfl r ⟨hw', tr'⟩ ⟨hr, htr⟩
  dsimp only at hr htr
  subst htr
  obtain ⟨rfl, rfl⟩ | ⟨rfl, rfl⟩ := hr
  · simp [FlashHw.writes, answered]
  · exact .inr ⟨rfl, done, w, rest, hws, rfl⟩

/-- Waiting writes nothing. -/
theorem flashWaitLoop_recorded (n : Nat) (s : State) :
    (flashWaitLoop t n).wp (recorded flashHw) (fun _ s' =>
      s'.1 = s.1 ∧ ∀ w r, answered t w r ∈ s'.2 ↔ answered t w r ∈ s.2) (fun _ _ => False) s := by
  apply wp_flashWaitLoop (recorded flashHw) t n (fun s' : State => s'.1 = s.1 ∧
    ∀ w r, answered t w r ∈ s'.2 ↔ answered t w r ∈ s.2) ?_ s ⟨rfl, fun _ _ => Iff.rfl⟩
  rintro s₁ r ⟨hw', tr'⟩ ⟨hhw, hin⟩ ⟨hr, htr⟩
  dsimp only at htr
  refine ⟨hr.trans hhw, fun w r' => ?_⟩
  rw [htr, List.mem_append, ← hin, or_iff_left]
  intro hread
  cases List.mem_singleton.mp hread

end

/-! ## The mode after some of the cycles of a page -/

/-- Page mode is left at `0x5554`, or by the second half of a command. -/
theorem write_page (hw : FlashHw) (a : UInt64) (v : UInt32) (ha : a ≠ fcmd 0x5554)
    (hv : a = fcmd 0xaaa8 → v ≠ 0xaa) : (hw.write a v).page.isSome = hw.page.isSome := by
  simp only [FlashHw.write, if_neg ha]
  split
  · simp
  · split
    · rfl
    · split
      · rename_i h
        cases hop : hw.opcode with
        | none => rfl
        | some op =>
          have hne : ¬ (op = 0xa0 ∧ v = 0xaa) := fun hop => hv h hop.2
          simp only [FlashHw.command, if_neg hne]
          split <;> rfl
      · rfl

theorem writes_page (ws : List (UInt64 × UInt32)) (hw : FlashHw)
    (h : ∀ w ∈ ws, w.1 ≠ fcmd 0x5554 ∧ (w.1 = fcmd 0xaaa8 → w.2 ≠ 0xaa)) :
    (hw.writes ws).page.isSome = hw.page.isSome := by
  induction ws generalizing hw with
  | nil => rfl
  | cons w ws ih =>
    obtain ⟨hw', hws⟩ := List.forall_mem_cons.mp h
    exact (ih _ hws).trans (write_page hw w.1 w.2 hw'.1 hw'.2)

section
variable (data : Nat → UInt8) (len off target : UInt32)

/-- The cycles behind the switch to page mode. -/
def fillPageCycles : List (UInt64 × UInt32) := loadPageCycles data len off ++ writePageCycles target

theorem fillPageCycles_address :
    ∀ w ∈ fillPageCycles data len off target, w.1 ≠ fcmd 0x5554 := by
  intro w hw
  obtain hload | hwrite := List.mem_append.mp hw
  · obtain ⟨i, -, rfl⟩ := List.mem_map.mp hload
    simp [fcmd_values]
  · simp only [writePageCycles, List.mem_cons, List.not_mem_nil, or_false] at hwrite
    rcases hwrite with rfl | rfl | rfl | rfl <;> simp [fcmd_values]

/-- Short of the last cycle, the page is not written. -/
theorem fillPageCycles_unfinished (w : UInt64 × UInt32)
    (hw : w ∈ (fillPageCycles data len off target).dropLast) :
    w.1 = fcmd 0xaaa8 → w.2 ≠ 0xaa := by
  rw [fillPageCycles, List.dropLast_append_of_ne_nil (by simp [writePageCycles])] at hw
  obtain hload | hwrite := List.mem_append.mp hw
  · obtain ⟨i, -, rfl⟩ := List.mem_map.mp hload
    simp [fcmd_values]
  · simp only [writePageCycles, List.dropLast, List.mem_cons, List.not_mem_nil, or_false] at hwrite
    rcases hwrite with rfl | rfl | rfl <;> simp [fcmd_values]

theorem pageCycles_cons :
    pageCycles data len off target =
      clearStatus :: enterPage :: fillPageCycles data len off target := by
  simp [pageCycles, enterPageCycles, clearStatus, enterPage, fillPageCycles]

/-- Where a page can be given up: at the first cycle, at the switch to page mode, or
behind it. -/
theorem pageCycles_split {done rest : List (UInt64 × UInt32)} {w : UInt64 × UInt32}
    (h : pageCycles data len off target = done ++ w :: rest) :
    (done = [] ∧ w = clearStatus) ∨ (done = [clearStatus] ∧ w = enterPage) ∨
      ∃ done', done = clearStatus :: enterPage :: done' ∧
        fillPageCycles data len off target = done' ++ w :: rest := by
  rw [pageCycles_cons] at h
  cases done with
  | nil => exact .inl ⟨rfl, (List.cons.inj h).1.symm⟩
  | cons c done =>
    obtain ⟨hc, h⟩ := List.cons.inj h
    cases done with
    | nil => exact .inr (.inl ⟨by rw [hc], (List.cons.inj h).1.symm⟩)
    | cons c' done =>
      obtain ⟨hc', h⟩ := List.cons.inj h
      exact .inr (.inr ⟨done, by rw [hc, hc'], h⟩)

/-- Stopped behind the switch, and before the last cycle: page mode. -/
theorem stopped_page {done rest : List (UInt64 × UInt32)} {w : UInt64 × UInt32}
    (h : fillPageCycles data len off target = done ++ w :: rest) (hw : FlashHw) :
    (hw.writes (clearStatus :: enterPage :: done)).page ≠ none := by
  have hdone : ∀ c ∈ done, c ∈ (fillPageCycles data len off target).dropLast := by
    intro c hc
    rw [h, List.dropLast_append_of_ne_nil (List.cons_ne_nil _ _)]
    exact List.mem_append_left _ hc
  have hkept := writes_page done (hw.writes [clearStatus, enterPage]) fun c hc =>
    ⟨fillPageCycles_address data len off target c (List.dropLast_subset _ (hdone c hc)),
      fillPageCycles_unfinished data len off target c (hdone c hc)⟩
  have hentered : (hw.writes [clearStatus, enterPage]).page = some [] := by
    simp [FlashHw.writes, clearStatus, enterPage, write_clear, write_enter]
  rw [hentered] at hkept
  intro hnone
  have hnone' : ((hw.writes [clearStatus, enterPage]).writes done).page = none := hnone
  rw [hnone'] at hkept
  cases hkept

/-- All cycles of a page: read mode, unless a half command was pending. -/
theorem written_page (hw : FlashHw) :
    ((hw.writes (pageCycles data len off target)).opcode = none ↔ hw.opcode = none) ∧
      ((hw.writes (pageCycles data len off target)).page = none ↔ hw.opcode = none) := by
  cases hop : hw.opcode with
  | none =>
    rw [FlashHw.writes, pageCycles_hw data len off target hw hop]
    simp [hop]
  | some op =>
    rw [FlashHw.writes, pageCycles, List.foldl_append, List.foldl_append]
    simp only [enterPageCycles, List.foldl_cons, List.foldl_nil, write_clear, write_enter]
    rw [loadPageCycles_hw _ _ _ _ rfl]
    simp only [writePageCycles, List.foldl_cons, List.foldl_nil, write_target, write_count]
    simp [FlashHw.write, FlashHw.command, fcmd_values, hop]

end

/-! ## Programming -/

section
variable (t : Target) (hw : FlashHw)

/-- Between two pages: nothing has failed, and the mode is the first one until a
page is written. -/
structure BetweenPages (s : State) : Prop where
  clean : ∀ w, answered t w false ∉ s.2
  notReset : answered t readMode true ∉ s.2
  opcode : s.1.opcode = none ↔ hw.opcode = none
  entered : answered t enterPage true ∈ s.2 → (s.1.page = none ↔ hw.opcode = none)
  first : answered t enterPage true ∉ s.2 → s.1.page = hw.page

/-- When page mode was left, and that a write of a page fails only in page mode. -/
structure Outcome (s : State) : Prop where
  mode : s.1.page = none ↔ LeavesPageMode t hw s.2
  failed : answered t readMode true ∈ s.2 ∨ answered t enterPage true ∉ s.2 →
    OnlySwitchesFailed t s.2

variable {t hw}

theorem BetweenPages.start : BetweenPages t hw (hw, []) :=
  ⟨by simp, by simp, Iff.rfl, by simp, fun _ => rfl⟩

/-- No other effect since, and only switches failed. -/
theorem BetweenPages.leaves {s : State} (h : BetweenPages t hw s) {hw' : FlashHw}
    {tr : List (Event BusSig)} (hhw : hw'.page = s.1.page) (honly : OnlySwitchesFailed t tr)
    (hread : answered t readMode true ∉ tr)
    (henter : answered t enterPage true ∈ tr ↔ answered t enterPage true ∈ s.2) :
    Outcome t hw (hw', tr) := by
  refine ⟨?_, fun _ => honly⟩
  dsimp only
  rw [LeavesPageMode, henter, hhw]
  by_cases hent : answered t enterPage true ∈ s.2
  · rw [h.entered hent]
    simp [hent, hread, honly]
  · rw [h.first hent]
    simp [hent, hread]

theorem BetweenPages.wait {s s' : State} (h : BetweenPages t hw s) (hhw : s'.1 = s.1)
    (htr : ∀ w r, answered t w r ∈ s'.2 ↔ answered t w r ∈ s.2) : BetweenPages t hw s' := by
  constructor
  · intro w
    rw [htr]
    exact h.clean w
  · rw [htr]
    exact h.notReset
  · rw [hhw]
    exact h.opcode
  · rw [htr, hhw]
    exact h.entered
  · rw [htr, hhw]
    exact h.first

theorem BetweenPages.onlySwitches {s : State} (h : BetweenPages t hw s) :
    OnlySwitchesFailed t s.2 := fun w hw => absurd hw (h.clean w)

variable (data : Nat → UInt8) (len off target : UInt32)

theorem readMode_notMem : readMode ∉ pageCycles data len off target := by
  rw [pageCycles_cons]
  intro hin
  rcases List.mem_cons.mp hin with hin | hin
  · cases hin
  · rcases List.mem_cons.mp hin with hin | hin
    · cases hin
    · exact fillPageCycles_address data len off target readMode hin rfl

/-- A page that is written whole. -/
theorem BetweenPages.written {s : State} (h : BetweenPages t hw s) :
    BetweenPages t hw (s.1.writes (pageCycles data len off target),
      s.2 ++ (pageCycles data len off target).map (answered t · true)) := by
  obtain ⟨hop, hpage⟩ := written_page data len off target s.1
  have hin : answered t enterPage true ∈
      s.2 ++ (pageCycles data len off target).map (answered t · true) := by
    rw [List.mem_append, mem_answered, pageCycles_cons]
    simp
  constructor
  · intro w hw
    obtain hw | hw := List.mem_append.mp hw
    · exact h.clean w hw
    · cases (mem_answered.mp hw).2
  · intro hread
    obtain hread | hread := List.mem_append.mp hread
    · exact h.notReset hread
    · exact readMode_notMem data len off target (mem_answered.mp hread).1
  · exact hop.trans h.opcode
  · exact fun _ => hpage.trans h.opcode
  · exact fun hnot => absurd hin hnot

/-- A page that is given up at the write `w`. -/
theorem BetweenPages.stopped {s : State} (h : BetweenPages t hw s)
    {done rest : List (UInt64 × UInt32)} {w : UInt64 × UInt32}
    (hws : pageCycles data len off target = done ++ w :: rest) :
    Outcome t hw (s.1.writes done,
      s.2 ++ done.map (answered t · true) ++ [answered t w false]) := by
  have hread : answered t readMode true ∉
      s.2 ++ done.map (answered t · true) ++ [answered t w false] := by
    simp only [List.mem_append, mem_answered, List.mem_singleton, answered_inj, not_or]
    refine ⟨⟨h.notReset, fun hin => readMode_notMem data len off target ?_⟩, by simp⟩
    rw [hws]
    exact List.mem_append_left _ hin.1
  have hfailed : ∀ c, answered t c false ∈
      s.2 ++ done.map (answered t · true) ++ [answered t w false] ↔ c = w := by
    intro c
    simp [mem_answered, h.clean c]
  obtain ⟨rfl, rfl⟩ | ⟨rfl, rfl⟩ | ⟨done, rfl, hfill⟩ := pageCycles_split data len off target hws
  · exact h.leaves rfl (fun c hc => congrArg Prod.fst ((hfailed c).mp hc)) hread
      (by simp)
  · have hclear : (s.1.writes [clearStatus]).page = s.1.page := by
      simp [FlashHw.writes, clearStatus, write_clear]
    exact h.leaves hclear (fun c hc => congrArg Prod.fst ((hfailed c).mp hc)) hread
      (by simp [enterPage, clearStatus])
  · -- behind the switch to page mode
    have hpage := stopped_page data len off target hfill s.1
    have hentered : answered t enterPage true ∈ s.2 ++
        (clearStatus :: enterPage :: done).map (answered t · true) ++ [answered t w false] := by
      simp
    refine ⟨⟨fun hnone => absurd hnone hpage, ?_⟩,
      fun hor => (hor.elim hread fun hnot => hnot hentered).elim⟩
    rintro (hin | ⟨hnot, -⟩ | ⟨-, -, honly⟩)
    · exact absurd hin hread
    · exact absurd hentered hnot
    · refine absurd (honly w ((hfailed w).mpr rfl))
        (fillPageCycles_address data len off target w ?_)
      rw [hfill]
      simp

theorem programPage_mode (addr : UInt64) {s : State} (h : BetweenPages t hw s) :
    (programPage t addr data len off).wp (recorded flashHw) (fun failed s' =>
      if failed then Outcome t hw s' else BetweenPages t hw s')
      (fun _ _ => False) s := by
  rw [programPage_eq, flashCommand, wp_bind]
  apply wp_mono _ ?_ (fun _ _ h => h) (w32Any_recorded t _ s.1 s.2)
  rintro failed s' (⟨rfl, rfl⟩ | ⟨rfl, done, w, rest, hws, rfl⟩)
  · have hwritten := h.written data len off (addr + off.toUInt64).toUInt32
    simp only [Bool.false_eq_true, ↓reduceIte, wp_bind]
    apply wp_mono _ ?_ (fun _ _ h => h) (flashWaitLoop_recorded t _ _)
    rintro rc s' ⟨hhw, htr⟩
    have hwait := hwritten.wait hhw htr
    simp only [pure_eq, wp_ret, decide_eq_true_eq]
    split
    · exact hwait.leaves rfl hwait.onlySwitches hwait.notReset Iff.rfl
    · exact hwait
  · exact h.stopped data len off _ hws

/-- The return to read mode. -/
theorem readMode_outcome {s : State} (h : BetweenPages t hw s) :
    (w32 t (fcmd 0x5554) 0xf0).wp (recorded flashHw) (fun _ s' => Outcome t hw s')
      (fun _ _ => False) s := by
  simp only [w32, wp_bind, wp_xferW]
  rintro r ⟨hw', tr⟩ ⟨hr, htr⟩
  have htr' : tr = s.2 ++ [answered t readMode r] := htr
  have honly : OnlySwitchesFailed t tr := by
    intro w hin
    rw [htr', List.mem_append, List.mem_singleton, answered_inj] at hin
    obtain hin | ⟨rfl, -⟩ := hin
    · exact absurd hin (h.clean w)
    · rfl
  obtain ⟨rfl, rfl⟩ | ⟨rfl, rfl⟩ := hr
  · refine ⟨?_, fun _ => honly⟩
    simp only [write_read, LeavesPageMode, true_iff]
    exact .inl (by simp [htr'])
  · refine h.leaves rfl honly ?_ ?_
    · simp [htr', h.notReset]
    · simp [htr']

theorem tcmcdFlashProgram_outcome (t : Target) (addr : UInt64) (data : Nat → UInt8) (len : UInt32)
    (h : RangeInWindow addr.toNat len.toNat) (hw : FlashHw) :
    (tcmcdFlashProgram t addr data len).wp (recorded flashHw)
      (fun rc s => (rc = 0 ∨ rc = -1) ∧ Outcome t hw s) (fun _ _ => False) (hw, []) := by
  have hstart : BetweenPages t hw (hw, []) := BetweenPages.start
  have hrule := wp_tcmcdFlashProgram (recorded flashHw) t addr data len h
    (fun _ s => BetweenPages t hw s) (Outcome t hw) (Outcome t hw) ?_ ?_ (hw, []) hstart ?_
  · apply wp_mono _ ?_ (fun _ _ h => h) hrule
    rintro rc s (⟨rfl, -, hJ⟩ | ⟨rfl, hR⟩)
    · exact ⟨.inl rfl, hJ⟩
    · exact ⟨.inr rfl, hR⟩
  · intro off s _ _ hs
    exact programPage_mode data len (UInt32.ofNat off) addr hs
  · exact fun s hs => readMode_outcome hs
  · exact fun _ => hstart.leaves rfl hstart.onlySwitches hstart.notReset Iff.rfl

end

/-! ## When the flash is back in read mode -/

/-- However the writes and the waits of a call go, it returns, and the flash is out of
page mode exactly if it was switched back, or never switched, or only a switch failed. -/
theorem page_mode_left_iff (t : Target) (addr : UInt64) (data : Nat → UInt8) (len : UInt32)
    (h : RangeInWindow addr.toNat len.toNat) (hw : FlashHw) (x : Except Abort Int) (s : State)
    (hrun : Runs (recorded flashHw) (tcmcdFlashProgram t addr data len) (hw, []) x s) :
    (x = .ok 0 ∨ x = .ok (-1)) ∧ (s.1.page = none ↔ LeavesPageMode t hw s.2) := by
  obtain ⟨hok, herr⟩ := hrun.sound _ (tcmcdFlashProgram_outcome t addr data len h hw)
  cases x with
  | error e => exact (herr e rfl).elim
  | ok rc =>
    obtain ⟨hrc, hs⟩ := hok rc rfl
    exact ⟨hrc.imp (congrArg _) (congrArg _), hs.mode⟩

/-- On flash in read mode, with no half command pending, the condition is that no write
failed but the switches of the mode. -/
theorem read_mode_iff (t : Target) (addr : UInt64) (data : Nat → UInt8) (len : UInt32)
    (h : RangeInWindow addr.toNat len.toNat) (hw : FlashHw) (hpage : hw.page = none)
    (hop : hw.opcode = none) (rc : Int) (s : State)
    (hrun : Runs (recorded flashHw) (tcmcdFlashProgram t addr data len) (hw, []) (.ok rc) s) :
    s.1.page = none ↔ OnlySwitchesFailed t s.2 := by
  obtain ⟨-, hs⟩ := (hrun.sound _ (tcmcdFlashProgram_outcome t addr data len h hw)).1 rc rfl
  rw [hs.mode]
  constructor
  · rintro (hin | ⟨hnot, -⟩ | ⟨-, -, honly⟩)
    · exact hs.failed (.inl hin)
    · exact hs.failed (.inr hnot)
    · exact honly
  · intro honly
    by_cases hent : answered t enterPage true ∈ s.2
    · exact .inr (.inr ⟨hent, hop, honly⟩)
    · exact .inr (.inl ⟨hent, hpage⟩)

/-- Writes that load a page fail, all others succeed, and so does every read. -/
def noLoads : State → (o : BusOp) → BusSig.Res o × State
  | s, .read c a => (some (0 : UInt32), (s.1, s.2 ++ [⟨.read c a, some (0 : UInt32)⟩]))
  | s, .write c a v =>
    if a.address = fcmd 0x55f4 then (false, (s.1, s.2 ++ [⟨.write c a v, false⟩]))
    else (true, (s.1.write a.address v, s.2 ++ [⟨.write c a v, true⟩]))

theorem noLoads_recorded (s : State) (o : BusOp) :
    recorded flashHw s o (noLoads s o).1 (noLoads s o).2 := by
  cases o with
  | read c a => exact ⟨rfl, rfl⟩
  | write c a v =>
    simp only [noLoads]
    split
    · exact ⟨.inr ⟨rfl, rfl⟩, rfl⟩
    · exact ⟨.inl ⟨rfl, rfl⟩, rfl⟩

/-- Erased flash in read mode. -/
def erased : FlashHw := ⟨fun _ => 0xFF, none, 0, none⟩

/-- A page at the start of PFLASH whose first word cannot be loaded. -/
theorem page_mode_left_iff_noLoads :
    ∃ x s, Runs (recorded flashHw) (tcmcdFlashProgram ⟨0, 0⟩ 0xA0000000 (fun _ => 0) 32)
      (erased, []) x s ∧
      (x = .ok 0 ∨ x = .ok (-1)) ∧ (s.1.page = none ↔ LeavesPageMode ⟨0, 0⟩ erased s.2) := by
  have hrun := runs_exec (recorded flashHw) noLoads noLoads_recorded
    (tcmcdFlashProgram ⟨0, 0⟩ 0xA0000000 (fun _ => 0) 32) (erased, [])
  exact ⟨_, _, hrun, page_mode_left_iff _ _ _ _ (by decide) _ _ _ hrun⟩

/-- The call returns, and the flash is in page mode. -/
theorem page_mode_kept :
    ¬ ∀ x s, Runs (recorded flashHw) (tcmcdFlashProgram ⟨0, 0⟩ 0xA0000000 (fun _ => 0) 32)
      (erased, []) x s → s.1.page = none := by
  intro hread
  have hrun := runs_exec (recorded flashHw) noLoads noLoads_recorded
    (tcmcdFlashProgram ⟨0, 0⟩ 0xA0000000 (fun _ => 0) 32) (erased, [])
  have hpage := hread _ _ hrun
  have hsome : (exec noLoads (tcmcdFlashProgram ⟨0, 0⟩ 0xA0000000 (fun _ => 0) 32)
      (erased, [])).2.1.page = some [] := rfl
  rw [hsome] at hpage
  cases hpage

end PageMode

end OpenTricore
