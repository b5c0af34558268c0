import OpenTricore.FlashHw

/-! Which commands the flash functions issue on a bus whose writes and waits all
succeed. `tcmcd_flash_program` issues the sequence of each page once, in ascending
order, and on flash whose pages were erased this leaves the data. `tcmcd_flash_erase`
erases the sectors the range touches, in ascending order, and also one sector of an
empty range that does not start at a sector. -/

namespace OpenTricore
open Lib Lib.Prog

/-! ## A bus without failures -/

/-- The writes so far, and the status reads since the last one. -/
structure FlashLog where
  writes : List (UInt64 × UInt32)
  polls : Nat

/-- Writes succeed, and the flash is ready at the last status read of a wait, if
not before. -/
def workingFlash : Env BusSig FlashLog
  | s, .read _ _, r, s' =>
    (∃ v, r = some v ∧ (v &&& FBUSY_MASK ≠ 0 → s.polls + 1 < 200000)) ∧
      s' = { s with polls := s.polls + 1 }
  | s, .write _ a v, r, s' => r = true ∧ s' = ⟨s.writes ++ [(a.address, v)], 0⟩

theorem workingFlash_answers (s : FlashLog) (o : BusOp) : ∃ r s', workingFlash s o r s' := by
  cases o with
  | read c a => exact ⟨some (0 : UInt32), _, ⟨0, rfl, fun h => absurd (by decide) h⟩, rfl⟩
  | write c a v => exact ⟨true, _, rfl, rfl⟩

section
variable (t : Target)

theorem w32Any_working {ws : List (UInt64 × UInt32)} (hne : ws ≠ []) (s : FlashLog) :
    (w32Any t ws).wp workingFlash (fun failed s' => failed = false ∧
      s' = ⟨s.writes ++ ws, 0⟩) (fun _ _ => False) s := by
  apply wp_w32Any workingFlash t ws
    (fun done s' => (done = [] ∧ s' = s) ∨ (done ≠ [] ∧ s' = ⟨s.writes ++ done, 0⟩)) ?_ ?_ s
    (.inl ⟨rfl, rfl⟩)
  · rintro done w rest - s₁ h r _ ⟨rfl, rfl⟩
    rw [if_pos rfl]
    refine .inr ⟨by simp, ?_⟩
    obtain ⟨rfl, rfl⟩ | ⟨-, rfl⟩ := h
    · rfl
    · simp
  · rintro s' (⟨rfl, -⟩ | ⟨-, rfl⟩)
    · exact absurd rfl hne
    · exact ⟨rfl, rfl⟩

theorem flashWaitLoop_working (n : Nat) (s : FlashLog) (h : s.polls + n = 200000) (hn : 0 < n) :
    (flashWaitLoop t n).wp workingFlash (fun rc s' => rc = 0 ∧ s'.writes = s.writes)
      (fun _ _ => False) s := by
  induction n generalizing s with
  | zero => omega
  | succ n ih =>
    simp only [flashWaitLoop, wp_bind, wp_xferR]
    rintro r s' ⟨⟨v, rfl, hbusy⟩, rfl⟩
    simp only
    split
    · exact ⟨rfl, rfl⟩
    · rename_i hv
      have hlast := hbusy hv
      exact ih ⟨s.writes, s.polls + 1⟩ (by dsimp only; omega) (by omega)

theorem flashWait_working (ws : List (UInt64 × UInt32)) :
    (flashWait t).wp workingFlash (fun rc s' => rc = 0 ∧ s'.writes = ws)
      (fun _ _ => False) ⟨ws, 0⟩ := by
  unfold flashWait
  exact flashWaitLoop_working t _ ⟨ws, 0⟩ (Nat.zero_add _) (Nat.succ_pos _)

theorem flashCommand_working {ws : List (UInt64 × UInt32)} (hne : ws ≠ []) (s : FlashLog) :
    (flashCommand t ws).wp workingFlash (fun failed s' => failed = false ∧
      s'.writes = s.writes ++ ws) (fun _ _ => False) s := by
  rw [flashCommand, wp_bind]
  apply wp_mono _ ?_ (fun _ _ h => h) (w32Any_working t hne s)
  rintro failed s' ⟨rfl, rfl⟩
  simp only [Bool.false_eq_true, ↓reduceIte, wp_bind]
  apply wp_mono _ ?_ (fun _ _ h => h) (flashWait_working t _)
  rintro rc s' ⟨rfl, hs'⟩
  exact ⟨rfl, hs'⟩

end

/-! ## Erasing -/

/-- The sectors at `start`, `start + SECTOR`, .., of which there are `n`. -/
def sectorsFrom (start n : Nat) : List Nat := (List.range n).map fun k => start + k * SECTOR

/-- The cycles that erase the sectors, one after the other. -/
def eraseCommands (sectors : List Nat) : List (UInt64 × UInt32) :=
  sectors.flatMap fun a => eraseCycles (UInt32.ofNat a)

theorem sectorsFrom_succ (start n : Nat) :
    sectorsFrom start (n + 1) = sectorsFrom start n ++ [start + n * SECTOR] := by
  rw [sectorsFrom, List.range_succ, List.map_append]
  rfl

theorem sectorsFrom_sorted (start n : Nat) : (sectorsFrom start n).Pairwise (· < ·) := by
  rw [sectorsFrom, List.pairwise_map]
  apply List.pairwise_lt_range.imp
  intro i j hij
  simp only [SECTOR]
  omega

theorem mem_sectorsFrom {start n a : Nat} (hstart : start % SECTOR = 0) :
    a ∈ sectorsFrom start n ↔ a % SECTOR = 0 ∧ start ≤ a ∧ a < start + n * SECTOR := by
  simp only [sectorsFrom, List.mem_map, List.mem_range, SECTOR] at hstart ⊢
  constructor
  · rintro ⟨k, hk, rfl⟩
    omega
  · rintro ⟨ha, hlow, hhigh⟩
    exact ⟨(a - start) / 0x4000, by omega, by omega⟩

section
variable (t : Target)

/-- The number of sectors the loop visits. -/
def visitedSectors (addr len : Nat) : Nat :=
  (eraseStop addr len - addr / SECTOR * SECTOR) / SECTOR

theorem erase_commands (addr len : UInt64) (h : RangeInWindow addr.toNat len.toNat) :
    (tcmcdFlashErase t addr len).wp workingFlash (fun rc s => rc = 0 ∧
      s.writes = eraseCommands (sectorsFrom (addr.toNat / SECTOR * SECTOR)
        (visitedSectors addr.toNat len.toNat))) (fun _ _ => False) ⟨[], 0⟩ := by
  have hrule := wp_tcmcdFlashErase workingFlash t addr len h
    (fun a s => s.writes = eraseCommands (sectorsFrom (addr.toNat / SECTOR * SECTOR)
      ((a - addr.toNat / SECTOR * SECTOR) / SECTOR))) (fun _ => False) ?_ ⟨[], 0⟩ ?_
  · apply wp_mono _ ?_ (fun _ _ h => h) hrule
    rintro rc s (⟨rfl, hs⟩ | ⟨-, hfalse⟩)
    · exact ⟨rfl, hs⟩
    · exact hfalse.elim
  · rintro a ⟨ws, n⟩ halign hlow - hws
    have hne : eraseCycles (UInt32.ofNat a) ≠ [] := List.cons_ne_nil _ _
    apply wp_mono _ ?_ (fun _ _ h => h) (flashCommand_working t hne ⟨ws, n⟩)
    rintro failed s' ⟨rfl, hs'⟩
    have hcount : (a + SECTOR - addr.toNat / SECTOR * SECTOR) / SECTOR =
        (a - addr.toNat / SECTOR * SECTOR) / SECTOR + 1 := by
      simp only [SECTOR] at hlow ⊢
      omega
    have hlast : addr.toNat / SECTOR * SECTOR +
        (a - addr.toNat / SECTOR * SECTOR) / SECTOR * SECTOR = a := by
      simp only [SECTOR] at halign hlow ⊢
      omega
    simp only [Bool.false_eq_true, ↓reduceIte]
    dsimp only at hws
    rw [hs', hws, hcount, sectorsFrom_succ, hlast, eraseCommands, eraseCommands,
      List.flatMap_append]
    simp
  · simp [sectorsFrom, eraseCommands]

end

/-- The sector at `a` has a byte in `[addr, addr + len)`. -/
def Intersects (addr len a : Nat) : Prop :=
  ∃ x, addr ≤ x ∧ x < addr + len ∧ a ≤ x ∧ x < a + SECTOR

/-- The call returns 0 and erases the sectors that intersect the range, each once
and in ascending order. -/
def ErasesExactly (t : Target) (addr len : UInt64) : Prop :=
  ∀ x s, Runs workingFlash (tcmcdFlashErase t addr len) ⟨[], 0⟩ x s →
    x = .ok 0 ∧ ∃ sectors : List Nat, sectors.Pairwise (· < ·) ∧
      (∀ a, a ∈ sectors ↔ a % SECTOR = 0 ∧ Intersects addr.toNat len.toNat a) ∧
      s.writes = eraseCommands sectors

theorem visited_intersect {addr len : Nat} (h : len ≠ 0 ∨ addr % SECTOR = 0) (a : Nat) :
    a ∈ sectorsFrom (addr / SECTOR * SECTOR) (visitedSectors addr len) ↔
      a % SECTOR = 0 ∧ Intersects addr len a := by
  rw [mem_sectorsFrom (Nat.mul_mod_left _ _)]
  simp only [visitedSectors, eraseStop, Intersects, SECTOR] at h ⊢
  constructor
  · rintro ⟨ha, hlow, hhigh⟩
    exact ⟨ha, max addr a, by omega, by omega, by omega, by omega⟩
  · rintro ⟨ha, x, h1, h2, h3, h4⟩
    exact ⟨ha, by omega, by omega⟩

/-- An empty range inside a sector. -/
theorem not_erasesExactly (t : Target) {addr len : UInt64}
    (h : RangeInWindow addr.toNat len.toNat) (hlen : len.toNat = 0)
    (haddr : addr.toNat % SECTOR ≠ 0) : ¬ ErasesExactly t addr len := by
  intro hexact
  obtain ⟨rc, s, hrun, rfl, hs⟩ := (asks_anything (tcmcdFlashErase t addr len)).can
    (fun s o _ => workingFlash_answers s o) (erase_commands t addr len h)
  obtain ⟨-, sectors, -, hmem, hwrites⟩ := hexact _ _ hrun
  have hnil : sectors = [] := by
    apply List.eq_nil_iff_forall_not_mem.mpr
    intro a ha
    obtain ⟨-, x, h1, h2, -⟩ := (hmem a).mp ha
    omega
  have hone : visitedSectors addr.toNat len.toNat = 1 := by
    simp only [visitedSectors, eraseStop, SECTOR] at haddr ⊢
    omega
  rw [hs, hone, hnil] at hwrites
  simp [sectorsFrom, eraseCommands, eraseCycles] at hwrites

/-- Erasing covers exactly the sectors of a range in the window, unless the range is
empty and starts inside a sector. -/
theorem erases_exactly_iff (t : Target) (addr len : UInt64)
    (h : RangeInWindow addr.toNat len.toNat) :
    ErasesExactly t addr len ↔ len.toNat ≠ 0 ∨ addr.toNat % SECTOR = 0 := by
  constructor
  · intro hexact
    by_contra hno
    rw [not_or, Decidable.not_not] at hno
    exact not_erasesExactly t h hno.1 hno.2 hexact
  · intro hclean x s hrun
    obtain ⟨hok, herr⟩ := hrun.sound _ (erase_commands t addr len h)
    cases x with
    | error e => exact (herr e rfl).elim
    | ok rc =>
      obtain ⟨rfl, hs⟩ := hok rc rfl
      exact ⟨rfl, _, sectorsFrom_sorted _ _, visited_intersect hclean, hs⟩

/-- A range across a sector boundary. -/
theorem erases_exactly_iff_two :
    ErasesExactly ⟨0, 0⟩ 0xA0003FFF 2 ↔
      (2 : UInt64).toNat ≠ 0 ∨ (0xA0003FFF : UInt64).toNat % SECTOR = 0 :=
  erases_exactly_iff _ _ _ (by decide)

/-- `vFlashErase:a0000010` erases the first sector. -/
theorem empty_range_erases : ¬ ErasesExactly ⟨0, 0⟩ 0xA0000010 0 :=
  not_erasesExactly _ (by decide) rfl (by decide)

/-! ## Programming -/

/-- Byte `i` of page `p`: the data, and `0xFF` from its end on. -/
def pageData (data : Nat → UInt8) (len p i : Nat) : UInt8 :=
  if 32 * p + i < len then data (32 * p + i) else 0xFF

/-- Enter page mode, load eight words, write the page at `target`. -/
def pageCommands (target : Nat) (byte : Nat → UInt8) : List (UInt64 × UInt32) :=
  enterPageCycles ++
    ((List.range 8).map fun i => (fcmd 0x55f4, packBytes fun k => byte (i * 4 + k))) ++
    writePageCycles (UInt32.ofNat target)

/-- The sequences of the first `n` pages. -/
def programCommands (addr : Nat) (data : Nat → UInt8) (len n : Nat) : List (UInt64 × UInt32) :=
  (List.range n).flatMap fun p => pageCommands (addr + 32 * p) (pageData data len p)

/-- The number of pages of `len` bytes. -/
def pageCount (len : Nat) : Nat := (len + 31) / 32

/-- The effect of a list of writes on the flash. -/
def FlashHw.writes (hw : FlashHw) (ws : List (UInt64 × UInt32)) : FlashHw :=
  ws.foldl (fun hw w => hw.write w.1 w.2) hw

theorem programCommands_succ (addr : Nat) (data : Nat → UInt8) (len n : Nat) :
    programCommands addr data len (n + 1) =
      programCommands addr data len n ++ pageCommands (addr + 32 * n) (pageData data len n) := by
  rw [programCommands, List.range_succ, List.flatMap_append]
  simp [programCommands]

/-- The loop packs the bytes of page `p`. -/
theorem pageWord_eq (data : Nat → UInt8) (len : UInt32) {p : Nat} (hp : 32 * p + 32 < 2 ^ 32)
    {i : Nat} (hi : i < 8) :
    pageWord data len (UInt32.ofNat (32 * p)) i =
      packBytes fun k => pageData data len.toNat p (i * 4 + k) := by
  apply word_ext
  intro b hb
  have hidx : (UInt32.ofNat (32 * p) + UInt32.ofNat (i * 4 + b)).toNat = 32 * p + (i * 4 + b) := by
    rw [UInt32.toNat_add, UInt32.toNat_ofNat', UInt32.toNat_ofNat']
    omega
  rw [pageWord, byteOf_packBytes _ _ hb, byteOf_packBytes _ _ hb]
  simp only [pageData, UInt32.lt_iff_toNat_lt, hidx]

theorem pageCycles_eq (addr : UInt64) (data : Nat → UInt8) (len : UInt32) {p : Nat}
    (hp : 32 * p + 32 < 2 ^ 32) :
    pageCycles data len (UInt32.ofNat (32 * p))
        (addr + (UInt32.ofNat (32 * p)).toUInt64).toUInt32 =
      pageCommands (addr.toNat + 32 * p) (pageData data len.toNat p) := by
  have htarget : (addr + (UInt32.ofNat (32 * p)).toUInt64).toUInt32 =
      UInt32.ofNat (addr.toNat + 32 * p) := by
    rw [← UInt32.toNat_inj, UInt64.toNat_toUInt32, UInt64.toNat_add, UInt32.toNat_toUInt64,
      UInt32.toNat_ofNat', UInt32.toNat_ofNat']
    omega
  have hloads : loadPageCycles data len (UInt32.ofNat (32 * p)) =
      (List.range 8).map fun i =>
        (fcmd 0x55f4, packBytes fun k => pageData data len.toNat p (i * 4 + k)) := by
    apply List.map_congr_left
    intro i hi
    rw [pageWord_eq data len hp (List.mem_range.mp hi)]
  rw [pageCycles, pageCommands, htarget, hloads]

section
variable (t : Target)

theorem programPage_working (addr : UInt64) (data : Nat → UInt8) (len off : UInt32)
    (ws : List (UInt64 × UInt32)) (n : Nat) :
    (programPage t addr data len off).wp workingFlash (fun failed s' => failed = false ∧
      s'.writes = ws ++ pageCycles data len off (addr + off.toUInt64).toUInt32)
      (fun _ _ => False) ⟨ws, n⟩ := by
  have hne : pageCycles data len off (addr + off.toUInt64).toUInt32 ≠ [] := by
    simp [pageCycles, enterPageCycles]
  rw [programPage_eq]
  exact flashCommand_working t hne ⟨ws, n⟩

theorem program_commands (addr : UInt64) (data : Nat → UInt8) (len : UInt32)
    (h : RangeInWindow addr.toNat len.toNat) (halign : addr.toNat % 32 = 0) :
    (tcmcdFlashProgram t addr data len).wp workingFlash (fun rc s => rc = 0 ∧
      s.writes = programCommands addr.toNat data len.toNat (pageCount len.toNat) ++
        [(fcmd 0x5554, 0xf0)]) (fun _ _ => False) ⟨[], 0⟩ := by
  have hwin := h
  simp only [RangeInWindow, FLASH_MIN, FLASH_MAX, UInt32.reduceToNat] at hwin
  have hrule := wp_tcmcdFlashProgram workingFlash t addr data len h
    (fun off s => s.writes = programCommands addr.toNat data len.toNat (off / 32))
    (fun s => s.writes = programCommands addr.toNat data len.toNat (pageCount len.toNat) ++
      [(fcmd 0x5554, 0xf0)]) (fun _ => False) ?_ ?_ ⟨[], 0⟩ rfl (fun hmod => hmod halign)
  · apply wp_mono _ ?_ (fun _ _ h => h) hrule
    rintro rc s (⟨rfl, -, hs⟩ | ⟨-, hfalse⟩)
    · exact ⟨rfl, hs⟩
    · exact hfalse.elim
  · rintro off ⟨ws, n⟩ hoff hlt hws
    obtain ⟨p, rfl⟩ : ∃ p, off = 32 * p := ⟨off / 32, by omega⟩
    apply wp_mono _ ?_ (fun _ _ h => h) (programPage_working t addr data len _ ws n)
    rintro failed s ⟨rfl, hs⟩
    simp only [Bool.false_eq_true, ↓reduceIte]
    dsimp only at hws
    rw [hs, hws, pageCycles_eq addr data len (by omega), show 32 * p / 32 = p by omega,
      show (32 * p + 32) / 32 = p + 1 by omega, programCommands_succ]
  · rintro s hs
    simp only [w32, wp_bind, wp_xferW]
    rintro r s' ⟨rfl, rfl⟩
    have hstop : pagesStop len.toNat / 32 = pageCount len.toNat := by
      simp only [pagesStop, pageCount]
      omega
    rw [hstop] at hs
    simp only [↓reduceIte, pure_eq, wp_ret, hs]

end

/-! ## What is left in flash -/

theorem pageCommands_eq (target : Nat) (byte : Nat → UInt8) :
    pageCommands target byte = pageCycles byte 32 0 (UInt32.ofNat target) := by
  have hloads : ((List.range 8).map fun i => (fcmd 0x55f4, packBytes fun k => byte (i * 4 + k))) =
      loadPageCycles byte 32 0 := by
    apply List.map_congr_left
    intro i hi
    have hi := List.mem_range.mp hi
    have hword := pageWord_eq byte 32 (p := 0) (by decide) hi
    rw [show pageWord byte 32 0 i = _ from hword]
    congr 1
    apply word_ext
    intro b hb
    rw [byteOf_packBytes _ _ hb, byteOf_packBytes _ _ hb, pageData,
      show (32 : UInt32).toNat = 32 from rfl, if_pos (by omega), Nat.mul_zero, Nat.zero_add]
  rw [pageCommands, pageCycles, hloads]

/-- The sequence of one page, on an interpreter with no half command pending. -/
theorem pageCommands_hw (target : Nat) (ht : target < 2 ^ 32) (byte : Nat → UInt8) (hw : FlashHw)
    (hop : hw.opcode = none) :
    (hw.writes (pageCommands target byte)).opcode = none ∧
      (hw.writes (pageCommands target byte)).mem = andRange hw.mem target 32 byte := by
  have htarget : (UInt32.ofNat target).toNat = target := by
    rw [UInt32.toNat_ofNat']
    omega
  rw [pageCommands_eq, FlashHw.writes, pageCycles_hw byte 32 0 _ hw hop]
  refine ⟨hop, ?_⟩
  funext x
  simp only [andRange, htarget]
  split
  · rw [pageByte_pageWord byte 32 0 (by decide) _ (by omega),
      show (32 : UInt32).toNat = 32 from rfl,
      show (0 : UInt32).toNat = 0 from rfl, if_pos (by omega), Nat.zero_add]
  · rfl

/-- After the first `n` pages, their bytes are ANDed into flash. -/
theorem programCommands_hw (addr : Nat) (data : Nat → UInt8) (len n : Nat)
    (hend : addr + 32 * n < 2 ^ 32) (hw : FlashHw) (hop : hw.opcode = none) :
    (hw.writes (programCommands addr data len n)).opcode = none ∧
      (hw.writes (programCommands addr data len n)).mem =
        andRange hw.mem addr (32 * n) (fun i => if i < len then data i else 0xFF) := by
  induction n with
  | zero =>
    refine ⟨hop, ?_⟩
    funext x
    rw [andRange, if_neg (by omega)]
    rfl
  | succ n ih =>
    obtain ⟨hop', hmem⟩ := ih (by omega)
    rw [programCommands_succ, FlashHw.writes, List.foldl_append]
    obtain ⟨hop'', hmem'⟩ := pageCommands_hw (addr + 32 * n) (by omega) (pageData data len n) _ hop'
    refine ⟨hop'', hmem'.trans ?_⟩
    funext x
    simp only [hmem, andRange, pageData]
    by_cases hpage : addr + 32 * n ≤ x ∧ x < addr + 32 * n + 32
    · have hin : addr ≤ x ∧ x < addr + 32 * (n + 1) := by omega
      have hout : ¬ (addr ≤ x ∧ x < addr + 32 * n) := by omega
      rw [if_pos hpage, if_neg hout, if_pos hin,
        show 32 * n + (x - (addr + 32 * n)) = x - addr by omega]
    · rw [if_neg hpage]
      congr 1
      simp only [eq_iff_iff]
      omega

/-! ## Page programming is exact -/

/-- What a call of `tcmcd_flash_program` that ends with `x` has done: the commands of
each page once, in ascending order, and on flash whose pages were erased the data. -/
structure Programmed (addr : Nat) (data : Nat → UInt8) (len : Nat) (x : Except Abort Int)
    (s : FlashLog) : Prop where
  returned : x = .ok 0
  commands : s.writes = programCommands addr data len (pageCount len) ++ [(fcmd 0x5554, 0xf0)]
  readBack : ∀ hw : FlashHw, hw.opcode = none →
    (∀ b, addr ≤ b → b < addr + 32 * pageCount len → hw.mem b = 0xFF) →
    ∀ i < len, (hw.writes s.writes).mem (addr + i) = data i
  kept : ∀ hw : FlashHw, hw.opcode = none →
    ∀ b, b < addr ∨ addr + 32 * pageCount len ≤ b → (hw.writes s.writes).mem b = hw.mem b

theorem programmed_of_commands {addr : Nat} {data : Nat → UInt8} {len : Nat} {s : FlashLog}
    (hend : addr + 32 * pageCount len < 2 ^ 32)
    (hs : s.writes = programCommands addr data len (pageCount len) ++ [(fcmd 0x5554, 0xf0)]) :
    Programmed addr data len (.ok 0) s := by
  have hmem : ∀ hw : FlashHw, hw.opcode = none → (hw.writes s.writes).mem =
      andRange hw.mem addr (32 * pageCount len) (fun i => if i < len then data i else 0xFF) := by
    intro hw hop
    rw [hs, FlashHw.writes, List.foldl_append, List.foldl_cons, List.foldl_nil, write_read]
    exact (programCommands_hw addr data len (pageCount len) hend hw hop).2
  refine ⟨rfl, hs, ?_, ?_⟩
  · intro hw hop herased i hi
    have hlen : len ≤ 32 * pageCount len := by
      simp only [pageCount]
      omega
    rw [hmem hw hop, andRange, if_pos (by omega), herased _ (by omega) (by omega),
      Nat.add_sub_cancel_left, if_pos hi]
    exact UInt8.neg_one_and
  · intro hw hop b hb
    rw [hmem hw hop, andRange, if_neg (by omega)]

/-- Programming a page-aligned range of the window is exact. -/
theorem program_exact (t : Target) (addr : UInt64) (data : Nat → UInt8) (len : UInt32)
    (h : RangeInWindow addr.toNat len.toNat) (halign : addr.toNat % 32 = 0)
    (x : Except Abort Int) (s : FlashLog)
    (hrun : Runs workingFlash (tcmcdFlashProgram t addr data len) ⟨[], 0⟩ x s) :
    Programmed addr.toNat data len.toNat x s := by
  have hend : addr.toNat + 32 * pageCount len.toNat < 2 ^ 32 := by
    simp only [RangeInWindow, FLASH_MIN, FLASH_MAX, UInt32.reduceToNat, pageCount] at h ⊢
    omega
  obtain ⟨hok, herr⟩ := hrun.sound _ (program_commands t addr data len h halign)
  cases x with
  | error e => exact (herr e rfl).elim
  | ok rc =>
    obtain ⟨rfl, hs⟩ := hok rc rfl
    exact programmed_of_commands hend hs

/-- Three bytes at the start of PFLASH. -/
theorem program_exact_three :
    ∃ x s, Runs workingFlash (tcmcdFlashProgram ⟨0, 0⟩ 0xA0000000 (fun _ => 0x5A) 3) ⟨[], 0⟩ x s ∧
      Programmed 0xA0000000 (fun _ => 0x5A) 3 x s := by
  obtain ⟨rc, s, hrun, -⟩ :=
    (asks_anything (tcmcdFlashProgram ⟨0, 0⟩ 0xA0000000 (fun _ => 0x5A) 3)).can
    (fun s o _ => workingFlash_answers s o)
    (program_commands ⟨0, 0⟩ 0xA0000000 (fun _ => 0x5A) 3 (by decide) (by decide))
  exact ⟨_, s, hrun, program_exact _ _ _ _ (by decide) (by decide) _ _ hrun⟩

end OpenTricore
