import OpenTricore.FlashGuard

/-! The flash command interpreter as the environment of the programming functions.

* `wp_tcmcdFlashErase`, `wp_tcmcdFlashProgram`: the loops visit each sector and
  each page of a range in the window once, in ascending order, and end;
* `tcmcdFlashErase_hw`: an erase that returns 0 sets the visited sectors to `0xFF`;
* `tcmcdFlashProgram_hw`: programming that returns 0 ANDs the data into flash. -/

namespace OpenTricore
open Lib Lib.Prog

/-- The sector size. -/
abbrev SECTOR : Nat := 0x4000

/-- A range inside the PFLASH window. -/
def RangeInWindow (addr len : Nat) : Prop := FLASH_MIN.toNat ≤ addr ∧ addr + len ≤ FLASH_MAX.toNat

instance (addr len : Nat) : Decidable (RangeInWindow addr len) := by
  unfold RangeInWindow
  infer_instance

/-! ## The loops -/

section loops
variable {σ : Type} (E : Env BusSig σ) (t : Target)

/-- Where the erase loop stops. -/
def eraseStop (addr len : Nat) : Nat := (addr + len + (SECTOR - 1)) / SECTOR * SECTOR

/-- A rule for `tcmcd_flash_erase`: `I a` holds before the sector at `a`, and `R`
when a sector fails. -/
theorem wp_tcmcdFlashErase (addr len : UInt64) (h : RangeInWindow addr.toNat len.toNat)
    (I : Nat → σ → Prop) (R : σ → Prop)
    (hsector : ∀ a s, a % SECTOR = 0 → addr.toNat / SECTOR * SECTOR ≤ a →
      a < addr.toNat + len.toNat → I a s →
      (eraseSector t (UInt32.ofNat a)).wp E
        (fun failed s' => if failed then R s' else I (a + SECTOR) s')
        (fun _ _ => False) s)
    (s : σ) (hI : I (addr.toNat / SECTOR * SECTOR) s) :
    (tcmcdFlashErase t addr len).wp E (fun rc s' =>
      (rc = 0 ∧ I (eraseStop addr.toNat len.toNat) s') ∨ (rc = -1 ∧ R s'))
        (fun _ _ => False) s := by
  have hend : (addr + len).toNat = addr.toNat + len.toNat := by
    simp only [RangeInWindow, FLASH_MAX, UInt32.reduceToNat] at h
    rw [UInt64.toNat_add]
    omega
  have hok : flashRangeOk addr len = true := by
    rw [flashRangeOk_iff]
    simp only [RangeInWindow, FLASH_MIN, FLASH_MAX, UInt32.reduceToNat] at h
    omega
  have hs0 : (addr &&& ~~~(TCMCD_FLASH_SECTOR - 1).toUInt64).toNat =
      addr.toNat / SECTOR * SECTOR := toNat_and_not addr _ 14 (by omega) rfl
  simp only [RangeInWindow, FLASH_MIN, FLASH_MAX, UInt32.reduceToNat] at h
  simp only [tcmcdFlashErase, hok, Bool.not_true, Bool.false_eq_true, ↓reduceIte]
  refine wp_loop E (fun (a : UInt64) s => (a.toNat % SECTOR = 0 ∧
      addr.toNat / SECTOR * SECTOR ≤ a.toNat ∧ a.toNat ≤ eraseStop addr.toNat len.toNat) ∧
      I a.toNat s) (fun a => eraseStop addr.toNat len.toNat - a.toNat) _ _ ?_ _ _ _ ⟨?_, ?_⟩ ?_
  · rintro a s ⟨⟨halign, hlow, hhigh⟩, hI⟩
    simp only [eraseStop, SECTOR] at halign hlow hhigh ⊢
    split
    · rename_i hlt
      have hlt' : a.toNat < addr.toNat + len.toNat := hend ▸ UInt64.lt_iff_toNat_lt.mp hlt
      have hword : a.toUInt32 = UInt32.ofNat a.toNat := by
        rw [← UInt32.toNat_inj, UInt64.toNat_toUInt32, UInt32.toNat_ofNat']
      have hnext : (a + TCMCD_FLASH_SECTOR.toUInt64).toNat = a.toNat + 0x4000 := by
        rw [UInt64.toNat_add, show TCMCD_FLASH_SECTOR.toUInt64.toNat = 0x4000 from rfl]
        omega
      rw [wp_bind, hword]
      refine wp_mono E ?_ (fun _ _ h => h) (hsector a.toNat s halign hlow hlt' hI)
      intro failed s' hs'
      cases failed with
      | true => exact .inr ⟨rfl, hs'⟩
      | false =>
        simp only [Bool.false_eq_true, ↓reduceIte, pure_eq, wp_ret, hnext] at hs' ⊢
        exact ⟨⟨⟨by omega, by omega, by omega⟩, hs'⟩, by omega⟩
    · rename_i hge
      rw [UInt64.lt_iff_toNat_lt, hend] at hge
      have hstop : a.toNat = (addr.toNat + len.toNat + (0x4000 - 1)) / 0x4000 * 0x4000 := by omega
      rw [← hstop]
      exact .inl ⟨rfl, hI⟩
  · rw [hs0]
    simp only [eraseStop, SECTOR]
    omega
  · rw [hs0]
    exact hI
  · simp only [eraseStop, SECTOR]
    omega

/-- Where the page loop stops, as an offset. -/
def pagesStop (len : Nat) : Nat := (len + 31) / 32 * 32

/-- A rule for `tcmcd_flash_program`: `I off` holds before the page at `off`, `J`
after the return to read mode, and `R` when the address is refused or a page fails. -/
theorem wp_tcmcdFlashProgram (addr : UInt64) (data : Nat → UInt8) (len : UInt32)
    (h : RangeInWindow addr.toNat len.toNat) (I : Nat → σ → Prop) (J R : σ → Prop)
    (hpage : ∀ off s, off % 32 = 0 → off < len.toNat → I off s →
      (programPage t addr data len (UInt32.ofNat off)).wp E
        (fun failed s' => if failed then R s' else I (off + 32) s') (fun _ _ => False) s)
    (hread : ∀ s, I (pagesStop len.toNat) s →
      (w32 t (fcmd 0x5554) 0xf0).wp E (fun _ s' => J s') (fun _ _ => False) s)
    (s : σ) (hI : I 0 s) (hR : addr.toNat % 32 ≠ 0 → R s) :
    (tcmcdFlashProgram t addr data len).wp E (fun rc s' =>
      (rc = 0 ∧ addr.toNat % 32 = 0 ∧ J s') ∨ (rc = -1 ∧ R s')) (fun _ _ => False) s := by
  have hok : flashRangeOk addr len.toUInt64 = true := by
    rw [flashRangeOk_iff, UInt32.toNat_toUInt64]
    simp only [RangeInWindow, FLASH_MIN, FLASH_MAX, UInt32.reduceToNat] at h
    omega
  simp only [RangeInWindow, FLASH_MIN, FLASH_MAX, UInt32.reduceToNat] at h
  rcases eq_or_ne (addr &&& (FPAGE - 1).toUInt64) 0 with ha | ha
  · have halign : addr.toNat % 32 = 0 := by
      have := toNat_and_mask addr (FPAGE - 1).toUInt64 5 rfl
      rw [ha] at this
      exact this.symm
    simp only [tcmcdFlashProgram, hok, ha, Bool.not_true, ne_eq, not_true_eq_false, decide_false,
      Bool.or_self, Bool.false_eq_true, ↓reduceIte, wp_bind]
    refine wp_loop E (fun (off : UInt32) s => (off.toNat % 32 = 0 ∧
      off.toNat ≤ pagesStop len.toNat) ∧ I off.toNat s)
      (fun off => pagesStop len.toNat - off.toNat) _ _ ?_ _ _ _ ⟨?_, hI⟩ ?_
    · rintro off s ⟨⟨hoff, hhigh⟩, hI⟩
      simp only [pagesStop] at hhigh hread ⊢
      split
      · rename_i hlt
        have hlt' : off.toNat < len.toNat := UInt32.lt_iff_toNat_lt.mp hlt
        have hnext : (off + FPAGE).toNat = off.toNat + 32 := by
          rw [UInt32.toNat_add, show FPAGE.toNat = 32 from rfl]
          omega
        have hpage' := hpage off.toNat s hoff hlt' hI
        rw [UInt32.ofNat_toNat] at hpage'
        rw [wp_bind]
        refine wp_mono E ?_ (fun _ _ h => h) hpage'
        intro failed s' hs'
        cases failed with
        | true => exact .inr ⟨rfl, hs'⟩
        | false =>
          simp only [Bool.false_eq_true, ↓reduceIte, pure_eq, wp_ret, hnext] at hs' ⊢
          exact ⟨⟨⟨by omega, by omega⟩, hs'⟩, by omega⟩
      · rename_i hge
        rw [UInt32.lt_iff_toNat_lt] at hge
        have hstop : off.toNat = (len.toNat + 31) / 32 * 32 := by omega
        rw [hstop] at hI
        simp only [pure_eq, wp_ret, not_true_eq_false, ↓reduceIte, wp_bind]
        exact wp_mono E (fun _ _ hJ => .inl ⟨rfl, halign, hJ⟩) (fun _ _ h => h) (hread s hI)
    · exact ⟨rfl, Nat.zero_le _⟩
    · simp only [pagesStop]
      omega
  · rw [program_refused t addr data len (.inr ha)]
    refine .inr ⟨rfl, hR fun hmod => ha ?_⟩
    rw [← UInt64.toNat_inj, toNat_and_mask addr (FPAGE - 1).toUInt64 5 rfl]
    exact hmod

end loops

/-! ## The command interpreter -/

/-- Flash memory with the state of the interpreter: the words loaded in page mode,
the last target, and the first half of a command. -/
structure FlashHw where
  mem : Mem
  page : Option (List UInt32)
  target : UInt32
  opcode : Option UInt32

/-- All bytes from `a` up to `b` erased. -/
def eraseRange (m : Mem) (a b : Nat) : Mem := fun x => if a ≤ x ∧ x < b then 0xFF else m x

/-- The `n` bytes of `f` ANDed into the memory at `a`. -/
def andRange (m : Mem) (a n : Nat) (f : Nat → UInt8) : Mem :=
  fun x => if a ≤ x ∧ x < a + n then m x &&& f (x - a) else m x

/-- The bytes of the words of a page. -/
def pageByte (ws : List UInt32) (i : Nat) : UInt8 := byteOf (ws.getD (i / 4) 0) (i % 4)

namespace FlashHw

/-- The sector of the target is erased, or the loaded page is programmed there. -/
def command (hw : FlashHw) (op v : UInt32) : FlashHw :=
  if op = 0x80 ∧ v = 0x50 then
    let a := hw.target.toNat / SECTOR * SECTOR
    { hw with mem := eraseRange hw.mem a (a + SECTOR), opcode := none }
  else if op = 0xa0 ∧ v = 0xaa then
    match hw.page with
    | some ws =>
      { hw with
        mem := andRange hw.mem hw.target.toNat 32 (pageByte ws)
        page := none
        opcode := none }
    | none => { hw with opcode := none }
  else { hw with opcode := none }

/-- The effect of a write at `a`. -/
def write (hw : FlashHw) (a : UInt64) (v : UInt32) : FlashHw :=
  if a = fcmd 0x5554 then
    if v = 0x50 then { hw with page := some [] }        -- enter page mode
    else if v = 0xf0 then { hw with page := none }      -- back to read mode
    else hw                                             -- clear status
  else if a = fcmd 0x55f4 then { hw with page := hw.page.map (· ++ [v]) }
  else if a = fcmd 0xaa50 then { hw with target := v }
  else if a = fcmd 0xaaa8 then
    match hw.opcode with
    | none => { hw with opcode := some v }
    | some op => hw.command op v
  else hw

end FlashHw

/-- Any access may fail, without an effect. A read answers anything: memory is not
read by these functions, and the status is as the hardware has it. -/
def flashHw : Env BusSig FlashHw
  | hw, .read _ _, _, hw' => hw' = hw
  | hw, .write _ a v, r, hw' => (r = true ∧ hw' = hw.write a.address v) ∨ (r = false ∧ hw' = hw)

section
variable (t : Target)

/-- If no write fails, all of them have their effect. -/
theorem w32Any_hw (ws : List (UInt64 × UInt32)) (hw : FlashHw) :
    (w32Any t ws).wp flashHw (fun failed hw' => failed = false →
      hw' = ws.foldl (fun hw w => hw.write w.1 w.2) hw) (fun _ _ => False) hw := by
  apply wp_w32Any flashHw t ws
    (fun done hw' => hw' = done.foldl (fun hw w => hw.write w.1 w.2) hw) ?_ (fun _ h _ => h) hw rfl
  rintro done w rest - _ rfl r hw' (⟨rfl, rfl⟩ | ⟨rfl, rfl⟩)
  · simp
  · simp

/-- If a command does not fail, its cycles have had their effect. -/
theorem flashCommand_hw (ws : List (UInt64 × UInt32)) (hw : FlashHw) :
    (flashCommand t ws).wp flashHw (fun failed hw' => failed = false →
      hw' = ws.foldl (fun hw w => hw.write w.1 w.2) hw) (fun _ _ => False) hw := by
  apply wp_flashCommand flashHw t ws _ ?_ ?_ hw (w32Any_hw t ws hw)
  · rintro failed hw₁ r hw₂ h hread
    rw [show hw₂ = hw₁ from hread]
    exact h
  · rintro hw₁ - hfailed
    cases hfailed

theorem fcmd_values :
    fcmd 0x5554 = 0xF8085554 ∧ fcmd 0x55f4 = 0xF80855f4 ∧ fcmd 0xaa50 = 0xF808aa50 ∧
      fcmd 0xaa58 = 0xF808aa58 ∧ fcmd 0xaaa8 = 0xF808aaa8 := by decide

section writes
variable (hw : FlashHw) (v : UInt32)

theorem write_clear : hw.write (fcmd 0x5554) 0xFA = hw := by
  simp [FlashHw.write]

theorem write_enter : hw.write (fcmd 0x5554) 0x50 = { hw with page := some [] } := by
  simp [FlashHw.write]

theorem write_read : hw.write (fcmd 0x5554) 0xf0 = { hw with page := none } := by
  simp [FlashHw.write]

theorem write_load : hw.write (fcmd 0x55f4) v = { hw with page := hw.page.map (· ++ [v]) } := by
  simp [FlashHw.write, fcmd_values]

theorem write_target : hw.write (fcmd 0xaa50) v = { hw with target := v } := by
  simp [FlashHw.write, fcmd_values]

theorem write_count : hw.write (fcmd 0xaa58) v = hw := by
  simp [FlashHw.write, fcmd_values]

theorem write_opcode (h : hw.opcode = none) :
    hw.write (fcmd 0xaaa8) v = { hw with opcode := some v } := by
  simp [FlashHw.write, fcmd_values, h]

theorem write_command {op : UInt32} (h : hw.opcode = some op) :
    hw.write (fcmd 0xaaa8) v = hw.command op v := by
  simp [FlashHw.write, fcmd_values, h]

end writes

theorem eraseCycles_hw (s : UInt32) (hw : FlashHw) (hop : hw.opcode = none) :
    (eraseCycles s).foldl (fun hw w => hw.write w.1 w.2) hw =
      { hw with
        mem := eraseRange hw.mem (s.toNat / SECTOR * SECTOR) (s.toNat / SECTOR * SECTOR + SECTOR)
        target := s } := by
  simp only [eraseCycles, List.foldl_cons, List.foldl_nil, write_clear, write_target, write_count,
    write_opcode, hop]
  rw [write_command _ _ rfl, FlashHw.command, if_pos ⟨rfl, rfl⟩]

theorem loadPageCycles_hw (data : Nat → UInt8) (len off : UInt32) (hw : FlashHw)
    (hpage : hw.page = some []) :
    (loadPageCycles data len off).foldl (fun hw w => hw.write w.1 w.2) hw =
      { hw with page := some ((List.range 8).map (pageWord data len off)) } := by
  have hloads : ∀ (is : List Nat) (hw : FlashHw) (ws : List UInt32), hw.page = some ws →
      (is.map fun i => (fcmd 0x55f4, pageWord data len off i)).foldl
        (fun hw w => hw.write w.1 w.2) hw =
      { hw with page := some (ws ++ is.map (pageWord data len off)) } := by
    intro is
    induction is with
    | nil => intro hw ws h; simp [← h]
    | cons i is ih =>
      intro hw ws h
      rw [List.map_cons, List.foldl_cons, write_load, h, ih _ (ws ++ [pageWord data len off i]) rfl]
      simp
  exact hloads (List.range 8) hw [] hpage

theorem pageCycles_hw (data : Nat → UInt8) (len off target : UInt32) (hw : FlashHw)
    (hop : hw.opcode = none) :
    (pageCycles data len off target).foldl (fun hw w => hw.write w.1 w.2) hw =
      { hw with
        mem := andRange hw.mem target.toNat 32
          (pageByte ((List.range 8).map (pageWord data len off)))
        page := none
        target := target } := by
  rw [pageCycles, List.foldl_append, List.foldl_append]
  simp only [enterPageCycles, List.foldl_cons, List.foldl_nil, write_clear, write_enter]
  rw [loadPageCycles_hw _ _ _ _ rfl]
  simp only [writePageCycles, List.foldl_cons, List.foldl_nil, write_target, write_count,
    write_opcode, hop]
  rw [write_command _ _ rfl, FlashHw.command, if_neg (by decide), if_pos ⟨rfl, rfl⟩]

/-- A sector whose erase does not fail is erased. -/
theorem eraseSector_hw (s : UInt32) (hw : FlashHw) (hop : hw.opcode = none) :
    (eraseSector t s).wp flashHw (fun failed hw' => failed = false → hw' =
      { hw with
        mem := eraseRange hw.mem (s.toNat / SECTOR * SECTOR) (s.toNat / SECTOR * SECTOR + SECTOR)
        target := s }) (fun _ _ => False) hw := by
  rw [eraseSector_eq, ← eraseCycles_hw s hw hop]
  exact flashCommand_hw t _ hw

theorem programPage_hw (addr : UInt64) (data : Nat → UInt8) (len off : UInt32) (hw : FlashHw)
    (hop : hw.opcode = none) :
    (programPage t addr data len off).wp flashHw (fun failed hw' => failed = false → hw' =
      { hw with
        mem := andRange hw.mem (addr + off.toUInt64).toUInt32.toNat 32
          (pageByte ((List.range 8).map (pageWord data len off)))
        page := none
        target := (addr + off.toUInt64).toUInt32 }) (fun _ _ => False) hw := by
  rw [programPage_eq, ← pageCycles_hw data len off _ hw hop]
  exact flashCommand_hw t _ hw

/-- Between commands: no half command is pending, and memory is `m`. -/
def FlashHw.Idle (hw : FlashHw) (m : Mem) : Prop := hw.opcode = none ∧ hw.mem = m

/-- An erase that returns 0. -/
theorem tcmcdFlashErase_hw (addr len : UInt64) (h : RangeInWindow addr.toNat len.toNat)
    (hw : FlashHw) (m : Mem) (hidle : hw.Idle m) :
    (tcmcdFlashErase t addr len).wp flashHw (fun rc hw' => rc = 0 →
      hw'.Idle (eraseRange m (addr.toNat / SECTOR * SECTOR) (eraseStop addr.toNat len.toNat)))
      (fun _ _ => False) hw := by
  have hwin := h
  simp only [RangeInWindow, FLASH_MIN, FLASH_MAX, UInt32.reduceToNat] at hwin
  have hrule := wp_tcmcdFlashErase flashHw t addr len h
    (fun a hw' => hw'.Idle (eraseRange m (addr.toNat / SECTOR * SECTOR) a)) (fun _ => True) ?_ hw ?_
  · refine wp_mono _ ?_ (fun _ _ h => h) hrule
    rintro rc hw' (⟨-, hI⟩ | ⟨rfl, -⟩) h0
    · exact hI
    · cases h0
  · rintro a hw' halign hlow hlt ⟨hop, hmem⟩
    refine wp_mono _ ?_ (fun _ _ h => h) (eraseSector_hw t (UInt32.ofNat a) hw' hop)
    intro failed hw'' hfailed
    cases failed with
    | true => trivial
    | false =>
      have ha : (UInt32.ofNat a).toNat / SECTOR * SECTOR = a := by
        simp only [SECTOR] at halign ⊢
        rw [UInt32.toNat_ofNat']
        omega
      rw [hfailed rfl]
      refine ⟨hop, ?_⟩
      funext x
      simp only [ha, hmem, eraseRange]
      split
      · rw [if_pos (by omega)]
      · split
        · rw [if_pos (by omega)]
        · rw [if_neg (by omega)]
  · refine ⟨hidle.1, ?_⟩
    funext x
    rw [eraseRange, if_neg (by omega), hidle.2]

/-- The bytes of a page: the data, and `0xFF` behind its end. -/
theorem pageByte_pageWord (data : Nat → UInt8) (len off : UInt32) (hoff : off.toNat + 32 < 2 ^ 32)
    (i : Nat) (hi : i < 32) :
    pageByte ((List.range 8).map (pageWord data len off)) i =
      if off.toNat + i < len.toNat then data (off.toNat + i) else 0xFF := by
  have hword : ((List.range 8).map (pageWord data len off)).getD (i / 4) 0 =
      pageWord data len off (i / 4) := by
    have h8 : i / 4 < 8 := by omega
    simp [List.getD, h8]
  have hidx : (off + UInt32.ofNat (i / 4 * 4 + i % 4)).toNat = off.toNat + i := by
    rw [UInt32.toNat_add, UInt32.toNat_ofNat']
    omega
  rw [pageByte, hword, pageWord, byteOf_packBytes _ _ (Nat.mod_lt _ (by omega))]
  simp only [UInt32.lt_iff_toNat_lt, hidx]

/-- Programming that returns 0: the address is page aligned, and the data is ANDed
into flash. -/
theorem tcmcdFlashProgram_hw (addr : UInt64) (data : Nat → UInt8) (len : UInt32)
    (h : RangeInWindow addr.toNat len.toNat) (hw : FlashHw) (m : Mem) (hidle : hw.Idle m) :
    (tcmcdFlashProgram t addr data len).wp flashHw (fun rc hw' => rc = 0 →
      addr.toNat % 32 = 0 ∧ hw'.Idle (andRange m addr.toNat len.toNat data))
      (fun _ _ => False) hw := by
  have hwin := h
  simp only [RangeInWindow, FLASH_MIN, FLASH_MAX, UInt32.reduceToNat] at hwin
  have hrule := wp_tcmcdFlashProgram flashHw t addr data len h
    (fun off hw' => hw'.Idle (andRange m addr.toNat (min off len.toNat) data))
    (fun hw' => hw'.Idle (andRange m addr.toNat len.toNat data)) (fun _ => True) ?_ ?_ hw ?_
    (fun _ => trivial)
  · refine wp_mono _ ?_ (fun _ _ h => h) hrule
    rintro rc hw' (⟨-, halign, hJ⟩ | ⟨rfl, -⟩) h0
    · exact ⟨halign, hJ⟩
    · cases h0
  · rintro off hw' halign hlt ⟨hop, hmem⟩
    have hoff : (UInt32.ofNat off).toNat = off := by
      rw [UInt32.toNat_ofNat']
      omega
    have htarget : (addr + (UInt32.ofNat off).toUInt64).toUInt32.toNat = addr.toNat + off := by
      rw [UInt64.toNat_toUInt32, UInt64.toNat_add, UInt32.toNat_toUInt64, hoff]
      omega
    refine wp_mono _ ?_ (fun _ _ h => h) (programPage_hw t addr data len (UInt32.ofNat off) hw' hop)
    intro failed hw'' hfailed
    cases failed with
    | true => trivial
    | false =>
      rw [hfailed rfl]
      refine ⟨hop, ?_⟩
      funext x
      simp only [htarget, hmem, andRange]
      rcases Nat.lt_or_ge x (addr.toNat + off) with hx | hx
      · rw [if_neg (by omega)]
        congr 1
        simp only [eq_iff_iff]
        omega
      · rcases Nat.lt_or_ge x (addr.toNat + off + 32) with hx' | hx'
        · -- a byte of this page, or padding
          rw [if_pos ⟨hx, hx'⟩, if_neg (by omega),
            pageByte_pageWord data len _ (by omega) _ (by omega), hoff]
          rcases Nat.lt_or_ge x (addr.toNat + len.toNat) with hin | hpad
          · rw [if_pos (by omega), if_pos (by omega),
              show off + (x - (addr.toNat + off)) = x - addr.toNat by omega]
          · rw [if_neg (by omega), if_neg (by omega)]
            exact UInt8.and_neg_one
        · rw [if_neg (by omega), if_neg (by omega), if_neg (by omega)]
  · rintro hw' ⟨hop, hmem⟩
    simp only [w32, wp_bind, wp_xferW]
    have hstop : min (pagesStop len.toNat) len.toNat = len.toNat := by
      simp only [pagesStop]
      omega
    rw [hstop] at hmem
    rintro r hw'' (⟨rfl, rfl⟩ | ⟨rfl, rfl⟩)
    · rw [write_read]
      exact ⟨hop, hmem⟩
    · exact ⟨hop, hmem⟩
  · refine ⟨hidle.1, ?_⟩
    funext x
    rw [andRange, if_neg (by omega), hidle.2]

end

end OpenTricore
