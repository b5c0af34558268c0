import OpenTricore.TcLoad

/-! What a pass of `tc-load flash` means, for files of every length. On flash that works each
file that fits passes. -/

namespace OpenTricore.TcLoad
open Lib Lib.Prog

/-! ## Flash that works -/

/-- No access fails, no cell is worn out, and no command keeps the flash busy. -/
def workingCells : Env BusSig Cells
  | s, .read _ a, r, s' =>
    r = some (if a.address = FHCI_STATUS.toUInt64 then 0 else loadWord s.hw.mem a.address.toNat) ∧
      s' = s
  | s, .write _ a v, r, s' => r = true ∧ s' = s.write a.address v

theorem workingCells_flashCells (s : Cells) (o : BusOp) (r : BusSig.Res o) (s' : Cells)
    (h : workingCells s o r s') : flashCells s o r s' := by
  cases o with
  | read c a =>
    obtain ⟨rfl, rfl⟩ := h
    refine ⟨?_, rfl⟩
    rintro hwin v hv
    have hstatus : a.address ≠ FHCI_STATUS.toUInt64 := by
      rintro hstatus
      rw [hstatus] at hwin
      exact absurd hwin (by decide)
    rw [if_neg hstatus] at hv
    exact (Option.some.inj hv).symm
  | write c a v =>
    obtain ⟨-, rfl⟩ := h
    exact .inl ⟨rfl, _, fun x => .inr rfl, rfl⟩

theorem workingCells_answers (s : Cells) (o : BusOp) : ∃ r s', workingCells s o r s' := by
  cases o with
  | read c a => exact ⟨_, _, rfl, rfl⟩
  | write c a v => exact ⟨_, _, rfl, rfl⟩

theorem workingCells_never_fails : NeverFails workingCells where
  write := fun _ _ _ _ _ _ h => h.1
  ready := by
    rintro _ _ _ _ _ ⟨rfl, -⟩
    exact ⟨0, by rw [if_pos rfl], rfl⟩

/-- What is known of the command interpreter holds of flash that works. -/
theorem wp_workingCells {α : Type} {p : Bus α} {Q : α → FlashHw → Prop}
    {X : Abort → FlashHw → Prop} {s : Cells} (h : p.wp flashHw Q X s.hw) :
    p.wp workingCells (fun a s' => Q a s'.hw) (fun e s' => X e s'.hw) s := by
  apply wp_mono _ ?_ ?_ (wp_sim (fun hw s => hw = s.hw) ?_ rfl h)
  · rintro a s' ⟨_, rfl, hQ⟩
    exact hQ
  · rintro e s' ⟨_, rfl, hX⟩
    exact hX
  · rintro _ s o r s' rfl hs
    refine ⟨s'.hw, ?_, rfl⟩
    cases o with
    | read c a => exact congrArg Cells.hw hs.2
    | write c a v =>
      obtain ⟨rfl, rfl⟩ := hs
      exact .inl ⟨rfl, rfl⟩

section
variable (t : Target)

/-- Working flash is erased. -/
theorem erase_workingCells (addr len : UInt64) (h : RangeInWindow addr.toNat len.toNat) (s : Cells)
    (m : Mem) (hidle : s.hw.Idle m) :
    (tcmcdFlashErase t addr len).wp workingCells (fun rc s' => rc = 0 ∧ s'.hw.Idle
      (eraseRange m (addr.toNat / SECTOR * SECTOR) (eraseStop addr.toNat len.toNat)))
      (fun _ _ => False) s := by
  have hrule := wp_tcmcdFlashErase workingCells t addr len h (fun _ _ => True) (fun _ => False) ?_ s
    trivial
  · have hhw := wp_workingCells (tcmcdFlashErase_hw t addr len h s.hw m hidle)
    apply wp_mono _ ?_ (fun _ _ h => h.1) (wp_and _ hrule hhw)
    rintro rc s' ⟨⟨rfl, -⟩ | ⟨-, hfalse⟩, hmem⟩
    · exact ⟨rfl, hmem rfl⟩
    · exact hfalse.elim
  · intro a s₁ _ _ _ _
    apply wp_mono _ ?_ (fun _ _ h => h) (workingCells_never_fails.eraseSector_ok t _ s₁)
    rintro failed s' rfl
    trivial

/-- Working flash takes the data. -/
theorem program_workingCells (addr : UInt64) (data : Nat → UInt8) (len : UInt32)
    (h : RangeInWindow addr.toNat len.toNat) (halign : addr.toNat % 32 = 0) (s : Cells) (m : Mem)
    (hidle : s.hw.Idle m) :
    (tcmcdFlashProgram t addr data len).wp workingCells (fun rc s' => rc = 0 ∧
      s'.hw.Idle (andRange m addr.toNat len.toNat data)) (fun _ _ => False) s := by
  have hrule := wp_tcmcdFlashProgram workingCells t addr data len h (fun _ _ => True)
    (fun _ => True)
    (fun _ => False) ?_ ?_ s trivial (fun hmod => hmod halign)
  · have hhw := wp_workingCells (tcmcdFlashProgram_hw t addr data len h s.hw m hidle)
    apply wp_mono _ ?_ (fun _ _ h => h.1) (wp_and _ hrule hhw)
    rintro rc s' ⟨⟨rfl, -, -⟩ | ⟨-, hfalse⟩, hmem⟩
    · exact ⟨rfl, (hmem rfl).2⟩
    · exact hfalse.elim
  · intro off s₁ _ _ _
    apply wp_mono _ ?_ (fun _ _ h => h)
      (workingCells_never_fails.programPage_ok t addr data len _ s₁)
    rintro failed s' rfl
    trivial
  · intro s₁ _
    simp only [w32, wp_bind, wp_xferW]
    rintro r s' ⟨rfl, -⟩
    trivial

variable (target : UInt64) (img : Nat → UInt8) (len : UInt32)

theorem verify_workingCells (h : RangeInWindow target.toNat len.toNat) (hlen : len.toNat % 4 = 0)
    (s : Cells) (hmem : ∀ i < len.toNat, s.hw.mem (target.toNat + i) = img i) :
    (verify t target img len).wp workingCells (fun ok _ => ok = true) (fun _ _ => False) s := by
  apply wp_mono _ ?_ (fun _ _ h => h) (wp_verify workingCells t target img len h hlen
    (fun _ ok s' => ok = true ∧ s' = s) ?_ s ⟨rfl, rfl⟩)
  · exact fun ok s' h => h.1
  · rintro off ok _ a halign hoff ha ⟨rfl, rfl⟩ r s' ⟨rfl, rfl⟩
    have hstatus : a ≠ FHCI_STATUS.toUInt64 := by
      rintro rfl
      simp only [RangeInWindow, FLASH_MIN, FLASH_MAX, UInt32.reduceToNat] at h
      rw [show FHCI_STATUS.toUInt64.toNat = 0xF8040004 from rfl] at ha
      omega
    have hword : loadWord s'.hw.mem a.toNat = loadWord img off := by
      apply word_ext
      intro b hb
      rw [byteOf_loadWord _ _ _ hb, byteOf_loadWord _ _ _ hb, ha, Nat.add_assoc]
      exact hmem (off + b) (by omega)
    simp only [if_neg hstatus, hword]
    simp

/-- On working flash the command returns 0. -/
theorem flashImage_workingCells (h : RangeInWindow target.toNat len.toNat)
    (halign : target.toNat % SECTOR = 0) (hlen : len.toNat % 4 = 0) (s : Cells)
    (hop : s.hw.opcode = none) :
    (flashImage t target img len).wp workingCells (fun rc _ => rc = 0) (fun _ _ => False) s := by
  simp only [SECTOR] at halign
  simp only [flashImage, wp_bind]
  apply wp_mono _ ?_ (fun _ _ h => h) (erase_workingCells t target len.toUInt64
    (by rw [UInt32.toNat_toUInt64]; exact h) s s.hw.mem ⟨hop, rfl⟩)
  rintro rc s₁ ⟨rfl, hidle⟩
  rw [UInt32.toNat_toUInt64] at hidle
  simp only [ne_eq, not_true_eq_false, ↓reduceIte, wp_bind]
  apply wp_mono _ ?_ (fun _ _ h => h)
    (program_workingCells t target img len h (by omega) s₁ _ hidle)
  rintro rc s₂ ⟨rfl, -, hmem⟩
  simp only [not_true_eq_false, ↓reduceIte, wp_bind]
  have hstored : ∀ i < len.toNat, s₂.hw.mem (target.toNat + i) = img i := by
    intro i hi
    rw [hmem, andRange, if_pos (by omega), eraseRange, if_pos, Nat.add_sub_cancel_left]
    · exact UInt8.neg_one_and
    · simp only [eraseStop, SECTOR]
      omega
  apply wp_mono _ ?_ (fun _ _ h => h) (verify_workingCells t target img len h hlen s₂ hstored)
  rintro ok s₃ rfl
  simp only [rd32, wp_bind, wp_xferR]
  rintro r s₄ ⟨rfl, -⟩
  rfl

end

/-! ## The command -/

/-- The file is there, and is read as far as there is room. -/
def workingHost (file : List UInt8) : Env LoadSig Cells
  | s, .fopen, r, s' => r = some file.length ∧ s' = s
  | s, .calloc _, r, s' => r = true ∧ s' = s
  | s, .fread room size, r, s' =>
    r = (if size ≤ capacity room then .all (fun i => file.getD i 0) else .short) ∧ s' = s
  | s, .openTarget _, r, s' => r = some ⟨0, 0⟩ ∧ s' = s
  | s, .bus o, r, s' => workingCells s o r s'

theorem workingHost_answers (file : List UInt8) (s : Cells) (o : LoadOp) :
    ∃ r s', workingHost file s o r s' := by
  cases o with
  | bus o => exact workingCells_answers s o
  | fopen | calloc | fread | openTarget => exact ⟨_, _, rfl, rfl⟩

theorem workingHost_host (file : List UInt8) (s : Cells) (o : LoadOp)
    (r : LoadSig.Res o) (s' : Cells)
    (h : workingHost file s o r s') : host file s o r s' := by
  cases o with
  | fopen =>
    obtain ⟨rfl, rfl⟩ := h
    exact ⟨fun n hn => (Option.some.inj hn).symm, rfl⟩
  | calloc size => exact h.2
  | fread room size =>
    obtain ⟨hr, rfl⟩ := h
    refine ⟨?_, rfl⟩
    split at hr
    · rename_i hroom
      rw [hr]
      exact ⟨fun i _ => rfl, hroom⟩
    · rw [hr]
      trivial
  | openTarget halt =>
    obtain ⟨-, rfl⟩ := h
    exact ⟨rfl, rfl⟩
  | bus o => exact workingCells_flashCells s o r s' h

/-- A file that fits passes. -/
theorem cmdFlash_passes {argc : Nat} {target : UInt64} {file : List UInt8} (hargc : 4 ≤ argc)
    (h : Accepted target) (hfits : target.toNat + rounded file.length ≤ FLASH_MAX.toNat)
    (hw : FlashHw) (hop : hw.opcode = none) :
    (cmdFlash argc target).wp (workingHost file) (fun rc _ => rc = 0) (fun _ _ => False)
      ⟨hw, []⟩ := by
  have hmax : FLASH_MAX.toNat < 2 ^ 32 := FLASH_MAX.toNat_lt
  have hlen : (UInt32.ofNat (rounded file.length)).toNat = rounded file.length := by
    rw [UInt32.toNat_ofNat']
    exact Nat.mod_eq_of_lt (by omega)
  have hle := length_le_rounded file.length
  have hmod := rounded_mod file.length
  have hroom : file.length ≤ capacity (some (UInt32.ofNat (rounded file.length))) := by
    rw [capacity, Option.elim_some, hlen]
    exact hle
  rw [cmdFlash_accepted hargc h, readFile, wp_bind]
  rintro opened _ ⟨rfl, rfl⟩ given _ ⟨rfl, rfl⟩ answer _ ⟨hanswer, rfl⟩
  rw [if_pos rfl, if_pos hroom] at hanswer
  subst hanswer
  rintro core _ ⟨rfl, rfl⟩
  apply wp_onBus (E := workingCells) (fun _ _ _ _ h => h)
  apply flashImage_workingCells _ target _ _ ?_ h.2.2 ?_ _ hop
  · rw [hlen]
    exact ⟨h.1, hfits⟩
  · omega

/-- With 0 the whole file is in flash, and a file that does not fit changes nothing, also one
whose length is cut. -/
theorem pass_is_complete (argc : Nat) (target : UInt64) (file : List UInt8) (hargc : 4 ≤ argc)
    (h : Accepted target) : PassIsComplete argc target file := by
  intro hw x s hrun
  obtain ⟨hok, herr⟩ := hrun.sound _ (cmdFlash_honest hargc h hw)
  cases x with
  | ok rc => exact hok rc rfl
  | error e => exact herr e rfl

/-- Three bytes for the start of PFLASH, which pass. -/
theorem pass_is_complete_three : ∃ s,
    Runs (host [1, 2, 3]) (cmdFlash 4 0xA0000000) ⟨⟨fun _ => 0xFF, none, 0, none⟩, []⟩ (.ok 0) s ∧
      Honest 0xA0000000 [1, 2, 3] (.ok 0) s := by
  obtain ⟨rc, s, hrun, rfl⟩ := (asks_anything (cmdFlash 4 0xA0000000)).can
    (fun s o _ => workingHost_answers [1, 2, 3] s o)
    (cmdFlash_passes (by decide) (by decide) (by decide) ⟨fun _ => 0xFF, none, 0, none⟩ rfl)
  have hrun := hrun.mono (workingHost_host [1, 2, 3])
  exact ⟨s, hrun, pass_is_complete 4 0xA0000000 [1, 2, 3] (by decide) (by decide) _ _ s hrun⟩

end OpenTricore.TcLoad
