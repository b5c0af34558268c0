import OpenTricore.FlashCommands

/-! `tc-load flash`, of `tools/tc-load/main.c`: a file is read into memory, programmed, and
compared with what is read back. Its length is rounded up to pages and cut to 32 bits before
anything else looks at it. A file whose length is changed by that does not get past the read,
and otherwise the command returns 0 only if the whole file is in flash. What is printed is left
out: `PASS` goes with the value 0. -/

namespace OpenTricore.TcLoad
open Lib Lib.Prog

/-! ## The code -/

def HCI_STATUS : UInt32 := 0xF8040004
def PAGE_LEN : UInt32 := 32
def SECTOR_LEN : UInt32 := TCMCD_FLASH_SECTOR
def FLASH_SAFE_MIN : UInt32 := 0xA0000000
def FLASH_SAFE_MAX : UInt32 := 0xA1400000

/-- How `fread` ends: with all that was asked for, with less, or with the process killed by
a store outside of the buffer. -/
inductive Fread
  | all (data : Nat → UInt8)
  | short
  | fault

/-- `room` is the size of the buffer, if there is one. -/
inductive LoadOp
  | fopen
  | calloc (size : UInt32)
  | fread (room : Option UInt32) (size : Nat)
  | openTarget (halt : Bool)
  | bus (o : BusOp)

/-- An open file answers its length. -/
abbrev LoadSig : Sig where
  Op := LoadOp
  Res
    | .fopen => Option Nat
    | .calloc _ => Bool
    | .fread .. => Fread
    | .openTarget _ => Option Target
    | .bus o => BusSig.Res o

abbrev Load := Prog LoadSig Abort

def ask (o : LoadOp) : Load (LoadSig.Res o) := Prog.perform (S := LoadSig) o

/-- A program of the access layer, run by the tool. -/
def onBus {α : Type} (p : Bus α) : Load α := Prog.lift (T := LoadSig) .bus (fun _ r => r) p

/-- `((s + PAGE_LEN - 1)/PAGE_LEN)*PAGE_LEN`, as the `long` it is before it becomes `len`. -/
def rounded (s : Nat) : Nat := (s + PAGE_LEN.toNat - 1) / PAGE_LEN.toNat * PAGE_LEN.toNat

theorem length_le_rounded (n : Nat) : n ≤ rounded n := by
  rw [rounded, show PAGE_LEN.toNat = 32 from rfl]
  omega

theorem rounded_mod (n : Nat) : rounded n % 32 = 0 := Nat.mul_mod_left _ _

/-- `img` and `len` from the file. -/
def readFile : Load (Option ((Nat → UInt8) × UInt32)) := do
  match ← ask .fopen with
  | none => return none
  | some s =>
    let len := UInt32.ofNat (rounded s)
    let given ← ask (.calloc len)
    match ← ask (.fread (if given then some len else none) s) with
    | .all data => return some (fun i => if i < s then data i else 0, len)
    | .short => return none
    | .fault => .fail (.die "fread")

/-- The bytes of the eight words `pat[i]`. -/
def testPattern (i : Nat) : UInt8 := byteOf (0x5417C0DE + UInt32.ofNat (i / 4)) (i % 4)

/-- `open_target`, which exits when it does not find a core. -/
def openTarget (halt : Bool) : Load Target := do
  match ← ask (.openTarget halt) with
  | none => .fail (.die "open_target")
  | some t => return t

def rd32 (t : Target) (a : UInt64) : Bus UInt32 := do
  match ← xferR t a with
  | none => .fail (.die "rd32")
  | some v => return v

/-- The comparison loop, with the value of `ok` at its end. -/
def verify (t : Target) (target : UInt64) (img : Nat → UInt8) (len : UInt32) : Bus Bool :=
  Prog.loop .hang (fun ((off, ok) : UInt32 × Bool) =>
    if off < len then do
      match ← rd32Try t (target + off.toUInt64) with
      | none => return .inl (off + 4, false)
      | some got => return .inl (off + 4, ok && got = loadWord img off.toNat)
    else return .inr ok) (2 ^ 32) (0, true)

/-- The part of `cmd_flash` behind `open_target`. -/
def flashImage (t : Target) (target : UInt64) (img : Nat → UInt8) (len : UInt32) : Bus Int := do
  if (← tcmcdFlashErase t target len.toUInt64) ≠ 0 then return 1
  else if (← tcmcdFlashProgram t target img len) ≠ 0 then return 1
  else
    let ok ← verify t target img len
    let _ ← rd32 t HCI_STATUS.toUInt64
    return if ok then 0 else 1

/-- `target` is `argv[2]` as `strtoull` reads it, and the file is `argv[3]`. -/
def cmdFlash (argc : Nat) (target : UInt64) : Load Int := do
  if argc < 3 then return 2
  else if target < FLASH_SAFE_MIN.toUInt64 ∨ target ≥ FLASH_SAFE_MAX.toUInt64 ∨
      target &&& (SECTOR_LEN - 1).toUInt64 ≠ 0 then return 2
  else
    match ← (if argc ≥ 4 then readFile else return some (testPattern, PAGE_LEN)) with
    | none => return 1
    | some (img, len) =>
      let t ← openTarget true
      onBus (flashImage t target img len)

/-! ## The surroundings -/

/-- The flash, and a record of the sectors that were erased. -/
structure Cells where
  hw : FlashHw
  erased : List Nat

/-- The sector that a write erases, if it ends an erase command. -/
def erasedBy (hw : FlashHw) (a : UInt64) (v : UInt32) : List Nat :=
  if a = fcmd 0xaaa8 ∧ hw.opcode = some 0x80 ∧ v = 0x50 then [hw.target.toNat / SECTOR * SECTOR]
  else []

def Cells.write (s : Cells) (a : UInt64) (v : UInt32) : Cells :=
  ⟨s.hw.write a v, s.erased ++ erasedBy s.hw a v⟩

/-- The same with cells that may be worn out and keep what they held. -/
def Cells.Writes (s : Cells) (a : UInt64) (v : UInt32) (s' : Cells) : Prop :=
  s'.erased = (s.write a v).erased ∧
    ∃ m : Mem, (∀ x, m x = s.hw.mem x ∨ m x = (s.write a v).hw.mem x) ∧
      s'.hw = { (s.write a v).hw with mem := m }

/-- A read of flash that does not fail gives what is there. Elsewhere it gives anything. -/
def Truthful (m : Mem) (a : UInt64) (r : Option UInt32) : Prop :=
  RangeInWindow a.toNat 4 → ∀ v, r = some v → v = loadWord m a.toNat

/-- Any access may fail. A write that fails may have had its effect all the same. -/
def flashCells : Env BusSig Cells
  | s, .read _ a, r, s' => Truthful s.hw.mem a.address r ∧ s' = s
  | s, .write _ a v, r, s' => s.Writes a.address v s' ∨ (r = false ∧ s' = s)

/-- The size of a buffer. -/
def capacity (room : Option UInt32) : Nat := room.elim 0 UInt32.toNat

/-- What `fread` may do with a file. A length that was cut leaves at least `2^32 - 31` bytes for
which there is no room, and on the way through them a store meets memory that is not there: the
read ends early, or the process is killed. -/
def Reads (file : List UInt8) (room : Option UInt32) (size : Nat) : Fread → Prop
  | .all data => (∀ i < size, data i = file.getD i 0) ∧ size ≤ capacity room
  | .short => True
  | .fault => capacity room < size

/-- The reset of the chip may end a command that was begun. -/
def host (file : List UInt8) : Env LoadSig Cells
  | s, .fopen, r, s' => (∀ n, r = some n → n = file.length) ∧ s' = s
  | s, .calloc _, _, s' => s' = s
  | s, .fread room size, r, s' => Reads file room size r ∧ s' = s
  | s, .openTarget _, _, s' => s'.hw.mem = s.hw.mem ∧ s'.erased = s.erased
  | s, .bus o, r, s' => flashCells s o r s'

/-! ## What the command promises -/

/-- A target that `cmd_flash` accepts. -/
def Accepted (target : UInt64) : Prop :=
  FLASH_SAFE_MIN.toNat ≤ target.toNat ∧ target.toNat < FLASH_SAFE_MAX.toNat ∧
    target.toNat % SECTOR = 0

instance (target : UInt64) : Decidable (Accepted target) := by
  unfold Accepted
  infer_instance

/-- What holds after a run that ends with `x`: with 0 the whole file is in flash and only
sectors below it were erased, and a file that does not fit changes nothing. -/
structure Honest (target : Nat) (file : List UInt8) (x : Except Abort Int) (s : Cells) : Prop where
  stored : x = .ok 0 → ∀ (i : Nat) (h : i < file.length), s.hw.mem (target + i) = file[i]
  spared : x = .ok 0 → ∀ a ∈ s.erased, Intersects target (rounded file.length) a
  refused : FLASH_MAX.toNat < target + file.length → x ≠ .ok 0 ∧ s.erased = []

/-- Every run is honest, whatever the flash holds at its start. -/
def PassIsComplete (argc : Nat) (target : UInt64) (file : List UInt8) : Prop :=
  ∀ hw x s, Runs (host file) (cmdFlash argc target) ⟨hw, []⟩ x s → Honest target.toNat file x s

/-! ## The comparison -/

section verify
variable {σ : Type} (E : Env BusSig σ) {X : Abort → σ → Prop} (t : Target)

/-- A rule for `verify`: `I off ok` holds before the word at `off` is read. -/
theorem wp_verify (target : UInt64) (img : Nat → UInt8) (len : UInt32)
    (h : RangeInWindow target.toNat len.toNat) (hlen : len.toNat % 4 = 0)
    (I : Nat → Bool → σ → Prop)
    (hread : ∀ (off : Nat) (ok : Bool) s (a : UInt64), off % 4 = 0 → off + 4 ≤ len.toNat →
      a.toNat = target.toNat + off → I off ok s → ∀ (r : Option UInt32) s',
      E s (.read t.core ⟨a, t.msid⟩) r s' →
      I (off + 4) (ok && r == some (loadWord img off)) s')
    (s : σ) (hI : I 0 true s) : (verify t target img len).wp E (I len.toNat) X s := by
  simp only [RangeInWindow, FLASH_MIN, FLASH_MAX, UInt32.reduceToNat] at h
  apply wp_loop E (fun (b : UInt32 × Bool) s => (b.1.toNat % 4 = 0 ∧ b.1.toNat ≤ len.toNat) ∧
    I b.1.toNat b.2 s) (fun b => len.toNat - b.1.toNat) _ _ ?_ _ _ _ ?_ ?_
  · rintro ⟨off, ok⟩ s ⟨⟨halign, hle⟩, hI⟩
    dsimp only at halign hle hI ⊢
    split
    · rename_i hlt
      rw [UInt32.lt_iff_toNat_lt] at hlt
      have haddr : (target + off.toUInt64).toNat = target.toNat + off.toNat := by
        rw [UInt64.toNat_add, UInt32.toNat_toUInt64]
        omega
      have hnext : (off + 4).toNat = off.toNat + 4 := by
        rw [UInt32.toNat_add, show (4 : UInt32).toNat = 4 from rfl]
        omega
      rw [wp_bind, rd32Try, wp_xferR]
      intro r s' hr
      have hI' := hread off.toNat ok s _ halign (by omega) haddr hI r s' hr
      cases r with
      | none =>
        simp only [pure_eq, wp_ret, hnext]
        rw [show (none == some (loadWord img off.toNat)) = false from rfl, Bool.and_false] at hI'
        exact ⟨⟨⟨by omega, by omega⟩, hI'⟩, by omega⟩
      | some got =>
        simp only [pure_eq, wp_ret, hnext]
        exact ⟨⟨⟨by omega, by omega⟩, hI'⟩, by omega⟩
    · rename_i hge
      rw [UInt32.lt_iff_toNat_lt] at hge
      rw [pure_eq, wp_ret, show len.toNat = off.toNat by omega]
      exact hI
  · exact ⟨⟨rfl, Nat.zero_le _⟩, hI⟩
  · dsimp only
    omega

end verify

section
variable (t : Target) (target : UInt64) (img : Nat → UInt8) (len : UInt32)

/-- A comparison that ends with `ok` has read the whole image. -/
theorem verify_stored (h : RangeInWindow target.toNat len.toNat) (hlen : len.toNat % 4 = 0)
    (s : Cells) : (verify t target img len).wp flashCells (fun ok s' => s' = s ∧
      (ok = true → ∀ i < len.toNat, s.hw.mem (target.toNat + i) = img i)) (fun _ _ => False) s := by
  apply wp_verify flashCells t target img len h hlen (fun off ok s' => s' = s ∧
    (ok = true → ∀ i < off, s.hw.mem (target.toNat + i) = img i)) ?_ s
    ⟨rfl, fun _ i hi => absurd hi (Nat.not_lt_zero i)⟩
  rintro off ok _ a halign hoff ha ⟨rfl, hI⟩ r s' ⟨htrue, rfl⟩
  refine ⟨rfl, ?_⟩
  intro hok i hi
  rw [Bool.and_eq_true, beq_iff_eq] at hok
  rcases Nat.lt_or_ge i off with hlt | hge
  · exact hI hok.1 i hlt
  · have hwin : RangeInWindow a.toNat 4 := by
      simp only [RangeInWindow] at h ⊢
      omega
    have hword := htrue hwin _ hok.2
    have hbyte := congrArg (fun w => byteOf w (i - off)) hword
    simp only [byteOf_loadWord _ _ _ (show i - off < 4 by omega)] at hbyte
    rw [ha, show target.toNat + off + (i - off) = target.toNat + i by omega,
      show off + (i - off) = i by omega] at hbyte
    exact hbyte.symm

end

/-! ## What is erased -/

theorem target_write (hw : FlashHw) (a : UInt64) (v : UInt32) :
    (hw.write a v).target = if a = fcmd 0xaa50 then v else hw.target := by
  rcases eq_or_ne a (fcmd 0xaa50) with rfl | ha
  · rw [write_target, if_pos rfl]
  · rw [if_neg ha, FlashHw.write]
    split
    · split_ifs <;> rfl
    · split_ifs with h1 h2
      · rfl
      · cases hw.opcode with
        | none => rfl
        | some op =>
          simp only [FlashHw.command]
          split_ifs
          · rfl
          · cases hw.page <;> rfl
          · rfl
      · rfl

section writes
variable {s s' : Cells} {a : UInt64} {v : UInt32}

theorem Cells.Writes.target (h : s.Writes a v s') :
    s'.hw.target = if a = fcmd 0xaa50 then v else s.hw.target := by
  obtain ⟨-, m, -, hhw⟩ := h
  rw [hhw]
  exact target_write s.hw a v

/-- What a write erases is the sector of the target. -/
theorem Cells.Writes.mem_erased (h : s.Writes a v s') {b : Nat} (hb : b ∈ s'.erased) :
    b ∈ s.erased ∨ (a, v) = (fcmd 0xaaa8, 0x50) ∧ b = s.hw.target.toNat / SECTOR * SECTOR := by
  rw [h.1, Cells.write, List.mem_append, erasedBy] at hb
  rcases hb with hb | hb
  · exact .inl hb
  · split at hb
    · rename_i hcmd
      exact .inr ⟨Prod.ext hcmd.1 hcmd.2.2, List.mem_singleton.mp hb⟩
    · cases hb

theorem Cells.Writes.erased_eq (h : s.Writes a v s') (hcmd : (a, v) ≠ (fcmd 0xaaa8, 0x50)) :
    s'.erased = s.erased := by
  rw [h.1, Cells.write, erasedBy, if_neg, List.append_nil]
  rintro ⟨rfl, -, rfl⟩
  exact hcmd rfl

end writes

/-- In the cycles for `v`, the target is `v`, and the erase command comes after it. -/
theorem eraseCycles_target {v : UInt32} {w : UInt64 × UInt32} (hw : w ∈ eraseCycles v)
    (ha : w.1 = fcmd 0xaa50) : w.2 = v := by
  simp only [eraseCycles, List.mem_cons, List.not_mem_nil, or_false] at hw
  rcases hw with rfl | rfl | rfl | rfl | rfl
  · exact absurd ha (by decide)
  · rfl
  · exact absurd ha (by decide)
  · exact absurd ha (by decide)
  · exact absurd ha (by decide)

theorem target_before_erase {v : UInt32} {done rest : List (UInt64 × UInt32)}
    (h : eraseCycles v = done ++ (fcmd 0xaaa8, 0x50) :: rest) : (fcmd 0xaa50, v) ∈ done := by
  rcases done with _ | ⟨d₀, _ | ⟨d₁, done⟩⟩
  · simp [eraseCycles, fcmd_values] at h
  · simp [eraseCycles, fcmd_values] at h
  · simp only [eraseCycles, List.cons_append, List.cons.injEq] at h
    rw [← h.2.1]
    simp

theorem pageCycles_no_erase {data : Nat → UInt8} {len off target : UInt32} {w : UInt64 × UInt32}
    (hw : w ∈ pageCycles data len off target) : w ≠ (fcmd 0xaaa8, 0x50) := by
  rintro rfl
  simp [pageCycles, enterPageCycles, loadPageCycles, writePageCycles, fcmd_values] at hw

/-- Nothing was erased besides `e` and the sector of `v`. -/
def OnlySector (e : List Nat) (v : UInt32) (s : Cells) : Prop :=
  ∀ b ∈ s.erased, b ∈ e ∨ b = v.toNat / SECTOR * SECTOR

section
variable (t : Target)

/-- What the cycles of a command keep is kept by the command. -/
theorem command_cells {ws : List (UInt64 × UInt32)} {I : Cells → Prop} {s : Cells}
    (h : (w32Any t ws).wp flashCells (fun _ => I) (fun _ _ => False) s) :
    (flashCommand t ws).wp flashCells (fun _ => I) (fun _ _ => False) s := by
  apply wp_flashCommand flashCells t ws (fun _ => I) ?_ (fun _ h => h) s h
  rintro _ s r s' hs ⟨-, rfl⟩
  exact hs

theorem eraseSector_cells (v : UInt32) (s : Cells) :
    (eraseSector t v).wp flashCells (fun _ => OnlySector s.erased v) (fun _ _ => False) s := by
  rw [eraseSector_eq]
  apply command_cells
  apply wp_w32Any flashCells t (eraseCycles v) (fun done s' =>
    ((fcmd 0xaa50, v) ∈ done → s'.hw.target = v) ∧ OnlySector s.erased v s') ?_ (fun _ h => h.2) s
  · exact ⟨fun h => absurd h List.not_mem_nil, fun _ h => .inl h⟩
  · rintro done w rest hws s₁ ⟨htarget, honly⟩ r s' hr
    have honly' : OnlySector s.erased v s' := by
      rcases hr with hwrites | ⟨-, rfl⟩
      · intro b hb
        rcases hwrites.mem_erased hb with hb | ⟨hcmd, rfl⟩
        · exact honly b hb
        · replace hcmd : w = (fcmd 0xaaa8, 0x50) := hcmd
          rw [hcmd] at hws
          rw [htarget (target_before_erase hws)]
          exact .inr rfl
      · exact honly
    cases r with
    | false => exact honly'
    | true =>
      refine ⟨?_, honly'⟩
      intro hdone
      have hwrites := hr.resolve_right fun h => absurd h.1.symm Bool.false_ne_true
      rw [hwrites.target]
      split
      · rename_i ha
        exact eraseCycles_target (by rw [hws]; simp) ha
      · rename_i ha
        rcases List.mem_append.mp hdone with hdone | hdone
        · exact htarget hdone
        · rw [← List.mem_singleton.mp hdone] at ha
          exact absurd rfl ha

/-- Programming a page erases nothing. -/
theorem programPage_cells (addr : UInt64) (data : Nat → UInt8) (len off : UInt32) (s : Cells) :
    (programPage t addr data len off).wp flashCells (fun _ s' => s'.erased = s.erased)
      (fun _ _ => False) s := by
  rw [programPage_eq]
  apply command_cells t (I := fun s' => s'.erased = s.erased)
  apply wp_w32Any flashCells t _ (fun _ s' => s'.erased = s.erased) ?_ (fun _ h => h) s rfl
  rintro done w rest hws s₁ hs₁ r s' hr
  have hs' : s'.erased = s.erased := by
    rcases hr with hwrites | ⟨-, rfl⟩
    · exact (hwrites.erased_eq (pageCycles_no_erase (by rw [hws]; simp))).trans hs₁
    · exact hs₁
  split
  · exact hs'
  · exact hs'

theorem erase_cells (addr len : UInt64) (h : RangeInWindow addr.toNat len.toNat)
    (halign : addr.toNat % SECTOR = 0) (s : Cells) (hs : s.erased = []) :
    (tcmcdFlashErase t addr len).wp flashCells (fun _ s' =>
      ∀ b ∈ s'.erased, Intersects addr.toNat len.toNat b) (fun _ _ => False) s := by
  have hrule := wp_tcmcdFlashErase flashCells t addr len h
    (fun _ s' => ∀ b ∈ s'.erased, Intersects addr.toNat len.toNat b)
    (fun s' => ∀ b ∈ s'.erased, Intersects addr.toNat len.toNat b) ?_ s (by simp [hs])
  · apply wp_mono _ ?_ (fun _ _ h => h) hrule
    rintro rc s' (⟨-, hs'⟩ | ⟨-, hs'⟩)
    · exact hs'
    · exact hs'
  · intro a s₁ ha hlow hlt hs₁
    simp only [RangeInWindow, FLASH_MIN, FLASH_MAX, UInt32.reduceToNat] at h
    apply wp_mono _ ?_ (fun _ _ h => h) (eraseSector_cells t (UInt32.ofNat a) s₁)
    intro failed s' honly
    have hsector : (UInt32.ofNat a).toNat / SECTOR * SECTOR = a := by
      simp only [SECTOR] at ha ⊢
      rw [UInt32.toNat_ofNat']
      omega
    have hs' : ∀ b ∈ s'.erased, Intersects addr.toNat len.toNat b := by
      intro b hb
      rcases honly b hb with hb | rfl
      · exact hs₁ b hb
      · rw [hsector]
        exact ⟨a, by simp only [SECTOR] at halign hlow; omega, hlt, Nat.le_refl a,
          by simp only [SECTOR]; omega⟩
    split
    · exact hs'
    · exact hs'

theorem program_cells (addr : UInt64) (data : Nat → UInt8) (len : UInt32)
    (h : RangeInWindow addr.toNat len.toNat) (s : Cells) :
    (tcmcdFlashProgram t addr data len).wp flashCells (fun _ s' => s'.erased = s.erased)
      (fun _ _ => False) s := by
  have hrule := wp_tcmcdFlashProgram flashCells t addr data len h (fun _ s' => s'.erased = s.erased)
    (fun s' => s'.erased = s.erased) (fun s' => s'.erased = s.erased) ?_ ?_ s rfl (fun _ => rfl)
  · apply wp_mono _ ?_ (fun _ _ h => h) hrule
    rintro rc s' (⟨-, -, hs'⟩ | ⟨-, hs'⟩)
    · exact hs'
    · exact hs'
  · intro off s₁ _ _ hs₁
    apply wp_mono _ ?_ (fun _ _ h => h) (programPage_cells t addr data len (UInt32.ofNat off) s₁)
    intro failed s' hs'
    split
    · exact hs'.trans hs₁
    · exact hs'.trans hs₁
  · intro s₁ hs₁
    simp only [w32, wp_bind, wp_xferW]
    rintro r s' (hwrites | ⟨rfl, rfl⟩)
    · have hread : (fcmd 0x5554, (0xf0 : UInt32)) ≠ (fcmd 0xaaa8, 0x50) := by decide
      have hs' : s'.erased = s.erased := (hwrites.erased_eq hread).trans hs₁
      split
      · exact hs'
      · exact hs'
    · exact hs₁

variable (target : UInt64) (img : Nat → UInt8) (len : UInt32)

/-- With 0 the image was compared, and only sectors below it are ever erased. -/
theorem flashImage_cells (h : RangeInWindow target.toNat len.toNat)
    (halign : target.toNat % SECTOR = 0) (hlen : len.toNat % 4 = 0) (s : Cells)
    (hs : s.erased = []) :
    (flashImage t target img len).wp flashCells (fun rc s' =>
      (rc = 0 → ∀ i < len.toNat, s'.hw.mem (target.toNat + i) = img i) ∧
      ∀ b ∈ s'.erased, Intersects target.toNat len.toNat b) (fun _ _ => True) s := by
  simp only [flashImage, wp_bind]
  apply wp_mono _ ?_ (fun _ _ _ => trivial) (erase_cells t target len.toUInt64
    (by rw [UInt32.toNat_toUInt64]; exact h) halign s hs)
  intro rc s₁ hs₁
  rw [UInt32.toNat_toUInt64] at hs₁
  split
  · exact ⟨fun h => absurd h (by decide), hs₁⟩
  · rw [wp_bind]
    apply wp_mono _ ?_ (fun _ _ _ => trivial) (program_cells t target img len h s₁)
    intro rc s₂ hs₂
    rw [← hs₂] at hs₁
    split
    · exact ⟨fun h => absurd h (by decide), hs₁⟩
    · simp only [wp_bind]
      apply wp_mono _ ?_ (fun _ _ _ => trivial) (verify_stored t target img len h hlen s₂)
      rintro ok _ ⟨rfl, hstored⟩
      simp only [rd32, wp_bind, wp_xferR]
      rintro r _ ⟨-, rfl⟩
      cases r with
      | none => trivial
      | some v =>
        refine ⟨?_, hs₁⟩
        intro hrc
        cases ok with
        | false => exact absurd hrc (by decide)
        | true => exact hstored rfl

/-- An image that ends behind PFLASH is refused before the first access. -/
theorem flashImage_refused (h : Accepted target)
    (hover : FLASH_MAX.toNat < target.toNat + len.toNat) :
    flashImage t target img len = .ret 1 := by
  have hlen := len.toNat_lt
  have hok : flashRangeOk target len.toUInt64 = false := by
    rw [← Bool.not_eq_true, flashRangeOk_iff, UInt32.toNat_toUInt64]
    simp only [Accepted, FLASH_SAFE_MAX, FLASH_MAX, UInt32.reduceToNat] at h hover
    omega
  simp [flashImage, tcmcdFlashErase, hok]

end

/-! ## The command -/

theorem cmdFlash_accepted {argc : Nat} {target : UInt64} (hargc : 4 ≤ argc) (h : Accepted target) :
    cmdFlash argc target = (readFile >>= fun
      | none => return 1
      | some (img, len) => openTarget true >>= fun t => onBus (flashImage t target img len)) := by
  obtain ⟨hmin, hmax, halign⟩ := h
  have hmask : target &&& (SECTOR_LEN - 1).toUInt64 = 0 := by
    rw [← UInt64.toNat_inj, toNat_and_mask target (SECTOR_LEN - 1).toUInt64 14 (by decide)]
    exact halign
  have hlow : ¬ target < FLASH_SAFE_MIN.toUInt64 := by
    rw [UInt64.lt_iff_toNat_lt, UInt32.toNat_toUInt64]
    omega
  have hhigh : ¬ target ≥ FLASH_SAFE_MAX.toUInt64 := by
    rw [ge_iff_le, UInt64.le_iff_toNat_le, UInt32.toNat_toUInt64]
    omega
  have hrange : ¬ (target < FLASH_SAFE_MIN.toUInt64 ∨ target ≥ FLASH_SAFE_MAX.toUInt64 ∨
      target &&& (SECTOR_LEN - 1).toUInt64 ≠ 0) := by
    rintro (h | h | h)
    · exact hlow h
    · exact hhigh h
    · exact h hmask
  rw [cmdFlash, if_neg (show ¬ argc < 3 by omega), if_neg hrange, if_pos hargc]

theorem wp_onBus {α : Type} {E : Env BusSig Cells} {E' : Env LoadSig Cells}
    (hE : ∀ s (o : BusOp) (r : BusSig.Res o) s', E' s (.bus o) r s' → E s o r s') {p : Bus α}
    {Q : α → Cells → Prop} {X : Abort → Cells → Prop} {s : Cells} (h : p.wp E Q X s) :
    (onBus p).wp E' Q X s := by
  refine (wp_lift (T := LoadSig) E' LoadOp.bus (fun _ r => r) p s).mpr ?_
  apply wp_env_mono ?_ h
  rintro s o r s' ⟨_, rfl, hs⟩
  exact hE _ _ _ _ hs

/-- There is room for the file only if the length was not cut. -/
theorem rounded_lt {n : Nat} (h : n ≤ rounded n % 2 ^ 32) : rounded n < 2 ^ 32 := by
  have hmod := rounded_mod n
  have hle : rounded n < n + 32 := by
    rw [rounded, show PAGE_LEN.toNat = 32 from rfl]
    omega
  omega

/-- The image is the file, with its length. -/
theorem readFile_host (file : List UInt8) (s : Cells) :
    readFile.wp (host file) (fun x s' => s' = s ∧ ∀ img len, x = some (img, len) →
      rounded file.length < 2 ^ 32 ∧ len = UInt32.ofNat (rounded file.length) ∧
        ∀ i < file.length, img i = file.getD i 0)
      (fun _ s' => s' = s) s := by
  rw [readFile, wp_bind]
  rintro opened _ ⟨hopened, rfl⟩
  cases opened with
  | none => exact ⟨rfl, fun _ _ h => by cases h⟩
  | some size =>
    obtain rfl := hopened size rfl
    rintro given _ rfl answer _ ⟨hreads, rfl⟩
    cases answer with
    | all data =>
      refine ⟨rfl, ?_⟩
      rintro img len ⟨⟩
      refine ⟨?_, rfl, fun i hi => (if_pos hi).trans (hreads.1 i hi)⟩
      have hcut : (UInt32.ofNat (rounded file.length)).toNat = rounded file.length % 2 ^ 32 :=
        UInt32.toNat_ofNat'
      have hroom := hreads.2
      split at hroom
      · rw [capacity, Option.elim_some, hcut] at hroom
        exact rounded_lt hroom
      · exact rounded_lt (Nat.le_trans hroom (Nat.zero_le _))
    | short => exact ⟨rfl, fun _ _ h => by cases h⟩
    | fault => rfl

theorem honest_of_untouched {target : Nat} {file : List UInt8} {x : Except Abort Int} {s : Cells}
    (hx : x ≠ .ok 0) (hs : s.erased = []) : Honest target file x s :=
  ⟨fun h => absurd h hx, fun h => absurd h hx, fun _ => ⟨hx, hs⟩⟩

section
variable {target : UInt64} {file : List UInt8}

/-- Where the length is not cut. -/
theorem flashImage_honest (h : Accepted target) (hlen : rounded file.length < 2 ^ 32)
    {img : Nat → UInt8} (himg : ∀ i < file.length, img i = file.getD i 0) (t : Target) (s : Cells)
    (hs : s.erased = []) :
    (onBus (flashImage t target img (UInt32.ofNat (rounded file.length)))).wp (host file)
      (fun rc s' => Honest target.toNat file (.ok rc) s')
      (fun e s' => Honest target.toNat file (.error e) s') s := by
  have hcut : (UInt32.ofNat (rounded file.length)).toNat = rounded file.length := by
    rw [UInt32.toNat_ofNat']
    exact Nat.mod_eq_of_lt hlen
  have hle := length_le_rounded file.length
  have hmod := rounded_mod file.length
  rcases Nat.lt_or_ge FLASH_MAX.toNat (target.toNat + rounded file.length) with hover | hfits
  · rw [← hcut] at hover
    rw [flashImage_refused t target img _ h hover]
    exact honest_of_untouched (by decide) hs
  · apply wp_onBus (E := flashCells) (fun _ _ _ _ h => h)
    apply wp_mono _ ?_ ?_ (flashImage_cells t target img _ (by rw [hcut]; exact ⟨h.1, hfits⟩) h.2.2
      (by omega) s hs)
    · rintro rc s' ⟨hstored, hspared⟩
      rw [hcut] at hstored hspared
      refine ⟨?_, fun _ => hspared, fun hover => absurd hover (by omega)⟩
      intro hrc i hi
      rw [hstored (Except.ok.inj hrc) i (by omega), himg i hi, List.getD_eq_getElem?_getD,
        List.getElem?_eq_getElem hi, Option.getD_some]
    · intro e s' _
      exact ⟨nofun, nofun, fun hover => absurd hover (by omega)⟩

theorem cmdFlash_honest {argc : Nat} (hargc : 4 ≤ argc) (h : Accepted target) (hw : FlashHw) :
    (cmdFlash argc target).wp (host file) (fun rc s' => Honest target.toNat file (.ok rc) s')
      (fun e s' => Honest target.toNat file (.error e) s') ⟨hw, []⟩ := by
  rw [cmdFlash_accepted hargc h, wp_bind]
  apply wp_mono _ ?_ ?_ (readFile_host file _)
  · rintro x _ ⟨rfl, himage⟩
    cases x with
    | none => exact honest_of_untouched (by decide) rfl
    | some image =>
      obtain ⟨img, len⟩ := image
      obtain ⟨hlen, rfl, himg⟩ := himage img len rfl
      rw [openTarget, wp_bind, wp_bind]
      rintro opened s ⟨-, hs⟩
      cases opened with
      | none => exact honest_of_untouched nofun hs
      | some t => exact flashImage_honest h hlen himg t s hs
  · rintro e _ rfl
    exact honest_of_untouched nofun rfl

end

end OpenTricore.TcLoad
