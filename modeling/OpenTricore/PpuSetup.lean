import OpenTricore.MemoryAccess
import OpenTricore.Ppu

/-! What `ppu_call` leaves in the LMU when it starts the core. The operands and
the command word are written before the image, so the image must end below the
command word: then, and only then, everything is in place, and the tokens that
follow change none of the code. -/

namespace OpenTricore.Ppu
open Lib Lib.Prog

/-! ## The layout -/

/-- The LMU from its non-cached base on. It takes the largest image that `tc-ppu`
accepts, and ends inside its segment. -/
structure Lmu where
  size : Nat
  image : 64 * 1024 ≤ size
  segment : size ≤ 0x10000000

/-- The image, the operands and the command word are in place. -/
structure Intact (lmu : Lmu) (image : Nat → UInt8) (len : UInt32) (inputs : Nat → UInt32)
    (nin : UInt32) (m : Mem) : Prop where
  code : ∀ i < len.toNat, m (PPU_CODE_BASE.toNat + i) = image i
  input : ∀ i < nin.toNat, INPUT_BASE.toNat + 4 * i + 4 ≤ PPU_CODE_BASE.toNat + lmu.size ∧
    loadWord m (INPUT_BASE.toNat + 4 * i) = inputs i
  command : loadWord m CMD_WORD.toNat = 0

/-! ## The surroundings -/

/-- The memory, and what it was when the core was started and after each write
since then. -/
structure Startup where
  mem : Mem
  since : List Mem

def Startup.write (s : Startup) (a : UInt64) (v : UInt32) : Startup :=
  let m := storeWord s.mem a.toNat v
  match s.since with
  | [] => ⟨m, if a = PPU_CTRL.toUInt64 ∧ v = CTRL_RUN then [m] else []⟩
  | ms => ⟨m, ms ++ [m]⟩

/-- Every write succeeds. A read may fail, and the PPU registers read anything. -/
def startup : Env BusSig Startup
  | s, .read _ a, r, s' => s' = s ∧
    (a.address < PPU_CLC.toUInt64 → ∀ v, r = some v → v = loadWord s.mem a.address.toNat)
  | s, .write _ a v, r, s' => r = true ∧ s' = s.write a.address v

/-- Once the core is started the setup is intact, and stays so as far as the image
is concerned. -/
def Kept (lmu : Lmu) (image : Nat → UInt8) (len : UInt32) (inputs : Nat → UInt32)
    (nin : UInt32) (s : Startup) : Prop :=
  ∀ m ms, s.since = m :: ms → Intact lmu image len inputs nin m ∧
    ∀ m' ∈ ms, ∀ i < len.toNat, m' (PPU_CODE_BASE.toNat + i) = m (PPU_CODE_BASE.toNat + i)

/-- However `ppu_call` runs from memory `m`, it starts the core on an intact setup
and leaves the image alone from then on. -/
def SetupIntact (lmu : Lmu) (t : Target) (image : Nat → UInt8) (len : UInt32)
    (inputs : Nat → UInt32) (nin : UInt32) (outputs : Nat → UInt32) (nout : UInt32)
    (m : Mem) : Prop :=
  ∀ x s, Runs startup (ppuCall t image len inputs nin outputs nout) ⟨m, []⟩ x s →
    Kept lmu image len inputs nin s

/-- The image ends below the command word, and the operands inside the LMU. -/
def Fits (lmu : Lmu) (len nin : UInt32) : Prop :=
  len.toNat ≤ 0x300 ∧ 0x310 + 4 * nin.toNat ≤ lmu.size

theorem Startup.write_mem (s : Startup) (a : UInt64) (v : UInt32) :
    (s.write a v).mem = storeWord s.mem a.toNat v := by
  unfold Startup.write
  split <;> rfl

theorem Startup.write_idle {s : Startup} {a : UInt64} {v : UInt32} (h : s.since = [])
    (ha : a ≠ PPU_CTRL.toUInt64 ∨ v ≠ CTRL_RUN) :
    s.write a v = ⟨storeWord s.mem a.toNat v, []⟩ := by
  unfold Startup.write
  rw [h]
  dsimp only
  rw [if_neg (by tauto)]

theorem Startup.write_started {s : Startup} {m : Mem} {ms : List Mem} (h : s.since = m :: ms)
    (a : UInt64) (v : UInt32) :
    (s.write a v).since = m :: (ms ++ [storeWord s.mem a.toNat v]) := by
  unfold Startup.write
  rw [h]
  rfl

/-- The constants as numbers, for the arithmetic. -/
theorem layout : PPU_CODE_BASE.toNat = 0xB0000000 ∧ CMD_WORD.toNat = 0xB0000300 ∧
    INPUT_BASE.toNat = 0xB0000310 ∧ PPU_CTRL.toNat = 0xE9800060 := by
  decide

/-! ## An image that fits -/

section
variable {lmu : Lmu} {image : Nat → UInt8} {len : UInt32} {inputs : Nat → UInt32} {nin : UInt32}

/-- The operands below `n` are in place. -/
def InputsIn (inputs : Nat → UInt32) (n : Nat) (m : Mem) : Prop :=
  ∀ i < n, loadWord m (INPUT_BASE.toNat + 4 * i) = inputs i

/-- Where the operand `i` goes, as C computes it. -/
theorem toNat_inputAddr {i : UInt32} (h : 0x310 + 4 * (i.toNat + 1) ≤ 0x10000000) :
    (INPUT_BASE + 4 * i).toUInt64.toNat = INPUT_BASE.toNat + 4 * i.toNat := by
  have := layout
  rw [UInt32.toNat_toUInt64, UInt32.toNat_add, UInt32.toNat_mul,
    show (4 : UInt32).toNat = 4 from rfl]
  omega

theorem InputsIn.store {n : Nat} {m : Mem} (h : InputsIn inputs n m) {a : Nat} {v : UInt32}
    (ha : a + 4 ≤ INPUT_BASE.toNat ∨ INPUT_BASE.toNat + 4 * n ≤ a) :
    InputsIn inputs n (storeWord m a v) := by
  intro i hi
  rw [loadWord_storeWord_of_disjoint m v (by omega)]
  exact h i hi

theorem InputsIn.succ {n : Nat} {m : Mem} (h : InputsIn inputs n m) :
    InputsIn inputs (n + 1) (storeWord m (INPUT_BASE.toNat + 4 * n) (inputs n)) := by
  intro i hi
  rcases Nat.lt_succ_iff_lt_or_eq.mp hi with hlt | rfl
  · exact h.store (by omega) i hlt
  · exact loadWord_storeWord ..

theorem writeInputs_spec (t : Target) (hnin : 0x310 + 4 * nin.toNat ≤ 0x10000000) (m : Mem) :
    (writeInputs t inputs nin).wp startup
      (fun _ s => s.since = [] ∧ InputsIn inputs nin.toNat s.mem) (fun _ _ => False) ⟨m, []⟩ := by
  have hl := layout
  apply wp_writeInputs startup t inputs nin (fun i s => s.since = [] ∧ InputsIn inputs i s.mem)
  · rintro i hi s ⟨hs, hin⟩ b _ ⟨-, rfl⟩
    have haddr := toNat_inputAddr (i := i) (by omega)
    have hne : (INPUT_BASE + 4 * i).toUInt64 ≠ PPU_CTRL.toUInt64 := by
      intro heq
      have := congrArg UInt64.toNat heq
      rw [haddr, UInt32.toNat_toUInt64] at this
      omega
    rw [Startup.write_idle hs (.inl hne)]
    refine ⟨rfl, ?_⟩
    dsimp only
    rw [haddr]
    exact hin.succ
  · exact fun s h => h
  · exact ⟨rfl, fun i hi => absurd hi (Nat.not_lt_zero i)⟩

/-- The operands and the command word are in place, and the core is not started. -/
def Prepared (inputs : Nat → UInt32) (nin : UInt32) (s : Startup) : Prop :=
  s.since = [] ∧ InputsIn inputs nin.toNat s.mem ∧ loadWord s.mem CMD_WORD.toNat = 0

/-- Writes to the controller leave the setup alone. -/
theorem Prepared.write {s : Startup} (h : Prepared inputs nin s) (hfits : Fits lmu len nin)
    {a : UInt32} {v : UInt32} (ha : PPU_CLC ≤ a) (hne : a ≠ PPU_CTRL) :
    Prepared inputs nin (s.write a.toUInt64 v) := by
  have hl := layout
  have hseg := lmu.segment
  have hlow : 0xE9800000 ≤ a.toNat := UInt32.le_iff_toNat_le.mp ha
  obtain ⟨hs, hin, hcmd⟩ := h
  have hne' : a.toUInt64 ≠ PPU_CTRL.toUInt64 := fun h => hne (UInt32.toUInt64_inj.mp h)
  rw [Startup.write_idle hs (.inl hne'), UInt32.toNat_toUInt64]
  have := hfits.2
  refine ⟨rfl, hin.store (by omega), ?_⟩
  dsimp only
  rw [loadWord_storeWord_of_disjoint _ _ (by omega), hcmd]

/-- Writing an image that fits completes the setup. -/
theorem Prepared.load {s : Startup} (h : Prepared inputs nin s) (hfits : Fits lmu len nin) :
    Intact lmu image len inputs nin (storeRange s.mem PPU_CODE_BASE.toNat len.toNat image) := by
  have hl := layout
  have hsize := lmu.image
  obtain ⟨hlen, hnin⟩ := hfits
  obtain ⟨-, hin, hcmd⟩ := h
  constructor
  · intro i hi
    rw [storeRange_apply, if_pos (by omega), Nat.add_sub_cancel_left]
  · intro i hi
    constructor
    · omega
    · rw [loadWord_storeRange_of_disjoint _ _ (by omega)]
      exact hin i hi
  · rw [loadWord_storeRange_of_disjoint _ _ (by omega), hcmd]

theorem Intact.write {m : Mem} (h : Intact lmu image len inputs nin m) (hfits : Fits lmu len nin)
    {a : Nat} (v : UInt32) (ha : PPU_CLC.toNat ≤ a) :
    Intact lmu image len inputs nin (storeWord m a v) := by
  have hl := layout
  have hseg := lmu.segment
  have hlow : PPU_CLC.toNat = 0xE9800000 := rfl
  obtain ⟨hlen, hnin⟩ := hfits
  constructor
  · intro i hi
    rw [storeWord_of_disjoint _ _ (by omega)]
    exact h.code i hi
  · intro i hi
    refine ⟨(h.input i hi).1, ?_⟩
    have := (h.input i hi).1
    rw [loadWord_storeWord_of_disjoint _ _ (by omega)]
    exact (h.input i hi).2
  · rw [loadWord_storeWord_of_disjoint _ _ (by omega)]
    exact h.command

/-- The image is written, and the core is not started. -/
def Loaded (lmu : Lmu) (image : Nat → UInt8) (len : UInt32) (inputs : Nat → UInt32)
    (nin : UInt32) (s : Startup) : Prop :=
  s.since = [] ∧ Intact lmu image len inputs nin s.mem

theorem Loaded.write {s : Startup} (h : Loaded lmu image len inputs nin s)
    (hfits : Fits lmu len nin) {a : UInt32} {v : UInt32} (ha : PPU_CLC ≤ a) (hne : a ≠ PPU_CTRL) :
    Loaded lmu image len inputs nin (s.write a.toUInt64 v) := by
  have hne' : a.toUInt64 ≠ PPU_CTRL.toUInt64 := fun h => hne (UInt32.toUInt64_inj.mp h)
  rw [Startup.write_idle h.1 (.inl hne'), UInt32.toNat_toUInt64]
  exact ⟨rfl, h.2.write hfits v (UInt32.le_iff_toNat_le.mp ha)⟩

/-- The core is started on an intact setup, and the code is as it was then. -/
def Started (lmu : Lmu) (image : Nat → UInt8) (len : UInt32) (inputs : Nat → UInt32)
    (nin : UInt32) (s : Startup) : Prop :=
  ∃ m ms, s.since = m :: ms ∧ Intact lmu image len inputs nin m ∧
    (∀ m' ∈ ms, ∀ i < len.toNat, m' (PPU_CODE_BASE.toNat + i) = m (PPU_CODE_BASE.toNat + i)) ∧
    ∀ i < len.toNat, s.mem (PPU_CODE_BASE.toNat + i) = m (PPU_CODE_BASE.toNat + i)

theorem Started.kept {s : Startup} (h : Started lmu image len inputs nin s) :
    Kept lmu image len inputs nin s := by
  obtain ⟨m, ms, hs, hm, hms, -⟩ := h
  intro m' ms' hs'
  rw [hs] at hs'
  obtain ⟨rfl, rfl⟩ := List.cons.inj hs'
  exact ⟨hm, hms⟩

theorem Loaded.start {s : Startup} (h : Loaded lmu image len inputs nin s)
    (hfits : Fits lmu len nin) :
    Started lmu image len inputs nin (s.write PPU_CTRL.toUInt64 CTRL_RUN) := by
  have hm := h.2.write hfits CTRL_RUN (a := PPU_CTRL.toUInt64.toNat) (by decide)
  refine ⟨_, [], ?_, hm, ?_, ?_⟩
  · unfold Startup.write
    rw [h.1]
    rfl
  · intro m' hm'
    cases hm'
  · intro i _
    rw [Startup.write_mem]

/-- Nothing the rest of the call writes is inside an image that fits. -/
theorem Started.write {s : Startup} (h : Started lmu image len inputs nin s)
    (hfits : Fits lmu len nin) {a : UInt64} {v : UInt32} (ha : CMD_WORD.toNat ≤ a.toNat) :
    Started lmu image len inputs nin (s.write a v) := by
  have hl := layout
  have hlen := hfits.1
  obtain ⟨m, ms, hs, hm, hms, hmem⟩ := h
  have hsame : ∀ i < len.toNat, storeWord s.mem a.toNat v (PPU_CODE_BASE.toNat + i) =
      m (PPU_CODE_BASE.toNat + i) := by
    intro i hi
    rw [storeWord_of_disjoint _ _ (by omega)]
    exact hmem i hi
  refine ⟨m, ms ++ [storeWord s.mem a.toNat v], Startup.write_started hs a v, hm, ?_, ?_⟩
  · intro m' hm'
    rcases List.mem_append.mp hm' with h | h
    · exact hms m' h
    · rw [List.mem_singleton.mp h]
      exact hsame
  · intro i hi
    rw [Startup.write_mem]
    exact hsame i hi

end

/-! ## What the streaming accesses -/

/-- Tokens and pokes are written, and the run state is read. -/
def Channel : BusSig.Op → Prop
  | .read _ a => a.address = PPU_STAT.toUInt64
  | .write _ a _ => a.address = CMD_WORD.toUInt64 ∨ a.address = PPU_CTRL.toUInt64

theorem ppuResumeLoop_asks (t : Target) (n : Nat) :
    (ppuResumeLoop t n).Asks Channel fun _ => True := by
  induction n with
  | zero => trivial
  | succ n ih =>
    simp only [ppuResumeLoop, asks_bind, asks_w, asks_ppuRunstate]
    refine ⟨.inr rfl, .inr rfl, rfl, fun v => ?_⟩
    split
    · trivial
    · exact ih

theorem waitHalted_asks (t : Target) (n : Nat) : (waitHalted t n).Asks Channel fun _ => True := by
  induction n with
  | zero => trivial
  | succ n ih =>
    simp only [waitHalted, asks_bind, asks_ppuRunstate]
    refine ⟨rfl, fun v => ?_⟩
    split
    · trivial
    · exact ih

theorem readBit_asks (t : Target) (word nonce bit v : UInt32) :
    (readBit t word nonce bit v).Asks Channel fun _ => True := by
  simp only [readBit, asks_bind, asks_w]
  refine ⟨.inl rfl, (waitHalted_asks t 20).mono fun halted _ => ?_⟩
  split
  · rw [asks_bind]
    apply (ppuResumeLoop_asks t 40).mono
    intro resumed _
    split <;> trivial
  · trivial

theorem readWord_asks (t : Target) (word nonce : UInt32) :
    (readWord t word nonce).Asks Channel fun _ => True := by
  apply asks_loop (fun _ => True) _ _ _ _ _ trivial
  rintro ⟨bit, nonce, v⟩ -
  dsimp only
  split
  · rw [asks_bind]
    apply (readBit_asks t word nonce bit v).mono
    intro x _
    cases x <;> trivial
  · trivial

theorem streamResults_asks (t : Target) (outputs : Nat → UInt32) (nout : UInt32) :
    (streamResults t outputs nout).Asks Channel fun _ => True := by
  have hwords : (readWords t outputs nout).Asks Channel fun _ => True := by
    apply asks_loop (fun _ => True) _ _ _ _ _ trivial
    rintro ⟨word, nonce, outputs⟩ -
    dsimp only
    split
    · rw [asks_bind]
      apply (readWord_asks t word nonce).mono
      rintro ⟨x, nonce'⟩ _
      cases x <;> trivial
    · trivial
  simp only [streamResults, asks_bind]
  apply hwords.mono
  rintro ⟨rc, nonce, outputs⟩ -
  simp only [asks_w]
  exact ⟨.inl rfl, trivial⟩

/-! ## The call on an image that fits -/

section
variable {lmu : Lmu} {image : Nat → UInt8} {len : UInt32} {inputs : Nat → UInt32} {nin : UInt32}

/-- `tcmcd_write` of the image finds a plain memory, and does not start the core. -/
theorem image_write_spec (t : Target) (hfits : Fits lmu len nin) {s : Startup}
    (h : Prepared inputs nin s) :
    (tcmcdWrite t PPU_CODE_BASE.toUInt64 image len).wp startup
      (fun rc s' => s'.since = [] ∧ (rc = 0 → Loaded lmu image len inputs nin s'))
      (fun _ _ => False) s := by
  have hl := layout
  have hlen := hfits.1
  have hbase : PPU_CODE_BASE.toUInt64.toNat = PPU_CODE_BASE.toNat := UInt32.toNat_toUInt64 _
  have hr : WordRange PPU_CODE_BASE.toUInt64 len := ⟨by omega⟩
  have hspec := tcmcdWrite_spec t PPU_CODE_BASE.toUInt64 image len hr s.mem
  have hsim : (tcmcdWrite t PPU_CODE_BASE.toUInt64 image len).wp startup _ _ s :=
    (tcmcdWrite_asks t PPU_CODE_BASE.toUInt64 image len hr).sim
    (fun m (s : Startup) => s.mem = m ∧ s.since = []) ?_ ⟨rfl, h.1⟩ hspec
  · apply wp_mono startup ?_ ?_ hsim
    · rintro rc s' ⟨m', ⟨hm', hs'⟩, hrc⟩
      refine ⟨hs', ?_⟩
      rintro rfl
      rcases hrc with ⟨-, rfl⟩ | ⟨hrc, -⟩
      · refine ⟨hs', ?_⟩
        rw [hm', hbase]
        exact h.load hfits
      · cases hrc
    · rintro e s' ⟨_, -, hfalse⟩
      exact hfalse
  · -- the words of the image lie below the controller
    rintro m s o v s' ⟨-, htouch⟩ ⟨rfl, hs⟩ hE
    rw [hbase] at htouch
    cases o with
    | read c a =>
      obtain ⟨rfl, hv⟩ := hE
      refine ⟨s'.mem, ⟨rfl, hv ?_⟩, rfl, hs⟩
      have hhigh : a.address.toNat + 4 ≤ (PPU_CODE_BASE.toNat + len.toNat + 3) / 4 * 4 := htouch
      rw [UInt64.lt_iff_toNat_lt, UInt32.toNat_toUInt64, show PPU_CLC.toNat = 0xE9800000 from rfl]
      omega
    | write c a v' =>
      obtain ⟨rfl, rfl⟩ := hE
      have hhigh : a.address.toNat + 4 ≤ (PPU_CODE_BASE.toNat + len.toNat + 3) / 4 * 4 := htouch
      have hne : a.address ≠ PPU_CTRL.toUInt64 := by
        intro heq
        rw [heq, UInt32.toNat_toUInt64] at hhigh
        omega
      rw [Startup.write_idle hs (.inl hne)]
      exact ⟨_, .inl ⟨rfl, rfl⟩, rfl, rfl⟩

theorem waitReset_spec (t : Target) (I : Startup → Prop) (n : Nat) {s : Startup} (h : I s) :
    (waitReset t n).wp startup (fun _ => I) (fun _ _ => False) s := by
  induction n with
  | zero => exact h
  | succ n ih =>
    simp only [waitReset, wp_bind, wp_r]
    rintro v _ ⟨rfl, -⟩
    split
    · exact h
    · exact ih

theorem ppuLoadRun_spec (t : Target) (hfits : Fits lmu len nin) {s : Startup}
    (h : Prepared inputs nin s) :
    (ppuLoadRun t image len).wp startup
      (fun rc s' => if rc = 0 then Started lmu image len inputs nin s' else s'.since = [])
      (fun _ _ => False) s := by
  simp only [ppuLoadRun, wp_bind, wp_w]
  rintro _ _ ⟨-, rfl⟩
  apply wp_mono startup ?_ (fun _ _ h => h)
    (image_write_spec t hfits (h.write hfits (by decide) (by decide)))
  rintro rc s₁ ⟨hs₁, hloaded⟩
  split
  · exact hs₁
  · rename_i hrc
    have h₁ := hloaded (not_not.mp hrc)
    simp only [wp_bind, wp_w]
    rintro _ _ ⟨-, rfl⟩ _ _ ⟨-, rfl⟩ _ _ ⟨-, rfl⟩
    have h₂ : Loaded lmu image len inputs nin _ :=
      ((h₁.write (v := PPU_CODE_BASE) hfits (a := PPU_VECBASE) (by decide) (by decide)).write
        (v := 1) hfits (a := PPU_RST_CTRLA) (by decide) (by decide)).write
        (v := 1) hfits (a := PPU_RST_CTRLB) (by decide) (by decide)
    apply wp_mono startup ?_ (fun _ _ h => h)
      (waitReset_spec t (Loaded lmu image len inputs nin) 100000 h₂)
    rintro _ s₃ h₃
    rintro _ _ ⟨-, rfl⟩ _ _ ⟨-, rfl⟩
    exact (h₃.write hfits (by decide) (by decide)).start hfits

theorem streamResults_keeps (t : Target) (outputs : Nat → UInt32) (nout : UInt32)
    (hfits : Fits lmu len nin) {s : Startup} (h : Started lmu image len inputs nin s) :
    (streamResults t outputs nout).wp startup (fun _ => Started lmu image len inputs nin)
      (fun _ => Started lmu image len inputs nin) s := by
  have hkeep : ∀ s o r s', Channel o → Started lmu image len inputs nin s →
      startup s o r s' → Started lmu image len inputs nin s' := by
    intro s o v s' ho hs hE
    cases o with
    | read c a =>
      rw [hE.1]
      exact hs
    | write c a v' =>
      rw [hE.2]
      apply hs.write hfits
      rcases ho with ho | ho
      all_goals
        rw [ho]
        decide
  exact wp_mono startup (fun _ _ h => h.2) (fun _ _ h => h)
    ((streamResults_asks t outputs nout).invariant _ hkeep h)

/-- A setup that fits is intact when the core starts, and its code stays. -/
theorem setupIntact_of_fits (t : Target) (outputs : Nat → UInt32) (nout : UInt32) (m : Mem)
    (hfits : Fits lmu len nin) : SetupIntact lmu t image len inputs nin outputs nout m := by
  have hl := layout
  have hseg := lmu.segment
  have hnin := hfits.2
  suffices hwp : (ppuCall t image len inputs nin outputs nout).wp startup
      (fun _ => Kept lmu image len inputs nin) (fun _ => Kept lmu image len inputs nin) ⟨m, []⟩ by
    intro x s hrun
    obtain ⟨hok, herr⟩ := hrun.sound startup hwp
    cases x with
    | ok a => exact hok a rfl
    | error e => exact herr e rfl
  have hidle : ∀ s : Startup, s.since = [] → Kept lmu image len inputs nin s := by
    intro s hs m ms hms
    rw [hs] at hms
    cases hms
  simp only [ppuCall, wp_bind]
  apply wp_mono startup ?_ (fun _ _ h => h.elim) (writeInputs_spec t (by omega) m)
  rintro _ s ⟨hs, hin⟩
  simp only [wp_bind, wp_w]
  rintro _ _ ⟨-, rfl⟩
  have hprep : Prepared inputs nin (s.write CMD_WORD.toUInt64 0) := by
    rw [Startup.write_idle hs (.inl (by decide)), UInt32.toNat_toUInt64]
    exact ⟨rfl, hin.store (by omega), loadWord_storeWord ..⟩
  apply wp_mono startup ?_ (fun _ _ h => h.elim) (ppuLoadRun_spec t hfits hprep)
  intro rc s' hrc
  split
  · rename_i hne
    rw [if_neg hne] at hrc
    exact hidle s' hrc
  · rename_i heq
    rw [if_pos (not_not.mp heq)] at hrc
    exact wp_mono startup (fun _ _ h => h.kept) (fun _ _ h => h.kept)
      (streamResults_keeps t outputs nout hfits hrc)

end

/-! ## The call on any image -/

/-- The same surroundings when no read fails. -/
def booting : Env BusSig Startup
  | s, .read c a, r, s' => startup s (.read c a) r s' ∧ ∃ v, r = some v
  | s, .write c a v, r, s' => startup s (.write c a v) r s'

theorem startup_of_booting (s : Startup) (o : BusSig.Op) (r : BusSig.Res o) (s' : Startup)
    (h : booting s o r s') : startup s o r s' := by
  cases o with
  | read c a => exact h.1
  | write c a v => exact h

theorem succeeds_booting : Succeeds booting where
  read _ _ _ _ _ h := h.2
  write _ _ _ _ _ _ h := h.1

theorem booting_answers (s : Startup) (o : BusSig.Op) : ∃ r s', booting s o r s' := by
  cases o with
  | read c a =>
    refine ⟨some (loadWord s.mem a.address.toNat), s, ⟨rfl, ?_⟩, _, rfl⟩
    intro _ v hv
    exact (Option.some.inj hv).symm
  | write c a v => exact ⟨true, _, rfl, rfl⟩

theorem waitReset_returns (t : Target) (n : Nat) : (waitReset t n).Returns := by
  induction n with
  | zero => exact failsIn_ret _
  | succ n ih =>
    simp only [waitReset, Returns, FailsIn, wp_bind, wp_r]
    intro v _ _
    split
    · trivial
    · exact ih

theorem ppuLoadRun_starts (t : Target) (image : Nat → UInt8) (len : UInt32) (s : Startup) :
    (ppuLoadRun t image len).wp booting (fun rc s' => rc = 0 ∧ s'.since ≠ [])
      (fun _ _ => False) s := by
  simp only [ppuLoadRun, wp_bind, wp_w]
  rintro _ s₁ -
  apply wp_mono booting ?_ (fun _ _ h => h) (tcmcdWrite_succeeds succeeds_booting t _ image len s₁)
  rintro _ s₂ rfl
  simp only [ne_eq, not_true_eq_false, ↓reduceIte, wp_bind, wp_w]
  rintro _ s₃ - _ s₄ - _ s₅ -
  apply wp_mono booting ?_ (fun _ _ h => h) ((waitReset_returns t 100000).wp booting s₅)
  rintro _ s₆ - _ s₇ - _ _ ⟨-, rfl⟩
  refine ⟨rfl, ?_⟩
  cases hs : s₇.since with
  | nil => simp [Startup.write, hs]
  | cons m ms => simp [Startup.write_started hs]

/-- Once started, every write is recorded. -/
theorem since_kept (s : Startup) (o : BusSig.Op) (r : BusSig.Res o) (s' : Startup)
    (hs : s.since ≠ []) (h : booting s o r s') : s'.since ≠ [] := by
  have h' := startup_of_booting s o r s' h
  cases o with
  | read c a =>
    rw [h'.1]
    exact hs
  | write c a v =>
    obtain ⟨m, ms, hms⟩ := List.exists_cons_of_ne_nil hs
    rw [h'.2, Startup.write_started hms]
    exact List.cons_ne_nil _ _

theorem byteOf_doneToken (nonce : UInt32) : byteOf (token nonce 0xFF CMD_DONE_BIT) 0 = 0xFF := by
  have htoken := toNat_token nonce 0xFF CMD_DONE_BIT (by decide) (by decide)
  apply UInt8.toNat_inj.mp
  have hzero : byteOf (token nonce 0xFF CMD_DONE_BIT) 0 =
      (token nonce 0xFF CMD_DONE_BIT).toUInt8 := by
    unfold byteOf
    congr 1
  rw [hzero, UInt32.toNat_toUInt8, htoken, show (0xFF : UInt32).toNat = 255 from rfl,
    show CMD_DONE_BIT.toNat = 255 from rfl, show (0xFF : UInt8).toNat = 255 from rfl]
  omega

/-- Where no read fails the core is started, and later the byte at the command word
is `0xFF`. -/
theorem ppuCall_sends_done (t : Target) (image : Nat → UInt8) (len : UInt32)
    (inputs : Nat → UInt32) (nin : UInt32) (outputs : Nat → UInt32) (nout : UInt32)
    (s : Startup) :
    (ppuCall t image len inputs nin outputs nout).wp booting
      (fun _ s' => ∃ m ms, s'.since = m :: ms ∧ ∃ m' ∈ ms, m' CMD_WORD.toNat = 0xFF)
      (fun _ _ => False) s := by
  simp only [ppuCall, streamResults, wp_bind]
  apply wp_mono booting ?_ (fun _ _ h => h) ((writeInputs_returns t inputs nin).wp booting s)
  rintro _ s₁ -
  simp only [wp_bind, wp_w]
  rintro _ s₂ -
  apply wp_mono booting ?_ (fun _ _ h => h) (ppuLoadRun_starts t image len s₂)
  rintro _ s₃ ⟨rfl, hs₃⟩
  simp only [ne_eq, not_true_eq_false, ↓reduceIte, wp_bind]
  have hwords := wp_and booting ((readWords_returns t outputs nout).wp booting s₃)
    ((asks_anything (readWords t outputs nout)).invariant (fun s => s.since ≠ [])
      (fun s o r s' _ => since_kept s o r s') hs₃)
  apply wp_mono booting ?_ (fun _ _ h => h.1) hwords
  rintro ⟨rc, nonce, outputs'⟩ s₄ ⟨-, -, hs₄⟩
  simp only [wp_bind, wp_w]
  rintro _ _ ⟨-, rfl⟩
  obtain ⟨m, ms, hms⟩ := List.exists_cons_of_ne_nil hs₄
  refine ⟨m, _, Startup.write_started hms _ _, _,
    List.mem_append_right _ (List.mem_singleton_self _),
    ?_⟩
  rw [UInt32.toNat_toUInt64, storeWord_apply, if_pos (by omega), Nat.sub_self]
  exact byteOf_doneToken nonce

/-- A setup that is intact fits: the done token is written over whatever of the
image reaches the command word. -/
theorem fits_of_setupIntact {lmu : Lmu} {t : Target} {image : Nat → UInt8} {len : UInt32}
    {inputs : Nat → UInt32} {nin : UInt32} {outputs : Nat → UInt32} {nout : UInt32} {m : Mem}
    (h : SetupIntact lmu t image len inputs nin outputs nout m) : Fits lmu len nin := by
  have hl := layout
  have hsize := lmu.image
  obtain ⟨x, s, hrun, m₀, ms, hms, m', hm', hdone⟩ :=
    (asks_anything _).can (fun s o _ => booting_answers s o)
      (ppuCall_sends_done t image len inputs nin outputs nout ⟨m, []⟩)
  obtain ⟨hintact, hsame⟩ := h _ s (hrun.mono startup_of_booting) m₀ ms hms
  constructor
  · by_contra hlong
    have hcmd : m₀ CMD_WORD.toNat = 0 := by
      have hbyte := byteOf_loadWord m₀ CMD_WORD.toNat 0 (by omega)
      rw [hintact.command] at hbyte
      exact hbyte.symm
    have hlast := hsame m' hm' 0x300 (by omega)
    rw [show PPU_CODE_BASE.toNat + 0x300 = CMD_WORD.toNat from rfl, hdone, hcmd] at hlast
    cases hlast
  · rcases Nat.eq_zero_or_pos nin.toNat with hzero | hpos
    · omega
    · have := (hintact.input (nin.toNat - 1) (by omega)).1
      omega

/-- The setup is intact at the start, and the image from then on, exactly when the
image ends below the command word and the operands inside the LMU. -/
theorem setup_intact_iff (lmu : Lmu) (t : Target) (image : Nat → UInt8) (len : UInt32)
    (inputs : Nat → UInt32) (nin : UInt32) (outputs : Nat → UInt32) (nout : UInt32) (m : Mem) :
    SetupIntact lmu t image len inputs nin outputs nout m ↔
      len.toNat ≤ 0x300 ∧ 0x310 + 4 * nin.toNat ≤ lmu.size := by
  constructor
  · exact fits_of_setupIntact
  · exact setupIntact_of_fits t outputs nout m

/-- An image of `0x314` bytes, each 1, with the operand 5 and one result. -/
theorem long_image_not_intact :
    ¬ SetupIntact ⟨0x40000, by decide, by decide⟩ ⟨0, 0⟩ (fun _ => 1) 0x314 (fun _ => 5) 1
      (fun _ => 0) 1 (fun _ => 0) := by
  intro h
  have hlen := (fits_of_setupIntact h).1
  revert hlen
  decide

end OpenTricore.Ppu
