import OpenTricore.PpuCore
import OpenTricore.PpuProtocol
import OpenTricore.PpuSetup

/-! `ppu_call` against the core of `rt.inc`. The board refines the protocol, so
what the host reads there are the result words, and what the core does is the
conversation of the protocol. -/

namespace OpenTricore.Ppu
open Lib Lib.Prog Lib.Arc

/-! ## The board refines the protocol -/

section
variable {scratch : UInt32 → UInt32}

/-- The core runs the loop, and `l` is what the protocol sees of it. -/
def Sim (scratch : UInt32 → UInt32) (l : Link) (s : Board) : Prop :=
  ∃ c, s.core = some c ∧ Annotated (resultWord scratch) c ∧ l = s.link c

theorem phaseOf_isHalted {result : UInt32 → UInt32} {c : Cpu} (h : Annotated result c) :
    (phaseOf c).isHalted = c.halted := by
  obtain ⟨pc, regs, zero, halted⟩ := c
  have hpc := annotated_pc h
  dsimp only at hpc
  interval_cases pc
  case «19» => cases halted <;> rfl
  case «20» | «21» => rfl
  case «5» | «6» =>
    obtain rfl : halted = false := h.1
    simp only [phaseOf]
    split <;> rfl
  case «0» | «1» => exact h.symm
  all_goals exact h.1.symm

/-- A halted core stands behind one of the two `flag` instructions. -/
theorem halted_pc {result : UInt32 → UInt32} {c : Cpu} (h : Annotated result c)
    (hhalted : c.halted = true) : c.pc = 19 ∨ c.pc = 21 := by
  obtain ⟨pc, regs, zero, halted⟩ := c
  dsimp only at hhalted
  subst hhalted
  have hpc := annotated_pc h
  dsimp only at hpc ⊢
  interval_cases pc
  case «19» => exact .inl rfl
  case «21» => exact .inr rfl
  case «0» | «1» => cases h
  all_goals exact absurd h.1 (by simp)

/-- A resume is an event of the protocol. -/
theorem resume_event {s : Board} {c : Cpu} (hann : Annotated (resultWord scratch) c)
    (hhalted : c.halted = true) (hpoked : s.poked = true) :
    Annotated (resultWord scratch) { c with halted := false } ∧
      Link.Step (resultWord scratch) (s.link c)
        (Board.link { s with core := some { c with halted := false }, poked := false }
          { c with halted := false }) := by
  rcases halted_pc hann hhalted with hpc | hpc
  all_goals
    constructor
    · unfold Annotated at hann ⊢
      rw [hpc] at hann
      dsimp only
      rw [hpc]
      exact hann
    · simp [Link.Step, Link.next, Board.link, phaseOf, hpc, hhalted, hpoked]

/-- A halted core goes on only if it is poked. -/
theorem poked_of_step {s : Board} {c : Cpu} {l : Link} (hann : Annotated (resultWord scratch) c)
    (hhalted : c.halted = true) (hstep : Link.Step (resultWord scratch) (s.link c) l) :
    s.poked = true := by
  by_contra hpoked
  unfold Link.Step Link.next Board.link phaseOf at hstep
  rcases halted_pc hann hhalted with hpc | hpc <;> simp [hpc, hhalted, hpoked] at hstep

theorem coreStep_sim {l : Link} {s s' : Board} (h : Sim scratch l s)
    (hstep : CoreStep scratch s s') :
    ∃ l', Relation.ReflTransGen (Link.Step (resultWord scratch)) l l' ∧ Sim scratch l' s' := by
  obtain ⟨c, hc, hann, rfl⟩ := h
  cases hstep with
  | run hc' hrun =>
    rw [hc] at hc'
    obtain rfl := Option.some.inj hc'
    have hann' := annotated_run hann hrun
    rcases run_advances hann hrun with hevent | ⟨hquiet, -⟩
    · exact ⟨_, .single hevent, _, rfl, hann', rfl⟩
    · exact ⟨_, .refl, _, rfl, hann', hquiet.symm⟩
  | resume hc' hhalted hpoked =>
    rw [hc] at hc'
    obtain rfl := Option.some.inj hc'
    obtain ⟨hann', hevent⟩ := resume_event hann hhalted hpoked
    exact ⟨_, .single hevent, _, rfl, hann', rfl⟩

theorem Board.write_mem (s : Board) (a : UInt64) (v : UInt32) :
    (s.write a v).mem = storeWord s.mem a.toNat v := by
  unfold Board.write
  dsimp only
  split
  · rfl
  · split
    · rfl
    · split
      · split <;> rfl
      · split <;> rfl

/-- What the host writes on the channel has the same effect in the protocol. -/
theorem Board.write_link {s : Board} {c : Cpu} (hc : s.core = some c)
    (hann : Annotated (resultWord scratch) c) {a : UInt64} (v : UInt32)
    (ha : a = CMD_WORD.toUInt64 ∨ a = PPU_CTRL.toUInt64) :
    (s.write a v).core = some c ∧ (s.write a v).link c = (s.link c).write a v := by
  unfold Board.write Link.write
  rcases ha with rfl | rfl
  · refine ⟨hc, ?_⟩
    simp only [Board.link, ↓reduceIte, UInt32.toNat_toUInt64, loadWord_storeWord]
  · have hload : loadWord (storeWord s.mem PPU_CTRL.toUInt64.toNat v) CMD_WORD.toNat =
        loadWord s.mem CMD_WORD.toNat :=
      loadWord_storeWord_of_disjoint _ _ (.inl (by decide))
    simp only [show ¬ PPU_CTRL.toUInt64 = CMD_WORD.toUInt64 by decide,
      show ¬ PPU_CTRL.toUInt64 = PPU_RST_CTRLB.toUInt64 by decide, ↓reduceIte, true_and, false_and]
    by_cases hrun : v = CTRL_RUN
    · simp only [hrun, show ¬ CTRL_RUN = CTRL_RESUME by decide, hc, ↓reduceIte]
      rw [hrun] at hload
      simp only [Board.link, hload, true_and]
    · by_cases hresume : v = CTRL_RESUME
      · simp only [hresume, show ¬ CTRL_RESUME = CTRL_RUN by decide, ↓reduceIte]
        rw [hresume] at hload
        simp only [Board.link, Board.halted, hload, hc, phaseOf_isHalted hann, true_and]
      · simp only [hrun, hresume, ↓reduceIte]
        simp only [Board.link, hload, hc, true_and]

theorem access_sim {l : Link} {s s' : Board} {o : BusSig.Op} {r : BusSig.Res o} (ho : Channel o)
    (h : Sim scratch l s) (hE : Board.access scratch s o r s') :
    ∃ l', Link.access (resultWord scratch) l o r l' ∧ Sim scratch l' s' := by
  obtain ⟨c, hc, hann, rfl⟩ := h
  cases o with
  | read core a =>
    have hstat : a.address = PPU_STAT.toUInt64 := ho
    have hhalted : (s.link c).phase.isHalted = s.halted := by
      rw [Board.halted, hc]
      exact phaseOf_isHalted hann
    simp only [Board.access, hstat, ↓reduceIte] at hE
    obtain ⟨htime, hv, rfl⟩ := hE
    refine ⟨(s.link c).polled, ?_, c, hc, hann, rfl⟩
    simp only [Link.access, hstat, ↓reduceIte, hhalted]
    exact ⟨htime, hv, trivial⟩
  | write core a v =>
    obtain ⟨rfl, rfl⟩ := hE
    obtain ⟨hc', hlink⟩ := Board.write_link hc hann v ho
    exact ⟨_, ⟨rfl, rfl⟩, c, hc', hann, hlink.symm⟩

/-- What the protocol gives for the host holds on the board. -/
theorem streamResults_board (t : Target) {nout : UInt32} (hout : nout.toNat ≤ 256)
    (outputs : Nat → UInt32) {s : Board}
    (h : ∃ l, Sim scratch l s ∧ Ready (resultWord scratch) nout 0 l) :
    (streamResults t outputs nout).wp (board scratch)
      (fun x s' => (x.1 = 0 ∧ ∀ i < nout.toNat, x.2 i = resultWord scratch (UInt32.ofNat i)) ∧
        ∃ l, Sim scratch l s' ∧ Closing (resultWord scratch) nout l)
      (fun _ _ => False) s := by
  obtain ⟨l, hsim, hready⟩ := h
  have hsims : (streamResults t outputs nout).wp (board scratch) _ _ s :=
    (streamResults_asks t outputs nout).sim (Sim scratch)
    (interleave_sim (Sim scratch) (fun l s s' h hstep => coreStep_sim h hstep)
      (fun l s o r s' ho h hE => access_sim ho h hE))
    hsim (streamResults_spec hout outputs hready)
  apply wp_mono _ ?_ ?_ hsims
  · rintro x s' ⟨l', hsim', hrc, houtputs, hclosing⟩
    exact ⟨⟨hrc, houtputs⟩, l', hsim', hclosing⟩
  · rintro e s' ⟨_, -, hfalse⟩
    exact hfalse

/-! ## After the call -/

theorem closing_stable {nout : UInt32} (hout : nout.toNat ≤ 256) :
    Stable (CoreStep scratch)
      fun s => ∃ l, Sim scratch l s ∧ Closing (resultWord scratch) nout l := by
  rintro s s' ⟨l, hsim, hclosing⟩ hstep
  obtain ⟨l', hsteps, hsim'⟩ := coreStep_sim hsim hstep
  have hstable : Stable (Link.Step (resultWord scratch)) (Closing (resultWord scratch) nout) :=
    fun l l' h hstep => (h.step hout hstep).1
  exact ⟨l', hsim', hstable.steps hclosing hsteps⟩

theorem rank_lt (c : Cpu) : rank c < 18 := by
  unfold rank
  split <;> omega

/-- What the core has before it: its events, and its instructions up to the next. -/
def remaining (s : Board) : Nat :=
  match s.core with
  | none => 0
  | some c => 18 * (phaseOf c).left + rank c

/-- Left to itself the core comes to the end of the conversation. -/
theorem core_arrives {nout : UInt32} (hout : nout.toNat ≤ 256) {s : Board}
    (h : ∃ l, Sim scratch l s ∧ Closing (resultWord scratch) nout l) :
    ∃ s', Relation.ReflTransGen (CoreStep scratch) s s' ∧
      s'.log = conversation (resultWord scratch) nout := by
  have hnext : ∀ s : Board, (∃ l, Sim scratch l s ∧ Closing (resultWord scratch) nout l) →
      ¬ s.log = conversation (resultWord scratch) nout →
      ∃ s', CoreStep scratch s s' ∧
        (∃ l, Sim scratch l s' ∧ Closing (resultWord scratch) nout l) ∧
        remaining s' < remaining s := by
    intro s hs hlog
    obtain ⟨l, ⟨c, hc, hann, rfl⟩, hclosing⟩ := id hs
    have hrun : c.halted = false := by
      rw [← phaseOf_isHalted hann]
      exact hclosing.running hlog
    have hpc : c.pc < rtInc.length := annotated_pc hann
    obtain ⟨c', hc'⟩ := exists_step (view scratch s.mem) hrun hpc
    have hstep := CoreStep.run hc hc'
    refine ⟨_, hstep, closing_stable hout s _ hs hstep, ?_⟩
    have hleft : remaining (s.ran c c') = 18 * (phaseOf c').left + rank c' := rfl
    rw [hleft, remaining, hc]
    dsimp only
    rcases run_advances hann hc' with hevent | ⟨hquiet, hrank⟩
    · have hlt : (phaseOf c').left < (phaseOf c).left := (hclosing.step hout hevent).2 hlog
      have := rank_lt c'
      omega
    · have hphase : phaseOf c' = phaseOf c := congrArg Link.phase hquiet
      rw [hphase]
      omega
  obtain ⟨s', hsteps, -, hlog⟩ := exists_arrival remaining hnext s h
  exact ⟨s', hsteps, hlog⟩

/-! ## Starting the core -/

theorem CoreStep.mem {s s' : Board} (h : CoreStep scratch s s') : s'.mem = s.mem := by
  cases h <;> rfl

/-- The image leaves the command word, if it reaches that far, at 0. -/
structure CommandClear (image : Nat → UInt8) (len : UInt32) : Prop where
  size : len.toNat ≤ 64 * 1024
  clear : ∀ i, PPU_CODE_BASE.toNat + i < CMD_WORD.toNat + 4 →
    CMD_WORD.toNat ≤ PPU_CODE_BASE.toNat + i → i < len.toNat → image i = 0

/-- The command word is `c`. -/
def Commanded (c : UInt32) (m : Mem) : Prop := loadWord m CMD_WORD.toNat = c

theorem commanded_stable (c : UInt32) : Stable (CoreStep scratch) fun s => Commanded c s.mem := by
  intro s s' h hstep
  rwa [hstep.mem]

theorem Commanded.write {c : UInt32} {s : Board} (h : Commanded c s.mem) {a : UInt32}
    (ha : CMD_WORD.toNat + 4 ≤ a.toNat) (v : UInt32) :
    Commanded c (s.write a.toUInt64 v).mem := by
  rw [Board.write_mem, Commanded, UInt32.toNat_toUInt64,
    loadWord_storeWord_of_disjoint _ _ (.inl ha)]
  exact h

theorem Commanded.image {m : Mem} (h : Commanded 0 m) {image : Nat → UInt8} {len : UInt32}
    (hclear : CommandClear image len) :
    Commanded 0 (storeRange m PPU_CODE_BASE.toNat len.toNat image) := by
  have hl := layout
  unfold Commanded at h ⊢
  rw [← h]
  apply loadWord_congr
  intro b hb
  rw [storeRange_apply]
  split
  · have hzero : byteOf (loadWord m CMD_WORD.toNat) b = 0 := by
      rw [h]
      have hb' : b = 0 ∨ b = 1 ∨ b = 2 ∨ b = 3 := by omega
      rcases hb' with rfl | rfl | rfl | rfl <;> rfl
    rw [byteOf_loadWord _ _ _ hb] at hzero
    rw [hzero]
    exact hclear.clear _ (by omega) (by omega) (by omega)
  · rfl

/-- Writing the image succeeds, and leaves the command word that it has there. -/
theorem image_write_board (t : Target) {image : Nat → UInt8} {len : UInt32}
    (hlen : len.toNat ≤ 64 * 1024) {c : UInt32} {s : Board}
    (h : Commanded c (storeRange s.mem PPU_CODE_BASE.toNat len.toNat image)) :
    (tcmcdWrite t PPU_CODE_BASE.toUInt64 image len).wp (board scratch)
      (fun rc s' => rc = 0 ∧ Commanded c s'.mem) (fun _ _ => False) s := by
  have hl := layout
  have hbase : PPU_CODE_BASE.toUInt64.toNat = PPU_CODE_BASE.toNat := UInt32.toNat_toUInt64 _
  have hr : WordRange PPU_CODE_BASE.toUInt64 len := ⟨by omega⟩
  have hsucceeds : Succeeds (board scratch) := by
    constructor
    · rintro s c a v s' ⟨s₁, -, hE⟩
      by_cases hstat : a.address = PPU_STAT.toUInt64
      · simp only [Board.access, hstat, ↓reduceIte] at hE
        obtain ⟨x, hx, -⟩ := hE.2.1
        exact ⟨x, hx⟩
      · simp only [Board.access, hstat, ↓reduceIte] at hE
        obtain ⟨x, hx, -⟩ := hE.1
        exact ⟨x, hx⟩
    · rintro s c a v b s' ⟨s₁, -, hE⟩
      exact hE.1
  have hsim : (tcmcdWrite t PPU_CODE_BASE.toUInt64 image len).wp (board scratch) _ _ s :=
    (tcmcdWrite_asks t PPU_CODE_BASE.toUInt64 image len hr).sim (E := memory)
    (fun m (s : Board) => s.mem = m) ?_ rfl
    (tcmcdWrite_spec t PPU_CODE_BASE.toUInt64 image len hr s.mem)
  · apply wp_mono _ ?_ ?_
      (wp_and _ (tcmcdWrite_succeeds hsucceeds t PPU_CODE_BASE.toUInt64 image len s) hsim)
    · rintro rc s' ⟨rfl, m', hm', ⟨-, rfl⟩ | ⟨hrc, -⟩⟩
      · refine ⟨rfl, ?_⟩
        rw [hm', hbase]
        exact h
      · cases hrc
    · exact fun _ _ h => h.1
  · rintro m s o v s' htouch rfl ⟨s₁, hsteps, hE⟩
    have hmem : s₁.mem = s.mem :=
      Stable.steps (I := fun s₁ : Board => s₁.mem = s.mem)
        (fun s s' h hstep => hstep.mem.trans h) rfl hsteps
    have hhigh := htouch.2
    rw [hbase] at hhigh
    cases o with
    | read c a =>
      change a.address.toNat + 4 ≤ _ at hhigh
      have hlow : a.address < PPU_CLC.toUInt64 := by
        rw [UInt64.lt_iff_toNat_lt, UInt32.toNat_toUInt64,
          show PPU_CLC.toNat = 0xE9800000 from rfl]
        omega
      have hstat : a.address ≠ PPU_STAT.toUInt64 := by
        intro heq
        rw [heq] at hlow
        revert hlow
        decide
      simp only [Board.access, hstat, ↓reduceIte] at hE
      obtain ⟨⟨x, rfl, hx⟩, rfl⟩ := hE
      refine ⟨s.mem, ⟨rfl, ?_⟩, hmem⟩
      intro v hv
      rw [← Option.some.inj hv, hx hlow, hmem]
    | write c a v' =>
      obtain ⟨rfl, rfl⟩ := hE
      refine ⟨_, .inl ⟨rfl, rfl⟩, ?_⟩
      rw [Board.write_mem, hmem]

theorem wp_write_board (t : Target) {I : Board → Prop} (hI : Stable (CoreStep scratch) I)
    {Q : Unit → Board → Prop} {X : Abort → Board → Prop} {a : UInt64} {v : UInt32}
    (hQ : ∀ s, I s → Q () (s.write a v)) {s : Board} (hs : I s) :
    (w t a v).wp (board scratch) Q X s := by
  rw [wp_w]
  intro r s' h
  obtain ⟨s₁, hs₁, -, rfl⟩ := interleave_cases hI hs h
  exact hQ s₁ hs₁

/-- The core is in reset and the command word is `c`. -/
def InReset (c : UInt32) (s : Board) : Prop :=
  s.core = none ∧ s.poked = false ∧ Commanded c s.mem

/-- The core has been started with the command word `c`. -/
structure Launched (c : UInt32) (l : Link) : Prop where
  cmd : l.cmd = c
  poked : l.poked = false
  phase : l.phase = .starting
  log : l.log = []

/-- Without a command, the loop is before its first token. -/
theorem Launched.ready {l : Link} (h : Launched 0 l) (result : UInt32 → UInt32) (nout : UInt32) :
    Ready result nout 0 l := ⟨h.cmd, h.poked, .starting rfl h.phase h.log⟩

theorem inReset_stable (c : UInt32) : Stable (CoreStep scratch) (InReset c) := by
  rintro s s' ⟨hcore, -⟩ hstep
  cases hstep with
  | run hc _ =>
    rw [hcore] at hc
    cases hc
  | resume hc _ _ =>
    rw [hcore] at hc
    cases hc

theorem Commanded.reset {c : UInt32} {s : Board} (h : Commanded c s.mem) :
    InReset c (s.write PPU_RST_CTRLB.toUInt64 1) :=
  ⟨rfl, rfl, h.write (by decide) 1⟩

theorem InReset.clearStatus {c : UInt32} {s : Board} (h : InReset c s) :
    InReset c (s.write PPU_RST_CTRLB.toUInt64 0x80000000) :=
  ⟨h.1, h.2.1, h.2.2.write (by decide) _⟩

/-- The run request starts the loop. -/
theorem InReset.start {c : UInt32} {s : Board} (h : InReset c s) :
    ∃ l, Sim scratch l (s.write PPU_CTRL.toUInt64 CTRL_RUN) ∧ Launched c l := by
  obtain ⟨hcore, hpoked, hword⟩ := h
  have hword' := hword.write (a := PPU_CTRL) (by decide) CTRL_RUN
  have hwrite : s.write PPU_CTRL.toUInt64 CTRL_RUN =
      { s with
        mem := storeWord s.mem PPU_CTRL.toUInt64.toNat CTRL_RUN
        core := some ⟨0, fun _ => 0, false, false⟩
        log := [] } := by
    unfold Board.write
    simp only [show ¬ PPU_CTRL.toUInt64 = CMD_WORD.toUInt64 by decide,
      show ¬ PPU_CTRL.toUInt64 = PPU_RST_CTRLB.toUInt64 by decide, ↓reduceIte, false_and,
      true_and, hcore]
  rw [hwrite] at hword' ⊢
  exact ⟨_, ⟨_, rfl, rfl, rfl⟩, hword', hpoked, rfl, rfl⟩

theorem waitReset_board (t : Target) (n : Nat) {c : UInt32} {s : Board} (h : InReset c s) :
    (waitReset t n).wp (board scratch) (fun _ => InReset c) (fun _ _ => False) s := by
  induction n generalizing s with
  | zero => exact h
  | succ n ih =>
    simp only [waitReset, wp_bind, wp_r]
    intro v s' hv
    obtain ⟨s₁, hs₁, hE⟩ := interleave_cases (inReset_stable c) h hv
    have hs' : InReset c s' := by
      have hne : ¬ PPU_RST_STAT.toUInt64 = PPU_STAT.toUInt64 := by decide
      simp only [Board.access, hne, ↓reduceIte] at hE
      rw [hE.2]
      exact hs₁
    split
    · exact hs'
    · exact ih hs'

/-- The core is started with the command word that the image leaves. -/
theorem ppuLoadRun_board (t : Target) {image : Nat → UInt8} {len : UInt32}
    (hlen : len.toNat ≤ 64 * 1024) {c : UInt32}
    (himage : ∀ m, Commanded 0 m →
      Commanded c (storeRange m PPU_CODE_BASE.toNat len.toNat image))
    {s : Board} (h : Commanded 0 s.mem) :
    (ppuLoadRun t image len).wp (board scratch)
      (fun rc s' => rc = 0 ∧ ∃ l, Sim scratch l s' ∧ Launched c l) (fun _ _ => False) s := by
  rw [ppuLoadRun, wp_bind]
  apply wp_write_board t (commanded_stable 0) ?_ h
  intro s h
  rw [wp_bind]
  apply wp_mono _ ?_ (fun _ _ h => h)
    (image_write_board t hlen (himage _ (h.write (by decide) 0)))
  rintro _ s ⟨rfl, h⟩
  simp only [ne_eq, not_true_eq_false, ↓reduceIte]
  rw [wp_bind]
  apply wp_write_board t (commanded_stable c) ?_ h
  intro s h
  rw [wp_bind]
  apply wp_write_board t (commanded_stable c) ?_ (h.write (by decide) _)
  intro s h
  rw [wp_bind]
  apply wp_write_board t (commanded_stable c) ?_ (h.write (by decide) _)
  intro s h
  rw [wp_bind]
  apply wp_mono _ ?_ (fun _ _ h => h) (waitReset_board t 100000 h.reset)
  rintro _ s h
  rw [wp_bind]
  apply wp_write_board t (inReset_stable c) ?_ h
  intro s h
  rw [wp_bind]
  apply wp_write_board t (inReset_stable c) ?_ h.clearStatus
  intro s h
  exact ⟨rfl, h.start⟩

/-! ## The call -/

/-- The call has returned 0 with the result words. Whatever the core goes on to do,
it never acts on a token twice or out of turn, and by itself it comes to the end of
the conversation. -/
structure Streamed (scratch : UInt32 → UInt32) (nout : UInt32)
    (x : Except Abort (Int × (Nat → UInt32))) (s : Board) : Prop where
  returned : ∃ outputs, x = .ok (0, outputs) ∧
    ∀ i < nout.toNat, outputs i = resultWord scratch (UInt32.ofNat i)
  once : ∀ s', Relation.ReflTransGen (CoreStep scratch) s s' →
    s'.log <+: conversation (resultWord scratch) nout
  all : ∃ s', Relation.ReflTransGen (CoreStep scratch) s s' ∧
    s'.log = conversation (resultWord scratch) nout

theorem ppuCall_board (t : Target) {image : Nat → UInt8} {len : UInt32}
    (hclear : CommandClear image len) (inputs : Nat → UInt32) (nin : UInt32)
    (outputs : Nat → UInt32) {nout : UInt32} (hout : nout.toNat ≤ 256) (s : Board) :
    (ppuCall t image len inputs nin outputs nout).wp (board scratch)
      (fun x s' => Streamed scratch nout (.ok x) s') (fun _ _ => False) s := by
  rw [ppuCall, wp_bind]
  apply wp_mono _ ?_ (fun _ _ h => h) ((writeInputs_returns t inputs nin).wp (board scratch) s)
  rintro _ s -
  rw [wp_bind]
  apply wp_write_board t (I := fun _ => True) (fun _ _ _ _ => trivial) ?_ trivial
  intro s _
  have h : Commanded 0 (s.write CMD_WORD.toUInt64 0).mem := by
    rw [Board.write_mem, UInt32.toNat_toUInt64]
    exact loadWord_storeWord ..
  rw [wp_bind]
  apply wp_mono _ ?_ (fun _ _ h => h)
    (ppuLoadRun_board t hclear.size (fun m hm => hm.image hclear) h)
  rintro _ s ⟨rfl, l, hsim, hstarted⟩
  simp only [ne_eq, not_true_eq_false, ↓reduceIte]
  apply wp_mono _ ?_ (fun _ _ h => h)
    (streamResults_board t hout outputs ⟨l, hsim, hstarted.ready _ nout⟩)
  rintro ⟨rc, outputs'⟩ s ⟨⟨rfl, houtputs⟩, hclosing⟩
  refine ⟨⟨outputs', rfl, houtputs⟩, ?_, core_arrives hout hclosing⟩
  intro s' hsteps
  obtain ⟨l, ⟨c, hc, hann, rfl⟩, hclosing'⟩ := (closing_stable hout).steps hclosing hsteps
  exact hclosing'.log_prefix

end

end OpenTricore.Ppu
