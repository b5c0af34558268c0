import OpenTricore.Lib.Arc
import OpenTricore.PpuPrompt

/-! The core with the routine that `rt.inc` calls: the `compute` of a kernel is executed
instruction by instruction, and its result words are in the scratch only when it has stored
them. The image that the host loads is this program assembled; how its instructions are encoded
is left out. To the host this is the board on which `compute` is one step that leaves the
result. -/

namespace OpenTricore.Ppu
open Lib Lib.Prog Lib.Arc Relation

/-- `rt.inc` with the routine `compute` behind it. -/
def linked (compute : List Op) : List Op :=
  rtInc.map (fun i => if i = .bl then .call rtInc.length else .plain i) ++ compute

/-! ## The board -/

/-- The board of `OpenTricore.PpuCore`, and the scratch of the core. -/
structure Rig where
  board : Board
  scratch : UInt32 → UInt32

/-- Below the code is the core's own scratch. A store to the LMU is dropped: the access
protection lets only the CPUs write there. -/
def Rig.store (s : Rig) : Option (UInt32 × UInt32) → Rig
  | some (a, v) =>
    if a < PPU_CODE_BASE then { s with scratch := fun x => if x = a then v else s.scratch x } else s
  | none => s

/-- The core executes an instruction, or resumes after a poke. -/
inductive RigStep (prog : List Op) (s : Rig) : Rig → Prop
  | run {c : Cpu} {op : Op} (hc : s.board.core = some c) (hrun : c.halted = false)
      (hop : prog[c.pc]? = some op) :
      RigStep prog s (({ s with
        board := s.board.ran c (op.exec (view s.scratch s.board.mem) c).1 } : Rig).store
          (op.exec (view s.scratch s.board.mem) c).2)
  | resume {c : Cpu} (hc : s.board.core = some c) (hhalted : c.halted = true)
      (hpoked : s.board.poked = true) :
      RigStep prog s { s with
        board := { s.board with core := some { c with halted := false }, poked := false } }

/-- The core is past the call of `compute`. -/
def Rig.Through (s : Rig) : Prop := ∀ c, s.board.core = some c → 1 ≤ c.pc ∧ c.pc < 22

/-- The host's accesses. By the 20th poll for a token `compute` is done too. -/
def Rig.access : Env BusSig Rig
  | s, .read core a, r, s' =>
    Board.access s.scratch s.board (.read core a) r s'.board ∧ s'.scratch = s.scratch ∧
      (a.address = PPU_STAT.toUInt64 → 19 ≤ s.board.watch.polls → s.Through)
  | s, .write core a v, r, s' =>
    Board.access s.scratch s.board (.write core a v) r s'.board ∧ s'.scratch = s.scratch

/-- The host, and the core beside it. -/
def rig (prog : List Op) : Env BusSig Rig := interleave (RigStep prog) Rig.access

theorem Rig.store_board (s : Rig) (w : Option (UInt32 × UInt32)) : (s.store w).board = s.board := by
  unfold Rig.store
  split
  · split <;> rfl
  · rfl

theorem RigStep.mem {prog : List Op} {s s' : Rig} (h : RigStep prog s s') :
    s'.board.mem = s.board.mem := by
  cases h with
  | run hc hrun hop =>
    rw [Rig.store_board]
    rfl
  | resume hc hhalted hpoked => rfl

/-! ## The operands -/

/-- The operands are where the host has written them. -/
def Given (inputs : Nat → UInt32) (n : Nat) (load : UInt32 → UInt32) : Prop :=
  ∀ i < n, load (INPUT_BASE + 4 * UInt32.ofNat i) = inputs i

/-- The core reads the operands in the LMU. -/
theorem operands_view {inputs : Nat → UInt32} {n : Nat} {m : Mem} (h : InputsIn inputs n m)
    (hn : 0x310 + 4 * n ≤ 0x10000000) (scratch : UInt32 → UInt32) :
    Given inputs n (view scratch m) := by
  intro i hi
  have hl := layout
  have haddr : (INPUT_BASE + 4 * UInt32.ofNat i).toNat = INPUT_BASE.toNat + 4 * i := by
    rw [UInt32.toNat_add, UInt32.toNat_mul, UInt32.toNat_ofNat_of_lt' (show i < 2 ^ 32 by omega),
      show (4 : UInt32).toNat = 4 from rfl]
    omega
  have hhigh : ¬ INPUT_BASE + 4 * UInt32.ofNat i < PPU_CODE_BASE := by
    rw [UInt32.lt_iff_toNat_lt, haddr]
    omega
  rw [view, if_neg hhigh, haddr]
  exact h i hi

/-! ## The board without the routine -/

theorem linked_plain (compute : List Op) {pc : Nat} (hlow : 1 ≤ pc) (hhigh : pc < 22) :
    ∃ i, rtInc[pc]? = some i ∧ i ≠ .bl ∧ (linked compute)[pc]? = some (.plain i) := by
  interval_cases pc
  all_goals exact ⟨_, rfl, by decide, rfl⟩

/-- Nothing in the loop goes back to the call. -/
theorem exec_pos {i : Insn} (hi : i ∈ rtInc) (load : UInt32 → UInt32) (c : Cpu) :
    1 ≤ (i.exec load c).pc := by
  cases i with
  | beq target =>
    simp only [Insn.exec]
    split
    · simp [rtInc, LPOLL, LDONE] at hi
      omega
    · exact Nat.le_add_left ..
  | b target =>
    simp [rtInc, LPOLL, LDONE] at hi
    simp only [Insn.exec]
    omega
  | _ => exact Nat.le_add_left ..

/-- The routine is no event of the protocol. -/
theorem Board.ran_quiet {s : Board} {c c' : Cpu} (hpc : c.pc = 0 ∨ 22 ≤ c.pc)
    (hrun : c'.halted = false) : s.ran c c' = { s with core := some c' } := by
  have hpoll : (c.pc == LPOLL) = false := by
    rw [beq_eq_false_iff_ne, LPOLL]
    omega
  have hacted : acted c = [] := by
    rw [acted, if_neg (by omega), if_neg (by omega)]
  simp only [Board.ran, hpoll, hrun, hacted, Bool.or_false, List.append_nil]

/-- Tokens and pokes do the same whatever the core is at. -/
theorem Board.write_channel (s : Board) {a : UInt64} (v : UInt32) (halted : Bool)
    (ha : a = CMD_WORD.toUInt64 ∨ a = PPU_CTRL.toUInt64) :
    ∃ poked watch, ∀ c : Cpu, c.halted = halted → Board.write { s with core := some c } a v =
      { s with
        mem := storeWord s.mem a.toNat v, core := some c, poked := poked, watch := watch } := by
  rcases ha with rfl | rfl
  · refine ⟨s.poked, .fresh, fun c _ => ?_⟩
    rw [Board.write, if_pos rfl]
  · by_cases hresume : v = CTRL_RESUME
    · subst hresume
      refine ⟨halted, { s.watch with tries := s.watch.tries + 1 }, fun c hc => ?_⟩
      rw [← hc]
      rfl
    · refine ⟨s.poked, s.watch, fun c _ => ?_⟩
      by_cases hrun : v = CTRL_RUN
      · subst hrun
        rfl
      · simp [Board.write, hrun, hresume, show ¬ PPU_CTRL.toUInt64 = CMD_WORD.toUInt64 by decide,
          show ¬ PPU_CTRL.toUInt64 = PPU_RST_CTRLB.toUInt64 by decide]

section
variable {compute : List Op} {inputs : Nat → UInt32} {n : Nat} {word : UInt32}
  {At : Cpu → UInt32 → Prop} {rank : Cpu → Nat} {final : UInt32 → UInt32}

/-- Apart from the result the scratch is as it will be. -/
def Off (final scratch : UInt32 → UInt32) : Prop := ∀ a, a ≠ RESULT → scratch a = final a

/-- The core `c` of the rig, seen as the core `c₀` of the board with the final scratch, which
waits before the call until the routine has returned. -/
inductive Follows (At : Cpu → UInt32 → Prop) (final scratch : UInt32 → UInt32) : Cpu → Cpu → Prop
  | through {c : Cpu} (hlow : 1 ≤ c.pc) (hhigh : c.pc < 22) (hs : scratch = final) :
      Follows At final scratch c c
  | calling {c : Cpu} (hpc : c.pc = 0) (hrun : c.halted = false) (hs : Off final scratch) :
      Follows At final scratch c c
  | computing {c₀ c : Cpu} (hpc : c₀.pc = 0) (hrun : c₀.halted = false)
      (hat : At c (scratch RESULT)) (hs : Off final scratch) : Follows At final scratch c₀ c

/-- What is true of the core at each of these. -/
structure Tracks (inputs : Nat → UInt32) (n : Nat) (At : Cpu → UInt32 → Prop)
    (final : UInt32 → UInt32) (b : Board) (s : Rig) : Prop where
  core : ∃ c₀ c, s.board.core = some c ∧ b = { s.board with core := some c₀ } ∧
    Follows At final s.scratch c₀ c
  operands : InputsIn inputs n s.board.mem

theorem Follows.halted (hk : Routine (linked compute) 22 1 (Given inputs n) RESULT word At rank)
    {scratch : UInt32 → UInt32} {c₀ c : Cpu} (h : Follows At final scratch c₀ c) :
    c₀.halted = c.halted := by
  cases h with
  | through => rfl
  | calling => rfl
  | computing hpc hrun hat hs => rw [hrun, (hk.inside c _ hat).2]

theorem store_result (b : Board) (scratch : UInt32 → UInt32) {w : Option (UInt32 × UInt32)}
    (hw : w = none ∨ w = some (RESULT, word)) :
    ∃ scratch', Rig.store ⟨b, scratch⟩ w = ⟨b, scratch'⟩ ∧
      scratch' RESULT = stored RESULT (scratch RESULT) w ∧
      ∀ a, a ≠ RESULT → scratch' a = scratch a := by
  rcases hw with rfl | rfl
  · exact ⟨scratch, rfl, rfl, fun _ _ => rfl⟩
  · exact ⟨_, rfl, rfl, fun a ha => if_neg ha⟩

/-- What the core does in the routine. -/
theorem routine_step (hk : Routine (linked compute) 22 1 (Given inputs n) RESULT word At rank)
    (hn : 0x310 + 4 * n ≤ 0x10000000) {b : Board} {scratch : UInt32 → UInt32} {c : Cpu}
    (hin : InputsIn inputs n b.mem) (hat : At c (scratch RESULT)) :
    ∃ op c' scratch', (linked compute)[c.pc]? = some op ∧ c'.halted = false ∧
      Rig.store ⟨b.ran c (op.exec (view scratch b.mem) c).1, scratch⟩
        (op.exec (view scratch b.mem) c).2 = ⟨{ b with core := some c' }, scratch'⟩ ∧
      (∀ a, a ≠ RESULT → scratch' a = scratch a) ∧
      (At c' (scratch' RESULT) ∧ rank c' < rank c ∨ c'.pc = 1 ∧ scratch' RESULT = word) := by
  obtain ⟨op, hop, hgoes⟩ := hk.step _ c _ (operands_view hin hn scratch) hat
  have hquiet := Board.ran_quiet (s := b) (.inr (hk.inside c _ hat).1) hgoes.runs
  obtain ⟨scratch', hstore, hresult, hoff⟩ :=
    store_result (b.ran c (op.exec (view scratch b.mem) c).1) scratch hgoes.stores
  refine ⟨op, _, scratch', hop, hgoes.runs, hstore.trans (by rw [hquiet]), hoff, ?_⟩
  rw [hresult]
  exact hgoes.next

/-- When the routine has returned, the scratch is as it will be. -/
theorem Off.full {scratch scratch' : UInt32 → UInt32} (hs : Off final scratch)
    (hoff : ∀ a, a ≠ RESULT → scratch' a = scratch a) (hresult : scratch' RESULT = final RESULT) :
    scratch' = final := by
  funext a
  by_cases ha : a = RESULT
  · rw [ha, hresult]
  · exact (hoff a ha).trans (hs a ha)

/-- Each step of the core with the routine is a step without it, or none. -/
theorem rigStep_tracks (hk : Routine (linked compute) 22 1 (Given inputs n) RESULT word At rank)
    (hn : 0x310 + 4 * n ≤ 0x10000000) (hfinal : final RESULT = word) {b : Board} {s s' : Rig}
    (h : Tracks inputs n At final b s) (hsim : ∃ l, Sim final l b)
    (hstep : RigStep (linked compute) s s') :
    ∃ b', ReflTransGen (CoreStep final) b b' ∧ Tracks inputs n At final b' s' := by
  obtain ⟨⟨c₀, c, hc, rfl, hfollows⟩, hin⟩ := h
  obtain ⟨board, scratch⟩ := s
  have hmem := hstep.mem
  have hin' : InputsIn inputs n s'.board.mem := hmem ▸ hin
  dsimp only at hc hfollows hin hmem
  cases hstep with
  | @run c' op hc' hrun hop =>
    obtain rfl : c = c' := Option.some.inj (hc.symm.trans hc')
    cases hfollows with
    | through hlow hhigh hs =>
      subst hs
      obtain ⟨i, hi, hbl, hplain⟩ := linked_plain compute hlow hhigh
      obtain rfl : op = .plain i := Option.some.inj (hop.symm.trans hplain)
      have hstep : Step rtInc (view scratch board.mem) c₀ (i.exec (view scratch board.mem) c₀) :=
        ⟨hrun, i, hi, by rw [if_neg hbl]⟩
      obtain ⟨l, c₁, hc₁, hann, -⟩ := hsim
      obtain rfl : c₁ = c₀ := (Option.some.inj hc₁).symm
      have hhigh' := annotated_pc (annotated_run hann hstep)
      have hlow' := exec_pos (List.mem_of_getElem? hi) (view scratch board.mem) c₁
      exact ⟨_, .single (.run rfl hstep), ⟨_, i.exec (view scratch board.mem) c₁, rfl, rfl,
        .through hlow' hhigh' rfl⟩, hin'⟩
    | calling hpc hrun' hs =>
      have hcall : (linked compute)[c₀.pc]? = some (.call 22) := by
        rw [hpc]
        rfl
      obtain rfl : op = .call 22 := Option.some.inj (hop.symm.trans hcall)
      have hquiet : board.ran c₀ ((Op.call 22).exec (view scratch board.mem) c₀).1 =
          { board with core := some ((Op.call 22).exec (view scratch board.mem) c₀).1 } :=
        Board.ran_quiet (.inl hpc) hrun'
      have hat : At ((Op.call 22).exec (view scratch board.mem) c₀).1 (scratch RESULT) :=
        hk.enter _ _ rfl hrun' (by simp [Op.exec, hpc])
      refine ⟨_, .refl, ⟨c₀, _, congrArg Board.core hquiet, ?_, .computing hpc hrun' hat hs⟩, hin'⟩
      show _ = { board.ran c₀ ((Op.call 22).exec (view scratch board.mem) c₀).1 with
        core := some c₀ }
      rw [hquiet]
    | computing hpc hrun' hat hs =>
      obtain ⟨op', c', scratch', hop', hrun₁, hstore, hoff, hnext⟩ := routine_step hk hn hin hat
      obtain rfl : op' = op := Option.some.inj (hop'.symm.trans hop)
      rw [hstore] at hin' ⊢
      rcases hnext with ⟨hat', -⟩ | ⟨hpc', hword⟩
      · exact ⟨_, .refl, ⟨c₀, c', rfl, rfl,
          .computing hpc hrun' hat' fun a ha => (hoff a ha).trans (hs a ha)⟩, hin'⟩
      · -- the routine has returned
        have hfull := hs.full hoff (hword.trans hfinal.symm)
        have hstep : Step rtInc (view final board.mem) c₀ c' := by
          refine ⟨hrun', .bl, by rw [hpc]; rfl, ?_⟩
          rw [if_pos rfl, hpc]
          exact ⟨hpc', hrun₁⟩
        have hlow : 1 ≤ c'.pc := Nat.le_of_eq hpc'.symm
        have hhigh : c'.pc < 22 := Nat.lt_of_le_of_lt (Nat.le_of_eq hpc') (by decide)
        exact ⟨_, .single (.run rfl hstep), ⟨c', c', rfl, Board.ran_quiet (.inl hpc) hrun₁,
          .through hlow hhigh hfull⟩, hin'⟩
  | @resume c' hc' hhalted hpoked =>
    obtain rfl : c = c' := Option.some.inj (hc.symm.trans hc')
    cases hfollows with
    | through hlow hhigh hs =>
      subst hs
      exact ⟨_, .single (.resume rfl hhalted hpoked),
        ⟨_, _, rfl, rfl, .through hlow hhigh rfl⟩, hin'⟩
    | calling hpc hrun hs =>
      rw [hrun] at hhalted
      cases hhalted
    | computing hpc hrun hat hs =>
      rw [(hk.inside c _ hat).2] at hhalted
      cases hhalted

/-- Each access of the host finds the board without the routine. -/
theorem rigAccess_tracks
    (hk : Routine (linked compute) 22 1 (Given inputs n) RESULT word At rank)
    (hn : 0x310 + 4 * n ≤ 0x10000000) {b : Board} {s s' : Rig} {o : BusSig.Op} {r : BusSig.Res o}
    (ho : Channel o) (h : Tracks inputs n At final b s) (hE : Rig.access s o r s') :
    ∃ b', Board.access final b o r b' ∧ Tracks inputs n At final b' s' := by
  obtain ⟨⟨c₀, c, hc, rfl, hfollows⟩, hin⟩ := h
  obtain ⟨board, scratch⟩ := s
  obtain ⟨board', scratch'⟩ := s'
  have hhalted := hfollows.halted hk
  dsimp only at hc hfollows hin
  cases o with
  | read core a =>
    have hstat : a.address = PPU_STAT.toUInt64 := ho
    obtain ⟨hread, rfl, hthrough⟩ := hE
    simp only [Board.access, hstat, ↓reduceIte] at hread
    obtain ⟨⟨hpolls, htries⟩, hv, rfl⟩ := hread
    have hsame : Board.halted { board with core := some c₀ } = board.halted := by
      rw [Board.halted, Board.halted, hc]
      exact hhalted
    refine ⟨Board.polled { board with core := some c₀ }, ?_, ⟨c₀, c, hc, rfl, hfollows⟩, hin⟩
    simp only [Board.access, hstat, ↓reduceIte, hsame]
    refine ⟨⟨fun hlate => ?_, htries⟩, hv, trivial⟩
    obtain ⟨hlow, hhigh⟩ := hthrough hstat hlate c hc
    cases hfollows with
    | through _ _ hs =>
      rw [← hs]
      exact hpolls hlate
    | calling hpc _ _ => omega
    | computing _ _ hat _ =>
      have := (hk.inside c _ hat).1
      omega
  | write core a v =>
    dsimp only [Rig.access, Board.access] at hE
    obtain ⟨⟨rfl, rfl⟩, rfl⟩ := hE
    obtain ⟨poked, watch, hwrite⟩ := board.write_channel v c.halted ho
    have hb := hwrite c rfl
    have hl := layout
    rw [show ({ board with core := some c } : Board) = board by rw [← hc]] at hb
    refine ⟨_, ⟨rfl, rfl⟩, ⟨c₀, c, ?_, ?_, hfollows⟩, ?_⟩
    · exact congrArg Board.core hb
    · dsimp only
      rw [hb, hwrite c₀ hhalted]
    · dsimp only
      rw [hb]
      apply hin.store
      rcases ho with ho | ho
      · rw [ho]
        exact .inl (by decide)
      · rw [ho, UInt32.toNat_toUInt64]
        omega

/-- The rig and the board without the routine, as one relation. -/
def Beside (inputs : Nat → UInt32) (n : Nat) (At : Cpu → UInt32 → Prop) (final : UInt32 → UInt32)
    (b : Board) (s : Rig) : Prop :=
  Tracks inputs n At final b s ∧ ∃ l, Sim final l b

theorem sim_steps {b b' : Board} (h : ∃ l, Sim final l b)
    (hsteps : ReflTransGen (CoreStep final) b b') : ∃ l, Sim final l b' := by
  induction hsteps with
  | refl => exact h
  | tail _ hstep ih =>
    obtain ⟨l, hl⟩ := ih
    obtain ⟨l', -, hl'⟩ := coreStep_sim hl hstep
    exact ⟨l', hl'⟩

theorem beside_sim (hk : Routine (linked compute) 22 1 (Given inputs n) RESULT word At rank)
    (hn : 0x310 + 4 * n ≤ 0x10000000) (hfinal : final RESULT = word) (b : Board) (s : Rig)
    (o : BusSig.Op) (r : BusSig.Res o) (s' : Rig) (ho : Channel o)
    (h : Beside inputs n At final b s) (hE : rig (linked compute) s o r s') :
    ∃ b', board final b o r b' ∧ Beside inputs n At final b' s' := by
  apply interleave_sim (P := Channel) (Beside inputs n At final) ?_ ?_ b s o r s' ho h hE
  · rintro b s s' ⟨htracks, hsim⟩ hstep
    obtain ⟨b', hsteps, htracks'⟩ := rigStep_tracks hk hn hfinal htracks hsim hstep
    exact ⟨b', hsteps, htracks', sim_steps hsim hsteps⟩
  · rintro b s o r s' ho ⟨htracks, l, hl⟩ hE
    obtain ⟨b', haccess, htracks'⟩ := rigAccess_tracks hk hn ho htracks hE
    obtain ⟨l', -, hl'⟩ := access_sim ho hl haccess
    exact ⟨b', haccess, htracks', l', hl'⟩

end

/-! ## Starting the core -/

section
variable {prog : List Op} {lmu : Lmu} {image : Nat → UInt8} {len : UInt32} {inputs : Nat → UInt32}
  {nin : UInt32}

theorem stable_mem (P : Mem → Prop) : Stable (RigStep prog) fun s => P s.board.mem := by
  intro s s' h hstep
  rwa [hstep.mem]

/-- To the host, as far as it loads an image, the rig is a memory. -/
theorem startup_rig (m : Startup) (s : Rig) (o : BusSig.Op) (r : BusSig.Res o) (s' : Rig)
    (h : m.mem = s.board.mem) (hE : rig prog s o r s') :
    ∃ m', startup m o r m' ∧ m'.mem = s'.board.mem := by
  obtain ⟨s₁, hsteps, hE⟩ := hE
  have hmem : s₁.board.mem = m.mem := (stable_mem (· = m.mem)).steps h.symm hsteps
  cases o with
  | read core a =>
    obtain ⟨hread, -, -⟩ := hE
    by_cases hstat : a.address = PPU_STAT.toUInt64
    · simp only [Board.access, hstat, ↓reduceIte] at hread
      refine ⟨m, ⟨rfl, fun hlt => ?_⟩, ?_⟩
      · rw [hstat] at hlt
        exact absurd hlt (by decide)
      · rw [hread.2.2]
        exact hmem.symm
    · simp only [Board.access, hstat, ↓reduceIte] at hread
      obtain ⟨⟨v, rfl, hv⟩, hboard⟩ := hread
      refine ⟨m, ⟨rfl, fun hlt v' hv' => ?_⟩, ?_⟩
      · rw [← hmem, ← hv hlt]
        exact (Option.some.inj hv').symm
      · rw [hboard]
        exact hmem.symm
  | write core a v =>
    obtain ⟨⟨rfl, hboard⟩, -⟩ := hE
    refine ⟨m.write a.address v, ⟨rfl, rfl⟩, ?_⟩
    rw [hboard, Startup.write_mem, Board.write_mem, hmem]

theorem rig_succeeds : Succeeds (rig prog) where
  read := by
    rintro s c a v s' ⟨s₁, -, hread, -, -⟩
    by_cases hstat : a.address = PPU_STAT.toUInt64
    · simp only [Board.access, hstat, ↓reduceIte] at hread
      obtain ⟨x, hx, -⟩ := hread.2.1
      exact ⟨x, hx⟩
    · simp only [Board.access, hstat, ↓reduceIte] at hread
      obtain ⟨x, hx, -⟩ := hread.1
      exact ⟨x, hx⟩
  write := by
    rintro s c a v b s' ⟨s₁, -, hwrite, -⟩
    exact hwrite.1

/-- A write, and what comes after it. -/
theorem wp_then_rig {α : Type} (t : Target) {I : Rig → Prop} (hI : Stable (RigStep prog) I)
    {Q : α → Rig → Prop} {X : Abort → Rig → Prop} {a : UInt64} {v : UInt32} {p : Unit → Bus α}
    (hp : ∀ s, I s → (p ()).wp (rig prog) Q X { s with board := s.board.write a v }) {s : Rig}
    (hs : I s) : (w t a v >>= p).wp (rig prog) Q X s := by
  rw [wp_bind, wp_w]
  intro r s' h
  obtain ⟨s₁, hs₁, ⟨-, hboard⟩, hscratch⟩ := interleave_cases hI hs h
  have hs' : s' = { s₁ with board := s₁.board.write a v } := by
    cases s'
    cases hboard
    cases hscratch
    rfl
  rw [hs']
  exact hp s₁ hs₁

/-- The core is in reset, on an intact setup. -/
def Resting (lmu : Lmu) (image : Nat → UInt8) (len : UInt32) (inputs : Nat → UInt32) (nin : UInt32)
    (s : Rig) : Prop :=
  s.board.core = none ∧ s.board.poked = false ∧ Intact lmu image len inputs nin s.board.mem

theorem resting_stable : Stable (RigStep prog) (Resting lmu image len inputs nin) := by
  rintro s s' ⟨hcore, -⟩ hstep
  cases hstep with
  | run hc _ _ =>
    rw [hcore] at hc
    cases hc
  | resume hc _ _ =>
    rw [hcore] at hc
    cases hc

theorem waitReset_rig (t : Target) (n : Nat) {s : Rig} (h : Resting lmu image len inputs nin s) :
    (waitReset t n).wp (rig prog) (fun _ => Resting lmu image len inputs nin) (fun _ _ => False)
      s := by
  induction n generalizing s with
  | zero => exact h
  | succ n ih =>
    simp only [waitReset, wp_bind, wp_r]
    intro v s' hv
    obtain ⟨s₁, hs₁, hread, -, -⟩ := interleave_cases resting_stable h hv
    have hs' : Resting lmu image len inputs nin s' := by
      have hne : ¬ PPU_RST_STAT.toUInt64 = PPU_STAT.toUInt64 := by decide
      simp only [Board.access, hne, ↓reduceIte] at hread
      rw [Resting, hread.2]
      exact hs₁
    split
    · exact hs'
    · exact ih hs'

/-- The core has just been started: it is before the call of `compute`. -/
structure Fresh (lmu : Lmu) (image : Nat → UInt8) (len : UInt32) (inputs : Nat → UInt32)
    (nin : UInt32) (s : Rig) : Prop where
  reset : ∃ b : Board, InReset 0 b ∧ s.board = b.write PPU_CTRL.toUInt64 CTRL_RUN
  core : s.board.core = some ⟨0, fun _ => 0, false, false⟩
  intact : Intact lmu image len inputs nin s.board.mem

theorem intact_write (hfits : Fits lmu len nin) {s : Board}
    (h : Intact lmu image len inputs nin s.mem) {a : UInt32} (ha : PPU_CLC ≤ a) (v : UInt32) :
    Intact lmu image len inputs nin (s.write a.toUInt64 v).mem := by
  rw [Board.write_mem, UInt32.toNat_toUInt64]
  exact h.write hfits v (UInt32.le_iff_toNat_le.mp ha)

theorem Resting.start (hfits : Fits lmu len nin) {s : Rig}
    (h : Resting lmu image len inputs nin s) : Fresh lmu image len inputs nin
      { s with board := s.board.write PPU_CTRL.toUInt64 CTRL_RUN } := by
  obtain ⟨hcore, hpoked, hintact⟩ := h
  refine ⟨⟨s.board, ⟨hcore, hpoked, hintact.command⟩, rfl⟩, ?_, ?_⟩
  · unfold Board.write
    simp only [show ¬ PPU_CTRL.toUInt64 = CMD_WORD.toUInt64 by decide,
      show ¬ PPU_CTRL.toUInt64 = PPU_RST_CTRLB.toUInt64 by decide, ↓reduceIte, false_and,
      true_and, hcore]
  · exact intact_write hfits hintact (by decide) CTRL_RUN

/-- The operands and the command word are in place. -/
def Placed (inputs : Nat → UInt32) (nin : UInt32) (m : Mem) : Prop := Prepared inputs nin ⟨m, []⟩

theorem Placed.write (hfits : Fits lmu len nin) {s : Board} (h : Placed inputs nin s.mem)
    {a : UInt32} (ha : PPU_CLC ≤ a) (hne : a ≠ PPU_CTRL) (v : UInt32) :
    Placed inputs nin (s.write a.toUInt64 v).mem := by
  obtain ⟨-, hin, hcmd⟩ : Prepared inputs nin (Startup.write ⟨s.mem, []⟩ a.toUInt64 v) :=
    Prepared.write h hfits ha hne
  rw [Startup.write_mem] at hin hcmd
  rw [Board.write_mem]
  exact ⟨rfl, hin, hcmd⟩

theorem image_write_rig (t : Target) (hfits : Fits lmu len nin) {s : Rig}
    (h : Placed inputs nin s.board.mem) :
    (tcmcdWrite t PPU_CODE_BASE.toUInt64 image len).wp (rig prog)
      (fun rc s' => rc = 0 ∧ Intact lmu image len inputs nin s'.board.mem) (fun _ _ => False)
      s := by
  have hmem : (tcmcdWrite t PPU_CODE_BASE.toUInt64 image len).wp (rig prog) _ _ s :=
    wp_sim (fun (m : Startup) (s : Rig) => m.mem = s.board.mem) startup_rig
      (show (⟨s.board.mem, []⟩ : Startup).mem = s.board.mem from rfl)
      (image_write_spec t hfits h)
  apply wp_mono _ ?_ (fun _ _ h => h.1)
    (wp_and _ (tcmcdWrite_succeeds rig_succeeds t PPU_CODE_BASE.toUInt64 image len s) hmem)
  rintro rc s' ⟨rfl, m, hm, -, hloaded⟩
  refine ⟨rfl, ?_⟩
  rw [← hm]
  exact (hloaded rfl).2

/-- From the reset on. -/
theorem start_rig (t : Target) (hfits : Fits lmu len nin) {s : Rig}
    (h : Resting lmu image len inputs nin s) :
    (do
      waitReset t 100000
      w t PPU_RST_CTRLB.toUInt64 0x80000000
      w t PPU_CTRL.toUInt64 CTRL_RUN
      return (0 : Int) : Bus Int).wp (rig prog)
        (fun rc s' => rc = 0 ∧ Fresh lmu image len inputs nin s') (fun _ _ => False) s := by
  rw [wp_bind]
  apply wp_mono _ ?_ (fun _ _ h => h) (waitReset_rig t 100000 h)
  intro _ s h
  apply wp_then_rig t resting_stable ?_ h
  intro s h
  have hcleared : Resting lmu image len inputs nin
      { s with board := s.board.write PPU_RST_CTRLB.toUInt64 0x80000000 } :=
    ⟨h.1, h.2.1, intact_write hfits h.2.2 (by decide) _⟩
  apply wp_then_rig t resting_stable ?_ hcleared
  intro s h
  exact ⟨rfl, h.start hfits⟩

theorem ppuLoadRun_rig (t : Target) (hfits : Fits lmu len nin) {s : Rig}
    (h : Placed inputs nin s.board.mem) :
    (ppuLoadRun t image len).wp (rig prog) (fun rc s' => rc = 0 ∧ Fresh lmu image len inputs nin s')
      (fun _ _ => False) s := by
  have hintact : Stable (RigStep prog) fun s => Intact lmu image len inputs nin s.board.mem :=
    stable_mem _
  rw [ppuLoadRun]
  apply wp_then_rig t (stable_mem (Placed inputs nin)) ?_ h
  intro s h
  have hopen : Placed inputs nin (s.board.write PPU_CLC.toUInt64 0).mem :=
    h.write hfits (by decide) (by decide) 0
  have himage : (tcmcdWrite t PPU_CODE_BASE.toUInt64 image len).wp (rig prog) _ _
      { s with board := s.board.write PPU_CLC.toUInt64 0 } := image_write_rig t hfits hopen
  rw [wp_bind]
  apply wp_mono _ ?_ (fun _ _ h => h) himage
  rintro _ s ⟨rfl, h⟩
  simp only [ne_eq, not_true_eq_false, ↓reduceIte]
  apply wp_then_rig t hintact ?_ h
  intro s h
  apply wp_then_rig t hintact ?_ (intact_write hfits h (by decide) _)
  intro s h
  apply wp_then_rig t hintact ?_ (intact_write hfits h (by decide) _)
  intro s h
  exact start_rig t hfits ⟨rfl, rfl, intact_write hfits h (by decide) 1⟩

end

/-! ## The call -/

section
variable {compute : List Op} {lmu : Lmu} {image : Nat → UInt8} {len : UInt32}
  {inputs : Nat → UInt32} {nin : UInt32} {n : Nat} {word : UInt32} {At : Cpu → UInt32 → Prop}
  {rank : Cpu → Nat}

/-- The call returned 0 with `word` as its first result. -/
def Gives (word : UInt32) (x : Except Abort (Int × (Nat → UInt32))) : Prop :=
  ∃ outputs, x = .ok (0, outputs) ∧ outputs 0 = word

/-- What the scratch will be when the routine has returned. -/
def finalScratch (word : UInt32) (scratch : UInt32 → UInt32) : UInt32 → UInt32 :=
  fun a => if a = RESULT then word else scratch a

theorem Fresh.ready {s : Rig} (h : Fresh lmu image len inputs nin s) (final : UInt32 → UInt32)
    (nout : UInt32) : ∃ l, Sim final l s.board ∧ Ready (resultWord final) nout 0 l := by
  obtain ⟨b, hb, hboard⟩ := h.reset
  rw [hboard]
  obtain ⟨l, hsim, hlaunched⟩ := hb.start
  exact ⟨l, hsim, hlaunched.ready _ nout⟩

theorem Fresh.tracks (hn : n ≤ nin.toNat) {s : Rig} (h : Fresh lmu image len inputs nin s) :
    Tracks inputs n At (finalScratch word s.scratch) s.board s := by
  have hcore := h.core
  have hoff : Off (finalScratch word s.scratch) s.scratch := fun a ha => (if_neg ha).symm
  have hin : InputsIn inputs n s.board.mem := fun i hi => (h.intact.input i (by omega)).2
  exact ⟨⟨_, _, hcore, by rw [← hcore], .calling rfl rfl hoff⟩, hin⟩

theorem streamResults_rig
    (hk : Routine (linked compute) 22 1 (Given inputs n) RESULT word At rank)
    (hfits : Fits lmu len nin) (hn : n ≤ nin.toNat) (t : Target) {nout : UInt32}
    (hout : 1 ≤ nout.toNat ∧ nout.toNat ≤ 256) (outputs : Nat → UInt32) {s : Rig}
    (h : Fresh lmu image len inputs nin s) :
    (streamResults t outputs nout).wp (rig (linked compute)) (fun x _ => x.1 = 0 ∧ x.2 0 = word)
      (fun _ _ => False) s := by
  have hseg := lmu.segment
  have hsize := hfits.2
  have hfinal : finalScratch word s.scratch RESULT = word := if_pos rfl
  obtain ⟨l, hsim, hready⟩ := h.ready (finalScratch word s.scratch) nout
  have hbeside : Beside inputs n At (finalScratch word s.scratch) s.board s :=
    ⟨h.tracks hn, l, hsim⟩
  have hword : resultWord (finalScratch word s.scratch) (UInt32.ofNat 0) = word := hfinal
  have hstream : (streamResults t outputs nout).wp (rig (linked compute)) _ _ s :=
    (streamResults_asks t outputs nout).sim (Beside inputs n At (finalScratch word s.scratch))
      (fun b s o r s' ho h hE => beside_sim hk (by omega) hfinal b s o r s' ho h hE) hbeside
      (streamResults_board t hout.2 outputs ⟨l, hsim, hready⟩)
  apply wp_mono _ ?_ ?_ hstream
  · rintro x s' ⟨b, -, ⟨hrc, houtputs⟩, -⟩
    exact ⟨hrc, (houtputs 0 (by omega)).trans hword⟩
  · rintro e s' ⟨b, -, hfalse⟩
    exact hfalse

theorem writeInputs_rig {prog : List Op} (t : Target) (hfits : Fits lmu len nin) (s : Rig) :
    (writeInputs t inputs nin).wp (rig prog)
      (fun _ s' => InputsIn inputs nin.toNat s'.board.mem) (fun _ _ => False) s := by
  have hseg := lmu.segment
  have hsize := hfits.2
  have hinputs : (writeInputs t inputs nin).wp (rig prog) _ _ s :=
    wp_sim (fun (m : Startup) (s : Rig) => m.mem = s.board.mem) startup_rig
      (show (⟨s.board.mem, []⟩ : Startup).mem = s.board.mem from rfl)
      (writeInputs_spec t (by omega) s.board.mem)
  apply wp_mono _ ?_ ?_ hinputs
  · rintro _ s ⟨m, hm, -, hin⟩
    rw [← hm]
    exact hin
  · rintro e s' ⟨_, -, hfalse⟩
    exact hfalse

/-- The command word is cleared after the operands. -/
theorem placed {s : Rig} (hin : InputsIn inputs nin.toNat s.board.mem) :
    Placed inputs nin (s.board.write CMD_WORD.toUInt64 0).mem := by
  have hl := layout
  rw [Board.write_mem, UInt32.toNat_toUInt64]
  exact ⟨rfl, hin.store (by omega), loadWord_storeWord ..⟩

theorem ppuCall_rig (hk : Routine (linked compute) 22 1 (Given inputs n) RESULT word At rank)
    (hfits : Fits lmu len nin) (hn : n ≤ nin.toNat) (t : Target) {nout : UInt32}
    (hout : 1 ≤ nout.toNat ∧ nout.toNat ≤ 256) (outputs : Nat → UInt32) (s : Rig) :
    (ppuCall t image len inputs nin outputs nout).wp (rig (linked compute))
      (fun x _ => Gives word (.ok x)) (fun _ _ => False) s := by
  rw [ppuCall, wp_bind]
  apply wp_mono _ ?_ (fun _ _ h => h) (writeInputs_rig t hfits s)
  intro _ s hin
  apply wp_then_rig t (stable_mem (InputsIn inputs nin.toNat)) ?_ hin
  intro s hin
  have hrun : (ppuLoadRun t image len).wp (rig (linked compute)) _ _
      { s with board := s.board.write CMD_WORD.toUInt64 0 } := ppuLoadRun_rig t hfits (placed hin)
  rw [wp_bind]
  apply wp_mono _ ?_ (fun _ _ h => h) hrun
  rintro _ s ⟨rfl, hfresh⟩
  simp only [ne_eq, not_true_eq_false, ↓reduceIte]
  apply wp_mono _ ?_ (fun _ _ h => h) (streamResults_rig hk hfits hn t hout outputs hfresh)
  rintro ⟨rc, outputs'⟩ s' ⟨rfl, hword⟩
  exact ⟨outputs', rfl, hword⟩

/-! ## A run -/

/-- The routine returns. -/
theorem routine_returns {final : UInt32 → UInt32}
    (hk : Routine (linked compute) 22 1 (Given inputs n) RESULT word At rank)
    (hn : 0x310 + 4 * n ≤ 0x10000000) (hfinal : final RESULT = word) {b : Board}
    {scratch : UInt32 → UInt32} {c : Cpu} (hc : b.core = some c) (hin : InputsIn inputs n b.mem)
    (hat : At c (scratch RESULT)) (hs : Off final scratch) :
    ∃ c', c'.pc = 1 ∧ c'.halted = false ∧ ReflTransGen (RigStep (linked compute)) ⟨b, scratch⟩
      ⟨{ b with core := some c' }, final⟩ := by
  induction hrank : rank c using Nat.strongRecOn generalizing b scratch c with
  | ind r ih =>
    obtain ⟨op, c', scratch', hop, hrun, hstore, hoff, hnext⟩ := routine_step hk hn hin hat
    have hstep : RigStep (linked compute) ⟨b, scratch⟩ ⟨{ b with core := some c' }, scratch'⟩ := by
      rw [← hstore]
      exact .run hc (hk.inside c _ hat).2 hop
    rcases hnext with ⟨hat', hless⟩ | ⟨hpc', hword⟩
    · obtain ⟨c₁, hpc₁, hrun₁, hsteps⟩ := ih (rank c') (hrank ▸ hless)
        (b := { b with core := some c' }) rfl hin hat' (fun a ha => (hoff a ha).trans (hs a ha)) rfl
      exact ⟨c₁, hpc₁, hrun₁, .head hstep hsteps⟩
    · have hfull := hs.full hoff (hword.trans hfinal.symm)
      rw [hfull] at hstep
      exact ⟨c', hpc', hrun, .single hstep⟩

/-- The core is past the call of `compute`. -/
def Past (b : Board) : Prop := ∃ c, b.core = some c ∧ 1 ≤ c.pc

/-- A started core comes through the routine, which is one step of the board without it. -/
theorem Fresh.through {final : UInt32 → UInt32}
    (hk : Routine (linked compute) 22 1 (Given inputs n) RESULT word At rank)
    (hn : 0x310 + 4 * n ≤ 0x10000000) (hnin : n ≤ nin.toNat) (hfinal : final RESULT = word)
    {s : Rig} (h : Fresh lmu image len inputs nin s) (hs : Off final s.scratch) :
    ∃ b', Past b' ∧ CoreStep final s.board b' ∧
      ReflTransGen (RigStep (linked compute)) s ⟨b', final⟩ := by
  obtain ⟨b, scratch⟩ := s
  have hcore := h.core
  have hin : InputsIn inputs n b.mem := fun i hi => (h.intact.input i (by omega)).2
  have hop : (linked compute)[0]? = some (.call 22) := rfl
  have hcall : RigStep (linked compute) ⟨b, scratch⟩
      ⟨b.ran ⟨0, fun _ => 0, false, false⟩ ((Op.call 22).exec (view scratch b.mem) _).1, scratch⟩ :=
    .run hcore rfl hop
  rw [Board.ran_quiet (.inl rfl) rfl] at hcall
  have hat : At ((Op.call 22).exec (view scratch b.mem) ⟨0, fun _ => 0, false, false⟩).1
      (scratch RESULT) := hk.enter _ _ rfl rfl rfl
  obtain ⟨c, hpc, hrun, hsteps⟩ :=
    routine_returns (b := { b with core := some _ }) hk hn hfinal rfl hin hat hs
  have hbl : Step rtInc (view final b.mem) ⟨0, fun _ => 0, false, false⟩ c := by
    refine ⟨rfl, .bl, rfl, ?_⟩
    rw [if_pos rfl]
    exact ⟨hpc, hrun⟩
  have hstep : CoreStep final b (b.ran _ c) := .run hcore hbl
  rw [Board.ran_quiet (.inl rfl) hrun] at hstep
  exact ⟨_, ⟨c, rfl, Nat.le_of_eq hpc.symm⟩, hstep, .head hcall hsteps⟩

theorem past_steps {final : UInt32 → UInt32} {b b' : Board} (h : Past b)
    (hsteps : ReflTransGen (CoreStep final) b b') :
    ReflTransGen (RigStep (linked compute)) ⟨b, final⟩ ⟨b', final⟩ ∧ Past b' := by
  induction hsteps with
  | refl => exact ⟨.refl, h⟩
  | @tail b₁ b₂ _ hstep ih =>
    obtain ⟨hsteps, c, hc, hlow⟩ := ih
    cases hstep with
    | @run c₁ c₂ hc₁ hrun =>
      obtain rfl : c₁ = c := Option.some.inj (hc₁.symm.trans hc)
      obtain ⟨hrun, i, hi, hexec⟩ := hrun
      have hhigh : c₁.pc < 22 := (List.getElem?_eq_some_iff.mp hi).1
      obtain ⟨i', hi', hbl, hplain⟩ := linked_plain compute hlow hhigh
      obtain rfl : i = i' := Option.some.inj (hi.symm.trans hi')
      rw [if_neg hbl] at hexec
      subst hexec
      have hrig : RigStep (linked compute) ⟨b₁, final⟩
          ⟨b₁.ran c₁ (i.exec (view final b₁.mem) c₁), final⟩ := .run hc hrun hplain
      exact ⟨hsteps.tail hrig, _, rfl, exec_pos (List.mem_of_getElem? hi) _ c₁⟩
    | resume hc₁ hhalted hpoked => exact ⟨hsteps.tail (.resume hc₁ hhalted hpoked), _, rfl, by
        rw [← Option.some.inj (hc₁.symm.trans hc)] at hlow
        exact hlow⟩

theorem past_write {b : Board} (h : Past b) {a : UInt64} (v : UInt32)
    (ha : a = CMD_WORD.toUInt64 ∨ a = PPU_CTRL.toUInt64) : Past (b.write a v) := by
  obtain ⟨c, hc, hlow⟩ := h
  obtain ⟨poked, watch, hwrite⟩ := b.write_channel v c.halted ha
  have hb := hwrite c rfl
  rw [show ({ b with core := some c } : Board) = b by rw [← hc]] at hb
  rw [hb]
  exact ⟨c, rfl, hlow⟩

/-- The protocol, and the rig past the call. -/
def Beyond (final : UInt32 → UInt32) (l : Link) (s : Rig) : Prop :=
  s.scratch = final ∧ Past s.board ∧ Sim final l s.board

theorem past_channel {final : UInt32 → UInt32} (l : Link) (s : Rig) (o : BusSig.Op)
    (r : BusSig.Res o) (l' : Link) (ho : Channel o) (h : Beyond final l s)
    (hE : channel (resultWord final) l o r l') :
    ∃ s', rig (linked compute) s o r s' ∧ Beyond final l' s' := by
  apply interleave_sim (P := Channel) (fun s l => Beyond final l s) ?_ ?_ s l o r l' ho h hE
  · rintro ⟨b, scratch⟩ l l' ⟨hscratch, hpast, hsim⟩ hstep
    obtain rfl : scratch = final := hscratch
    obtain ⟨b', hsteps, hsim'⟩ := step_board hsim hstep
    obtain ⟨hsteps', hpast'⟩ := past_steps hpast hsteps
    exact ⟨⟨b', scratch⟩, hsteps', rfl, hpast', hsim'⟩
  · rintro ⟨b, scratch⟩ l o r l' ho ⟨hscratch, hpast, hsim⟩ hE
    obtain rfl : scratch = final := hscratch
    obtain ⟨b', haccess, hsim'⟩ := access_board ho hsim hE
    cases o with
    | read core a =>
      obtain ⟨c, hc, hlow⟩ := hpast
      obtain ⟨c', hc', hann, -⟩ := hsim
      have hthrough : Rig.Through ⟨b, scratch⟩ := by
        intro c₁ hc₁
        obtain rfl : c₁ = c := Option.some.inj (hc₁.symm.trans hc)
        obtain rfl : c₁ = c' := Option.some.inj (hc₁.symm.trans hc')
        exact ⟨hlow, annotated_pc hann⟩
      refine ⟨⟨b', scratch⟩, ⟨haccess, rfl, fun _ _ => hthrough⟩, rfl, ?_, hsim'⟩
      have hb' : b' = b.polled := by
        have hstat : a.address = PPU_STAT.toUInt64 := ho
        simp only [Board.access, hstat, ↓reduceIte] at haccess
        exact haccess.2.2
      rw [hb']
      exact ⟨c, hc, hlow⟩
    | write core a v =>
      refine ⟨⟨b', scratch⟩, ⟨haccess, rfl⟩, rfl, ?_, hsim'⟩
      rw [haccess.2]
      exact past_write hpast v ho

theorem rig_answers (prog : List Op) (s : Rig) (o : BusSig.Op) (ho : Loads o) :
    ∃ r s', rig prog s o r s' := by
  cases o with
  | read c a =>
    have hne : ¬ a.address = PPU_STAT.toUInt64 := ho
    refine ⟨some (loadWord s.board.mem a.address.toNat), s, s, .refl, ?_, rfl, ?_⟩
    · simp only [Board.access, hne, ↓reduceIte]
      exact ⟨⟨_, rfl, fun _ => rfl⟩, trivial⟩
    · exact fun h => absurd h hne
  | write c a v => exact ⟨true, ⟨_, s.scratch⟩, s, .refl, ⟨rfl, rfl⟩, rfl⟩

theorem can_later {ε α : Type} {p : Prog BusSig ε α} {prog : List Op} {s s' : Rig}
    (hsteps : ReflTransGen (RigStep prog) s s') (h : p.Can (rig prog) (fun _ _ => True) s') :
    p.Can (rig prog) (fun _ _ => True) s := by
  obtain ⟨x, s'', hrun, -⟩ := h
  cases p with
  | ret => exact can_ret trivial
  | fail => cases hrun
  | ask => exact ⟨x, s'', hrun.later hsteps, trivial⟩

theorem Ready.idle {result : UInt32 → UInt32} {nout : UInt32} {l : Link}
    (h : Ready result nout 0 l) : Idle nout 0 l := by
  refine ⟨h.cmd, h.poked, ?_⟩
  cases h.behind with
  | starting _ hp _ => exact .inr ⟨rfl, hp⟩
  | polling hp _ => exact .inl hp
  | holding j hj _ _ _ _ => cases hj

theorem streamResults_can
    (hk : Routine (linked compute) 22 1 (Given inputs n) RESULT word At rank)
    (hfits : Fits lmu len nin) (hn : n ≤ nin.toNat) (t : Target) {nout : UInt32}
    (hout : nout.toNat ≤ 256) (outputs : Nat → UInt32) {s : Rig}
    (h : Fresh lmu image len inputs nin s) :
    (streamResults t outputs nout).Can (rig (linked compute)) (fun _ _ => True) s := by
  have hseg := lmu.segment
  have hsize := hfits.2
  have hfinal : finalScratch word s.scratch RESULT = word := if_pos rfl
  obtain ⟨b', hpast, hstep, hsteps⟩ :=
    h.through hk (by omega) hn hfinal fun a ha => (if_neg ha).symm
  obtain ⟨l, hsim, hready⟩ := h.ready (finalScratch word s.scratch) nout
  obtain ⟨l', hl, hsim'⟩ := coreStep_sim hsim hstep
  have hready' := (ready_stable hout 0).steps hready hl
  have hbeyond : Beyond (finalScratch word s.scratch) l' ⟨b', finalScratch word s.scratch⟩ :=
    ⟨rfl, hpast, hsim'⟩
  obtain ⟨x, s', hrun, -⟩ := (streamResults_asks t outputs nout).can_sim
    (Beyond (finalScratch word s.scratch)) past_channel hbeyond
    (can_streamResults hout outputs hready'.idle)
  exact can_later hsteps ⟨x, s', hrun, trivial⟩

/-- The call has a run that meets every assumption. -/
theorem ppuCall_rig_can (hk : Routine (linked compute) 22 1 (Given inputs n) RESULT word At rank)
    (hfits : Fits lmu len nin) (hn : n ≤ nin.toNat) (t : Target) {nout : UInt32}
    (hout : nout.toNat ≤ 256) (outputs : Nat → UInt32) (s : Rig) :
    ∃ x s', Runs (rig (linked compute)) (ppuCall t image len inputs nin outputs nout) s x s' := by
  suffices hcan : (ppuCall t image len inputs nin outputs nout).Can (rig (linked compute))
      (fun _ _ => True) s by
    obtain ⟨a, s', hrun, -⟩ := hcan
    exact ⟨_, s', hrun⟩
  have hl := layout
  have hlen : len.toNat ≤ 64 * 1024 := by
    have := hfits.1
    omega
  have hinputs := (writeInputs_asks t inputs nin).can (rig_answers (linked compute))
    (writeInputs_rig t hfits s)
  rw [ppuCall]
  apply hinputs.bind
  intro _ s hin
  have hwrite : rig (linked compute) s (.write t.core ⟨CMD_WORD.toUInt64, t.msid⟩ 0) true
      { s with board := s.board.write CMD_WORD.toUInt64 0 } := ⟨s, .refl, ⟨rfl, rfl⟩, rfl⟩
  have hclear : (w t CMD_WORD.toUInt64 0).Can (rig (linked compute))
      (fun _ s => Placed inputs nin s.board.mem) s := can_ask hwrite (can_ret (placed hin))
  apply hclear.bind
  intro _ s hplaced
  have hrun := (ppuLoadRun_asks t image len hlen).can (rig_answers (linked compute))
    (ppuLoadRun_rig t hfits hplaced)
  apply hrun.bind
  rintro _ s ⟨rfl, hfresh⟩
  simp only [ne_eq, not_true_eq_false, ↓reduceIte]
  exact streamResults_can hk hfits hn t hout outputs hfresh

end

end OpenTricore.Ppu
