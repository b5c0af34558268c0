import OpenTricore.PpuFailures

/-! PPU calls against the core of `rt.inc` on a bus that may fail. A failed access is
one of the image, which the call reports, or one that it does not need, or it is lost on
the call and may cost a result. Where there are none of the last kind, a return value of
0 comes with the result words. -/

namespace OpenTricore.Ppu
open Lib Lib.Prog Lib.Arc

/-! ## A board whose accesses may fail -/

/-- What the host polls the run state for: the answer to a token, or the core that it
has poked. -/
inductive Awaits
  | answer (tok : UInt32) (polls : Nat)
  | resume
  deriving DecidableEq, Repr

def Awaits.polled : Awaits → Awaits
  | .answer tok polls => .answer tok (polls + 1)
  | .resume => .resume

def Awaits.write (w : Awaits) (a : UInt64) (v : UInt32) : Awaits :=
  if a = CMD_WORD.toUInt64 then .answer v 0
  else if a = PPU_CTRL.toUInt64 then .resume
  else w

@[simp] theorem Awaits.write_cmd (w : Awaits) (v : UInt32) :
    w.write CMD_WORD.toUInt64 v = .answer v 0 := rfl

@[simp] theorem Awaits.write_ctrl (w : Awaits) (v : UInt32) :
    w.write PPU_CTRL.toUInt64 v = .resume := rfl

/-- The board, and what the host has tried on it. -/
structure Tried where
  board : Board
  awaits : Awaits

def Tried.polled (y : Tried) : Tried := ⟨y.board.polled, y.awaits.polled⟩

/-- A write that fails has no effect. -/
def Tried.wrote (y : Tried) (a : UInt64) (v : UInt32) (ok : Bool) : Tried :=
  ⟨if ok then y.board.write a v else y.board, y.awaits.write a v⟩

/-- The core moves as on the board. -/
def TriedStep (scratch : UInt32 → UInt32) (y y' : Tried) : Prop :=
  CoreStep scratch y.board y'.board ∧ y'.awaits = y.awaits

/-- The host's accesses, of which those in `May` may fail. Those that succeed are as on
the board. -/
def Tried.access (scratch : UInt32 → UInt32) (May : Tried → BusSig.Op → Prop) : Env BusSig Tried
  | y, .read c a, r, y' =>
    (r = none → May y (.read c a)) ∧
      if a.address = PPU_STAT.toUInt64 then
        (∀ v, r = some v →
          y.board.watch.InTime
            (wantsHalt (resultWord scratch) (loadWord y.board.mem CMD_WORD.toNat)) y.board.halted ∧
          v &&& 3 = if y.board.halted then 2 else 0) ∧ y' = y.polled
      else (∀ v, r = some v → a.address < PPU_CLC.toUInt64 →
        v = loadWord y.board.mem a.address.toNat) ∧ y' = y
  | y, .write c a v, r, y' =>
    (r = false → May y (.write c a v)) ∧ y' = y.wrote a.address v r

/-- The host, and the core beside it. -/
def losingBoard (scratch : UInt32 → UInt32) (May : Tried → BusSig.Op → Prop) : Env BusSig Tried :=
  interleave (TriedStep scratch) (Tried.access scratch May)

/-- The accesses whose failure does not cost a result word: those of operands and image,
the polls of the reset and the write that clears its status, the tokens of a 0 bit and
the done token, the pokes of a started core, and the polls of the run state, but for the
20th for a 1 bit and one that follows a poke while the core is still halted. -/
def Spared (result : UInt32 → UInt32) (y : Tried) : BusSig.Op → Prop
  | .read _ a => a.address = PPU_STAT.toUInt64 →
    match y.awaits with
    | .answer tok polls => ¬ (19 ≤ polls ∧ wantsHalt result tok = true)
    | .resume => y.board.halted = false
  | .write _ a v =>
    a.address < PPU_CLC.toUInt64 ∧ a.address ≠ CMD_WORD.toUInt64 ∨
    a.address = CMD_WORD.toUInt64 ∧ v ≠ 0 ∧ (bitOf v = 0xFF ∨ wantsHalt result v = false) ∨
    a.address = PPU_RST_CTRLB.toUInt64 ∧ v = 0x80000000 ∨
    a.address = PPU_CTRL.toUInt64 ∧ y.board.core ≠ none

theorem spared_cmd {result : UInt32 → UInt32} {y : Tried} {c : Core} {m : UInt32} {v : UInt32} :
    Spared result y (.write c ⟨CMD_WORD.toUInt64, m⟩ v) ↔
      v ≠ 0 ∧ (bitOf v = 0xFF ∨ wantsHalt result v = false) := by
  simp [Spared, show CMD_WORD.toUInt64 ≠ PPU_RST_CTRLB.toUInt64 by decide,
    show CMD_WORD.toUInt64 ≠ PPU_CTRL.toUInt64 by decide]

/-- The reset is not. -/
theorem not_spared_reset {result : UInt32 → UInt32} {y : Tried} {c : Core} {m : UInt32} :
    ¬ Spared result y (.write c ⟨PPU_RST_CTRLB.toUInt64, m⟩ 1) := by
  simp [Spared, show ¬ PPU_RST_CTRLB.toUInt64 < PPU_CLC.toUInt64 by decide,
    show PPU_RST_CTRLB.toUInt64 ≠ CMD_WORD.toUInt64 by decide,
    show PPU_RST_CTRLB.toUInt64 ≠ PPU_CTRL.toUInt64 by decide]

/-- The write to `PPU_CTRL` that starts the core is not. -/
theorem not_spared_start {result : UInt32 → UInt32} {y : Tried} (hcore : y.board.core = none)
    {c : Core} {m : UInt32} {v : UInt32} :
    ¬ Spared result y (.write c ⟨PPU_CTRL.toUInt64, m⟩ v) := by
  simp [Spared, hcore, show ¬ PPU_CTRL.toUInt64 < PPU_CLC.toUInt64 by decide,
    show PPU_CTRL.toUInt64 ≠ CMD_WORD.toUInt64 by decide,
    show PPU_CTRL.toUInt64 ≠ PPU_RST_CTRLB.toUInt64 by decide]

/-! ## The protocol where accesses fail -/

section
variable (result : UInt32 → UInt32) (nout : UInt32)

/-- A token of a 0 bit. -/
def Dull (tok : UInt32) : Prop := bitOf tok ≠ 0xFF ∧ wantsHalt result tok = false

/-- Neither what the core has read nor what it is to read asks for a 1 bit. -/
inductive Unasked (k : Nat) (l : Link) : Prop
  | starting (hp : l.phase = .starting) (hcmd : l.cmd = 0 ∨ Dull result l.cmd)
  | polling (last : UInt32) (hlast : last.toNat / 65536 ≤ k) (hp : l.phase = .polling last)
      (hcmd : l.cmd = last ∨ Dull result l.cmd)
  | holding (tok : UInt32) (htok : tok.toNat / 65536 ≤ k) (hdull : Dull result tok)
      (hp : l.phase = .holding tok) (hcmd : l.cmd = tok ∨ Dull result l.cmd)

/-- The host may write token `k`. The core may have missed any of those before it. -/
structure Calm (k : Nat) (l : Link) : Prop where
  poked : l.poked = false
  nonce : l.cmd.toNat / 65536 ≤ k
  unasked : Unasked result k l

/-- The core is on its way to halt for token `k`, or has halted. -/
inductive Due (k : Nat) (l : Link) : Prop
  | starting (hp : l.phase = .starting) (hg : l.watch.signalled = false)
  | polling (last : UInt32) (hlast : last ≠ tokAt nout k) (hp : l.phase = .polling last)
      (hg : l.watch.signalled = false)
  | holding (tok : UInt32) (htok : tok = tokAt nout k ∨ Dull result tok)
      (hp : l.phase = .holding tok) (hg : l.watch.signalled = false)
  | signalling (hp : l.phase = .signalling (tokAt nout k)) (hg : l.watch.signalled = false)
  | halted (hp : l.phase = .halted (tokAt nout k))

/-- Token `k`, which asks for a 1 bit, is written. -/
structure Sought (k : Nat) (l : Link) : Prop where
  cmd : l.cmd = tokAt nout k
  poked : l.poked = false
  due : Due result nout k l

/-- The host has seen the core halt for token `k`. -/
structure Caught (k : Nat) (l : Link) : Prop where
  cmd : l.cmd = tokAt nout k
  phase : l.phase = .halted (tokAt nout k) ∨ l.phase = .polling (tokAt nout k) ∧ l.poked = false

variable {result nout}

theorem dull_tokAt {k : Nat} (hk : k < 32 * nout.toNat) (hout : nout.toNat ≤ 256)
    (hbit : bitAt result k = false) : Dull result (tokAt nout k) :=
  ⟨bitOf_tokAt_ne hk hout, (wantsHalt_tokAt hk hout).trans hbit⟩

theorem Dull.ne_tokAt {k : Nat} (hk : k < 32 * nout.toNat) (hout : nout.toNat ≤ 256)
    (hbit : bitAt result k = true) {tok : UInt32} (h : Dull result tok) : tok ≠ tokAt nout k := by
  rintro rfl
  have hzero := h.2
  rw [wantsHalt_tokAt hk hout, hbit] at hzero
  cases hzero

/-- The core only notes that a bit is 0. -/
theorem Dull.act {tok : UInt32} (h : Dull result tok) (l : Link) :
    l.act result tok =
      { l with
        phase := .polling tok
        log := l.log ++ [.answer (wordOf tok) (bitOf tok) false] } := by
  rw [Link.act, if_neg h.1, h.2]
  rfl

theorem nonce_tokAt {k : Nat} (hk : k < 32 * nout.toNat) (hout : nout.toNat ≤ 256) :
    (tokAt nout k).toNat / 65536 = k + 1 :=
  cmdAt_nonce (k := k + 1) (by omega) hout

/-! ### What the core's steps keep -/

theorem calm_stable (k : Nat) : Stable (Link.Step result) (Calm result k) := by
  rintro l l' ⟨hpoked, hnonce, hunasked⟩ hstep
  unfold Link.Step Link.next at hstep
  cases hunasked with
  | starting hp hcmd =>
    rw [hp] at hstep
    obtain rfl := Option.some.inj hstep
    exact ⟨hpoked, hnonce, .polling 0 (Nat.zero_le k) rfl hcmd⟩
  | polling last hlast hp hcmd =>
    rw [hp] at hstep
    obtain rfl := Option.some.inj hstep
    refine ⟨hpoked, hnonce, ?_⟩
    by_cases heq : l.cmd = last
    · exact .polling last hlast (if_pos heq) hcmd
    · exact .holding l.cmd hnonce (hcmd.resolve_left heq) (if_neg heq) (.inl rfl)
  | holding tok htok hdull hp hcmd =>
    rw [hp] at hstep
    dsimp only at hstep
    rw [hdull.act] at hstep
    obtain rfl := Option.some.inj hstep
    exact ⟨hpoked, hnonce, .polling tok htok rfl hcmd⟩

theorem sought_stable (hout : nout.toNat ≤ 256) {k : Nat} (hk : k < 32 * nout.toNat)
    (hbit : bitAt result k = true) : Stable (Link.Step result) (Sought result nout k) := by
  rintro l l' ⟨hcmd, hpoked, hdue⟩ hstep
  have hcmd' := hstep.frame.1.trans hcmd
  unfold Link.Step Link.next at hstep
  cases hdue with
  | starting hp hg =>
    rw [hp] at hstep
    obtain rfl := Option.some.inj hstep
    refine ⟨hcmd', hpoked, .polling 0 ?_ rfl hg⟩
    intro h
    have hnonce := nonce_tokAt hk hout
    rw [← h, UInt32.toNat_zero] at hnonce
    omega
  | polling last hlast hp hg =>
    rw [hp] at hstep
    obtain rfl := Option.some.inj hstep
    have hne : l.cmd ≠ last := hcmd ▸ hlast.symm
    exact ⟨hcmd', hpoked, .holding l.cmd (.inl hcmd) (if_neg hne) hg⟩
  | holding tok htok hp hg =>
    rw [hp] at hstep
    dsimp only at hstep
    rcases htok with rfl | hdull
    · rw [act_tokAt hk hout, hbit] at hstep
      obtain rfl := Option.some.inj hstep
      exact ⟨hcmd', hpoked, .signalling rfl hg⟩
    · rw [hdull.act] at hstep
      obtain rfl := Option.some.inj hstep
      exact ⟨hcmd', hpoked, .polling tok (hdull.ne_tokAt hk hout hbit) rfl hg⟩
  | signalling hp hg =>
    rw [hp] at hstep
    obtain rfl := Option.some.inj hstep
    exact ⟨hcmd', hpoked, .halted rfl⟩
  | halted hp =>
    rw [hp] at hstep
    dsimp only at hstep
    rw [hpoked] at hstep
    cases hstep

theorem caught_stable (k : Nat) : Stable (Link.Step result) (Caught nout k) := by
  rintro l l' ⟨hcmd, hphase⟩ hstep
  have hcmd' := hstep.frame.1.trans hcmd
  unfold Link.Step Link.next at hstep
  rcases hphase with hp | ⟨hp, hpoked⟩
  · rw [hp] at hstep
    dsimp only at hstep
    split at hstep
    · cases hstep
      exact ⟨hcmd', .inr ⟨rfl, rfl⟩⟩
    · cases hstep
  · rw [hp] at hstep
    cases hstep
    exact ⟨hcmd', .inr ⟨if_pos hcmd, hpoked⟩⟩

/-! ### What the host's accesses do -/

/-- The host goes on to the next token, without the one before. -/
theorem Calm.skip {k : Nat} {l : Link} (h : Calm result k l) : Calm result (k + 1) l := by
  refine ⟨h.poked, Nat.le_succ_of_le h.nonce, ?_⟩
  cases h.unasked with
  | starting hp hcmd => exact .starting hp hcmd
  | polling last hlast hp hcmd => exact .polling last (Nat.le_succ_of_le hlast) hp hcmd
  | holding tok htok hdull hp hcmd =>
    exact .holding tok (Nat.le_succ_of_le htok) hdull hp hcmd

theorem Calm.ask_zero (hout : nout.toNat ≤ 256) {k : Nat} (hk : k < 32 * nout.toNat)
    (hbit : bitAt result k = false) {l : Link} (h : Calm result k l) :
    Calm result (k + 1) (l.write CMD_WORD.toUInt64 (tokAt nout k)) := by
  have hdull := dull_tokAt hk hout hbit
  have hnext := h.skip
  rw [Link.write_cmd]
  refine ⟨hnext.poked, Nat.le_of_eq (nonce_tokAt hk hout), ?_⟩
  cases hnext.unasked with
  | starting hp hcmd => exact .starting hp (.inr hdull)
  | polling last hlast hp hcmd => exact .polling last hlast hp (.inr hdull)
  | holding tok htok hdull' hp hcmd => exact .holding tok htok hdull' hp (.inr hdull)

theorem Calm.ask_one (hout : nout.toNat ≤ 256) {k : Nat} (hk : k < 32 * nout.toNat) {l : Link}
    (h : Calm result k l) :
    Sought result nout k (l.write CMD_WORD.toUInt64 (tokAt nout k)) ∧
      (l.write CMD_WORD.toUInt64 (tokAt nout k)).watch.polls = 0 := by
  rw [Link.write_cmd]
  refine ⟨⟨rfl, h.poked, ?_⟩, rfl⟩
  cases h.unasked with
  | starting hp hcmd => exact .starting hp rfl
  | polling last hlast hp hcmd =>
    refine .polling last ?_ hp rfl
    rintro rfl
    have hnonce := nonce_tokAt hk hout
    omega
  | holding tok htok hdull hp hcmd => exact .holding tok (.inr hdull) hp rfl

theorem Calm.polled {k : Nat} {l : Link} (h : Calm result k l) : Calm result k l.polled := by
  refine ⟨h.poked, h.nonce, ?_⟩
  cases h.unasked with
  | starting hp hcmd => exact .starting hp hcmd
  | polling last hlast hp hcmd => exact .polling last hlast hp hcmd
  | holding tok htok hdull hp hcmd => exact .holding tok htok hdull hp hcmd

theorem Calm.running {k : Nat} {l : Link} (h : Calm result k l) : l.phase.isHalted = false := by
  cases h.unasked with
  | starting hp _ => rw [hp]; rfl
  | polling _ _ hp _ => rw [hp]; rfl
  | holding _ _ _ hp _ => rw [hp]; rfl

theorem Sought.polled {k : Nat} {l : Link} (h : Sought result nout k l) :
    Sought result nout k l.polled := by
  refine ⟨h.cmd, h.poked, ?_⟩
  cases h.due with
  | starting hp hg => exact .starting hp hg
  | polling last hlast hp hg => exact .polling last hlast hp hg
  | holding tok htok hp hg => exact .holding tok htok hp hg
  | signalling hp hg => exact .signalling hp hg
  | halted hp => exact .halted hp

theorem Sought.caught {k : Nat} {l : Link} (h : Sought result nout k l)
    (hhalted : l.phase.isHalted = true) : Caught nout k l := by
  cases h.due with
  | starting hp _ => rw [hp] at hhalted; cases hhalted
  | polling _ _ hp _ => rw [hp] at hhalted; cases hhalted
  | holding _ _ hp _ => rw [hp] at hhalted; cases hhalted
  | signalling hp _ => rw [hp] at hhalted; cases hhalted
  | halted hp => exact ⟨h.cmd, .inl hp⟩

/-- A core that has halted since the token is halted. -/
theorem Sought.halted {k : Nat} {l : Link} (h : Sought result nout k l)
    (hsignalled : l.watch.signalled = true) : l.phase.isHalted = true := by
  cases h.due with
  | starting _ hg => rw [hg] at hsignalled; cases hsignalled
  | polling _ _ _ hg => rw [hg] at hsignalled; cases hsignalled
  | holding _ _ _ hg => rw [hg] at hsignalled; cases hsignalled
  | signalling _ hg => rw [hg] at hsignalled; cases hsignalled
  | halted hp => rw [hp]; rfl

theorem Caught.polled {k : Nat} {l : Link} (h : Caught nout k l) : Caught nout k l.polled :=
  ⟨h.cmd, h.phase⟩

theorem Caught.poke {k : Nat} {l : Link} (h : Caught nout k l) :
    Caught nout k (l.write PPU_CTRL.toUInt64 CTRL_RESUME) := by
  rw [Link.write_resume]
  refine ⟨h.cmd, ?_⟩
  rcases h.phase with hp | ⟨hp, -⟩
  · exact .inl hp
  · refine .inr ⟨hp, ?_⟩
    dsimp only
    rw [hp]
    rfl

theorem Caught.calm (hout : nout.toNat ≤ 256) {k : Nat} (hk : k < 32 * nout.toNat) {l : Link}
    (h : Caught nout k l) (hrun : l.phase.isHalted = false) : Calm result (k + 1) l := by
  have hnonce := Nat.le_of_eq (nonce_tokAt hk hout)
  rcases h.phase with hp | ⟨hp, hpoked⟩
  · rw [hp] at hrun
    cases hrun
  · exact ⟨hpoked, by rw [h.cmd]; exact hnonce, .polling _ hnonce hp (.inl h.cmd)⟩

end

/-! ## The host's loops -/

section
variable {scratch : UInt32 → UInt32} {nout : UInt32}

/-- The protocol is in a situation of `I`. -/
def On (scratch : UInt32 → UInt32) (I : Link → Prop) (y : Tried) : Prop :=
  ∃ l, Sim scratch l y.board ∧ I l

theorem On.mono {I J : Link → Prop} (h : ∀ l, I l → J l) {y : Tried} (hy : On scratch I y) :
    On scratch J y := by
  obtain ⟨l, hsim, hI⟩ := hy
  exact ⟨l, hsim, h l hI⟩

theorem on_stable {I : Link → Prop} (hI : Stable (Link.Step (resultWord scratch)) I) (w : Awaits) :
    Stable (TriedStep scratch) fun y => On scratch I y ∧ y.awaits = w := by
  rintro y y' ⟨⟨l, hsim, hl⟩, hw⟩ ⟨hstep, hw'⟩
  obtain ⟨l', hsteps, hsim'⟩ := coreStep_sim hsim hstep
  exact ⟨⟨l', hsim', hI.steps hl hsteps⟩, hw'.trans hw⟩

theorem Sim.halted {l : Link} {s : Board} (h : Sim scratch l s) :
    s.halted = l.phase.isHalted := by
  obtain ⟨c, hc, hann, rfl⟩ := h
  rw [Board.halted, hc]
  exact (phaseOf_isHalted hann).symm

theorem Sim.cmd {l : Link} {s : Board} (h : Sim scratch l s) :
    loadWord s.mem CMD_WORD.toNat = l.cmd ∧ s.watch = l.watch := by
  obtain ⟨c, hc, hann, rfl⟩ := h
  exact ⟨rfl, rfl⟩

theorem Sim.polled {l : Link} {s : Board} (h : Sim scratch l s) :
    Sim scratch l.polled s.polled := by
  obtain ⟨c, hc, hann, rfl⟩ := h
  exact ⟨c, hc, hann, rfl⟩

theorem Sim.write {l : Link} {s : Board} (h : Sim scratch l s) {a : UInt64} (v : UInt32)
    (ha : a = CMD_WORD.toUInt64 ∨ a = PPU_CTRL.toUInt64) :
    Sim scratch (l.write a v) (s.write a v) := by
  obtain ⟨c, hc, hann, rfl⟩ := h
  obtain ⟨hc', hlink⟩ := Board.write_link hc hann v ha
  exact ⟨c, hc', hann, hlink.symm⟩

section rules
variable {May : Tried → BusSig.Op → Prop} {X : Abort → Tried → Prop} {I J : Link → Prop}

/-- A poll that fails finds the core running. -/
theorem wp_poll (t : Target) (hI : Stable (Link.Step (resultWord scratch)) I)
    {Q : UInt32 → Tried → Prop} {y : Tried} (hy : On scratch I y)
    (hanswer : ∀ (y' : Tried) l, Sim scratch l y'.board → I l → y'.awaits = y.awaits →
      l.watch.InTime (wantsHalt (resultWord scratch) l.cmd) l.phase.isHalted →
      Q (if l.phase.isHalted then 2 else 0) y'.polled)
    (hlost : ∀ (y' : Tried) l, Sim scratch l y'.board → I l → y'.awaits = y.awaits →
      May y' (.read t.core ⟨PPU_STAT.toUInt64, t.msid⟩) → Q 0 y'.polled) :
    (ppuRunstate t).wp (losingBoard scratch May) Q X y := by
  rw [wp_ppuRunstate]
  intro r y' h
  obtain ⟨y₁, ⟨⟨l, hsim, hl⟩, hw⟩, hE⟩ := interleave_cases (on_stable hI y.awaits) ⟨hy, rfl⟩ h
  simp only [Tried.access, ↓reduceIte] at hE
  obtain ⟨hmay, hv, rfl⟩ := hE
  cases r with
  | none => exact hlost y₁ l hsim hl hw (hmay rfl)
  | some v =>
    obtain ⟨htime, hv⟩ := hv v rfl
    rw [hsim.halted, hsim.cmd.1, hsim.cmd.2] at htime
    rw [hsim.halted] at hv
    rw [Option.getD_some, hv]
    exact hanswer y₁ l hsim hl hw htime

/-- A write on the channel that succeeds, or may be lost. -/
theorem wp_put (t : Target) (hI : Stable (Link.Step (resultWord scratch)) I)
    {Q : Unit → Tried → Prop} {a : UInt64} {v : UInt32}
    (ha : a = CMD_WORD.toUInt64 ∨ a = PPU_CTRL.toUInt64) {y : Tried} (hy : On scratch I y)
    (hdone : ∀ l, I l → J (l.write a v))
    (hlost : ∀ (y' : Tried) l, Sim scratch l y'.board → I l →
      May y' (.write t.core ⟨a, t.msid⟩ v) → J l)
    (hQ : ∀ y' w, On scratch J y' → y'.awaits = Awaits.write w a v → Q () y') :
    (w t a v).wp (losingBoard scratch May) Q X y := by
  rw [wp_w]
  intro r y' h
  obtain ⟨y₁, ⟨⟨l, hsim, hl⟩, -⟩, hmay, rfl⟩ :=
    interleave_cases (on_stable hI y.awaits) ⟨hy, rfl⟩ h
  cases r with
  | true => exact hQ _ y₁.awaits ⟨_, hsim.write v ha, hdone l hl⟩ rfl
  | false => exact hQ _ y₁.awaits ⟨l, hsim, hlost y₁ l hsim hl (hmay rfl)⟩ rfl

/-- For a 0 bit every poll finds the core running, if it is answered or not. -/
theorem waitHalted_zero (t : Target) (k n : Nat) {y : Tried}
    (h : On scratch (Calm (resultWord scratch) k) y) :
    (waitHalted t n).wp (losingBoard scratch May)
      (fun halted y' => halted = false ∧ On scratch (Calm (resultWord scratch) k) y')
      (fun _ _ => False) y := by
  induction n generalizing y with
  | zero => exact ⟨rfl, h⟩
  | succ n ih =>
    rw [waitHalted, wp_bind]
    apply wp_poll t (calm_stable k) h
    · intro y' l hsim hl _ _
      rw [hl.running]
      exact ih ⟨_, hsim.polled, hl.polled⟩
    · intro y' l hsim hl _ _
      exact ih ⟨_, hsim.polled, hl.polled⟩

end rules

variable {t : Target}

/-- One of the polls for a 1 bit finds the core halted: the 20th, if none before. -/
theorem waitHalted_one (hout : nout.toNat ≤ 256) {k : Nat} (hk : k < 32 * nout.toNat)
    (hbit : bitAt (resultWord scratch) k = true) (n m : Nat) (hpos : 0 < n) (hn : m + n = 20)
    {y : Tried}
    (h : On scratch (fun l => Sought (resultWord scratch) nout k l ∧ l.watch.polls = m) y)
    (hw : y.awaits = .answer (tokAt nout k) m) :
    (waitHalted t n).wp (losingBoard scratch (Spared (resultWord scratch)))
      (fun halted y' => halted = true ∧ On scratch (Caught nout k) y') (fun _ _ => False) y := by
  induction n generalizing m y with
  | zero => omega
  | succ n ih =>
    have hpolls : Stable (Link.Step (resultWord scratch)) fun l => l.watch.polls = m := by
      intro l l' h hstep
      rwa [hstep.frame.2.1]
    have hnext : ∀ (y' : Tried) l, Sim scratch l y'.board → Sought (resultWord scratch) nout k l →
        l.watch.polls = m → y'.awaits = y.awaits → 0 < n →
        (waitHalted t n).wp (losingBoard scratch (Spared (resultWord scratch)))
          (fun halted y' => halted = true ∧ On scratch (Caught nout k) y') (fun _ _ => False)
          y'.polled := by
      intro y' l hsim hl hm hw' hpos
      apply ih (m + 1) hpos (by omega) ⟨_, hsim.polled, hl.polled, congrArg (· + 1) hm⟩
      rw [Tried.polled, hw', hw]
      rfl
    have hwants : wantsHalt (resultWord scratch) (tokAt nout k) = true :=
      (wantsHalt_tokAt hk hout).trans hbit
    rw [waitHalted, wp_bind]
    apply wp_poll t ((sought_stable hout hk hbit).and hpolls) h
    · rintro y' l hsim ⟨hl, hm⟩ hw' ⟨htime, -⟩
      cases hhalt : l.phase.isHalted with
      | true => exact ⟨rfl, _, hsim.polled, (hl.caught hhalt).polled⟩
      | false =>
        rcases Nat.eq_zero_or_pos n with rfl | hpos
        · -- the 20th poll is in time
          have hsignalled := (htime (by omega)).2 (by rwa [hl.cmd])
          rw [hl.halted hsignalled] at hhalt
          cases hhalt
        · exact hnext y' l hsim hl hm hw' hpos
    · rintro y' l hsim ⟨hl, hm⟩ hw' hspared
      have hmay := hspared rfl
      rw [hw', hw] at hmay
      have hlast : ¬ 19 ≤ m := fun hge => hmay ⟨hge, hwants⟩
      exact hnext y' l hsim hl hm hw' (by omega)

/-- The core is only left for one that runs again. -/
theorem ppuResumeLoop_spared (hout : nout.toNat ≤ 256) {k : Nat} (hk : k < 32 * nout.toNat)
    (n : Nat) {y : Tried} (h : On scratch (Caught nout k) y) :
    (ppuResumeLoop t n).wp (losingBoard scratch (Spared (resultWord scratch)))
      (fun resumed y' => resumed = true → On scratch (Calm (resultWord scratch) (k + 1)) y')
      (fun _ _ => False) y := by
  induction n generalizing y with
  | zero => exact fun hfalse => Bool.noConfusion hfalse
  | succ n ih =>
    have hrunning : ∀ (y' : Tried) l, Sim scratch l y'.board → Caught nout k l →
        l.phase.isHalted = false →
        On scratch (Calm (resultWord scratch) (k + 1)) y'.polled := by
      intro y' l hsim hl hrun
      exact ⟨_, hsim.polled, (hl.calm hout hk hrun).polled⟩
    rw [ppuResumeLoop, wp_bind]
    apply wp_put t (caught_stable k) (.inr rfl) h (fun l hl => hl.poke) (fun y' l _ hl _ => hl)
    rintro y₁ - h₁ -
    rw [wp_bind]
    apply wp_put t (caught_stable k) (.inr rfl) h₁ (fun l hl => hl) (fun y' l _ hl _ => hl)
    rintro y₂ w h₂ hw
    rw [Awaits.write_ctrl] at hw
    rw [wp_bind]
    apply wp_poll t (caught_stable k) h₂
    · intro y' l hsim hl _ _
      cases hhalt : l.phase.isHalted with
      | true => exact ih ⟨_, hsim.polled, hl.polled⟩
      | false => exact fun _ => hrunning y' l hsim hl hhalt
    · intro y' l hsim hl hw' hspared
      have hmay := hspared rfl
      rw [hw', hw] at hmay
      exact fun _ => hrunning y' l hsim hl (hsim.halted.symm.trans hmay)

/-- The bit is the core's, or a resume gave up. -/
theorem readBit_spared (hout : nout.toNat ≤ 256) {k : Nat} (hk : k < 32 * nout.toNat)
    {word nonce bit : UInt32} (htoken : token nonce word bit = tokAt nout k) (v : UInt32)
    {y : Tried} (h : On scratch (Calm (resultWord scratch) k) y) :
    (readBit t word nonce bit v).wp (losingBoard scratch (Spared (resultWord scratch)))
      (fun x y' => x = none ∨
        x = some (if bitAt (resultWord scratch) k then v ||| (1 <<< bit) else v) ∧
          On scratch (Calm (resultWord scratch) (k + 1)) y')
      (fun _ _ => False) y := by
  rw [readBit, htoken, wp_bind]
  cases hbit : bitAt (resultWord scratch) k with
  | false =>
    apply wp_put t (calm_stable k) (.inl rfl) h (fun l hl => hl.ask_zero hout hk hbit)
      (fun y' l _ hl _ => hl.skip)
    rintro y₁ - h₁ -
    rw [wp_bind]
    apply wp_mono _ ?_ (fun _ _ h => h) (waitHalted_zero t (k + 1) 20 h₁)
    rintro _ y' ⟨rfl, h'⟩
    exact .inr ⟨rfl, h'⟩
  | true =>
    apply wp_put (J := fun l => Sought (resultWord scratch) nout k l ∧ l.watch.polls = 0) t
      (calm_stable k) (.inl rfl) h (fun l hl => hl.ask_one hout hk)
    · -- the token of a 1 bit is not lost
      rintro y' l - hl hspared
      obtain ⟨-, hdone | hzero⟩ := spared_cmd.mp hspared
      · exact absurd hdone (bitOf_tokAt_ne hk hout)
      · rw [wantsHalt_tokAt hk hout, hbit] at hzero
        cases hzero
    · rintro y₁ w h₁ hw
      rw [wp_bind]
      apply wp_mono _ ?_ (fun _ _ h => h)
        (waitHalted_one hout hk hbit 20 0 (by omega) (by omega) h₁ (hw.trans (w.write_cmd _)))
      rintro _ y₂ ⟨rfl, h₂⟩
      simp only [↓reduceIte, wp_bind]
      apply wp_mono _ ?_ (fun _ _ h => h) (ppuResumeLoop_spared hout hk 40 h₂)
      rintro resumed y' hresumed
      cases resumed with
      | false => exact .inl rfl
      | true => exact .inr ⟨rfl, hresumed rfl⟩

theorem readWord_spared (hout : nout.toNat ≤ 256) {word : UInt32} (hword : word < nout) {y : Tried}
    (h : On scratch (Calm (resultWord scratch) (32 * word.toNat)) y) :
    (readWord t word (UInt32.ofNat (32 * word.toNat + 1))).wp
      (losingBoard scratch (Spared (resultWord scratch)))
      (fun x y' => x.1 = none ∨
        x = (some (resultWord scratch word), UInt32.ofNat (32 * (word.toNat + 1) + 1)) ∧
          On scratch (Calm (resultWord scratch) (32 * (word.toNat + 1))) y')
      (fun _ _ => False) y := by
  have hlt := UInt32.lt_iff_toNat_lt.mp hword
  apply wp_readWord _ t word _ (fun bit nonce v y =>
    nonce = UInt32.ofNat (32 * word.toNat + bit + 1) ∧
      v.toNat = (resultWord scratch word).toNat % 2 ^ bit ∧
      On scratch (Calm (resultWord scratch) (32 * word.toNat + bit)) y)
  · rintro bit hbit _ v y ⟨rfl, hv, h⟩
    apply wp_mono _ ?_ (fun _ _ h => h)
      (readBit_spared hout (by omega) (token_index hword hbit) v h)
    rintro _ y (rfl | ⟨rfl, h⟩)
    · exact ⟨by simp, fun _ => .inl rfl⟩
    · refine ⟨?_, by simp⟩
      rintro _ ⟨⟩
      refine ⟨ofNat_succ _, ?_, h⟩
      rw [bitAt_index hbit, toNat_addBit v (resultWord scratch word) bit hbit hv]
  · rintro nonce v y ⟨rfl, hv, h⟩
    refine .inr ⟨?_, h⟩
    congr 2
    apply UInt32.toNat_inj.mp
    rw [hv, Nat.mod_eq_of_lt (resultWord scratch word).toNat_lt]
  · exact ⟨rfl, (Nat.mod_one _).symm, h⟩

theorem readWords_spared (hout : nout.toNat ≤ 256) (outputs : Nat → UInt32) {y : Tried}
    (h : On scratch (Calm (resultWord scratch) 0) y) :
    (readWords t outputs nout).wp (losingBoard scratch (Spared (resultWord scratch)))
      (fun x _ => x.1 = -1 ∨
        x.1 = 0 ∧ ∀ i < nout.toNat, x.2.2 i = resultWord scratch (UInt32.ofNat i))
      (fun _ _ => False) y := by
  apply wp_readWords _ t outputs nout (fun word nonce outputs y =>
    nonce = UInt32.ofNat (32 * word + 1) ∧
      (∀ i < word, outputs i = resultWord scratch (UInt32.ofNat i)) ∧
      On scratch (Calm (resultWord scratch) (32 * word)) y)
  · rintro word hword _ outputs y ⟨rfl, hprev, h⟩
    apply wp_mono _ ?_ (fun _ _ h => h) (readWord_spared hout hword h)
    rintro ⟨x, nonce⟩ y (hnone | ⟨heq, h⟩)
    · exact ⟨fun v hv => absurd (hnone.symm.trans hv) (by simp), fun _ => .inl rfl⟩
    · cases heq
      refine ⟨?_, by simp⟩
      rintro _ ⟨⟩
      refine ⟨rfl, ?_, h⟩
      intro i hi
      dsimp only
      split
      · rename_i heq
        rw [heq, UInt32.ofNat_toNat]
      · exact hprev i (by omega)
  · rintro nonce outputs y ⟨-, hprev, -⟩
    exact .inr ⟨rfl, hprev⟩
  · exact ⟨rfl, fun i hi => absurd hi (Nat.not_lt_zero i), h⟩

/-- Whatever becomes of the done token. -/
theorem streamResults_spared (hout : nout.toNat ≤ 256) (outputs : Nat → UInt32) {y : Tried}
    (h : On scratch (Launched 0) y) :
    (streamResults t outputs nout).wp (losingBoard scratch (Spared (resultWord scratch)))
      (fun x _ => x.1 = 0 → ∀ i < nout.toNat, x.2 i = resultWord scratch (UInt32.ofNat i))
      (fun _ _ => False) y := by
  have hcalm : On scratch (Calm (resultWord scratch) 0) y := by
    refine h.mono fun l hl => ⟨hl.poked, ?_, .starting hl.phase (.inl hl.cmd)⟩
    rw [hl.cmd]
    exact Nat.le_refl 0
  rw [streamResults, wp_bind]
  apply wp_mono _ ?_ (fun _ _ h => h) (readWords_spared hout outputs hcalm)
  rintro ⟨rc, nonce, outputs'⟩ y' hwords
  simp only [wp_bind, wp_w]
  rintro _ _ - hrc
  obtain hfailed | ⟨-, hwords⟩ := hwords
  · exact absurd (hrc.symm.trans hfailed) (by decide)
  · exact hwords

end

/-! ## The setup -/

section
variable {scratch : UInt32 → UInt32} {t : Target}

theorem tried_stable {J : Board → Prop} (hJ : Stable (CoreStep scratch) J) :
    Stable (TriedStep scratch) fun y => J y.board :=
  fun y y' h hstep => hJ y.board y'.board h hstep.1

section
variable {May : Tried → BusSig.Op → Prop} {X : Abort → Tried → Prop} {J K : Board → Prop}

theorem wp_attempt (t : Target) (hJ : Stable (CoreStep scratch) J) {Q : Unit → Tried → Prop}
    {a : UInt64} {v : UInt32} {y : Tried} (hy : J y.board) (hdone : ∀ s, J s → K (s.write a v))
    (hlost : ∀ y', J y'.board → May y' (.write t.core ⟨a, t.msid⟩ v) → K y'.board)
    (hQ : ∀ y', K y'.board → Q () y') : (w t a v).wp (losingBoard scratch May) Q X y := by
  rw [wp_w]
  intro r y' h
  obtain ⟨y₁, hy₁, hmay, rfl⟩ := interleave_cases (tried_stable hJ) hy h
  cases r with
  | true => exact hQ _ (hdone _ hy₁)
  | false => exact hQ _ (hlost y₁ hy₁ (hmay rfl))

theorem waitReset_losing (t : Target) (n : Nat) {c : UInt32} {y : Tried} (h : InReset c y.board) :
    (waitReset t n).wp (losingBoard scratch May) (fun _ y' => InReset c y'.board)
      (fun _ _ => False) y := by
  induction n generalizing y with
  | zero => exact h
  | succ n ih =>
    simp only [waitReset, wp_bind, wp_r]
    intro v y' hv
    obtain ⟨y₁, hy₁, hE⟩ := interleave_cases (tried_stable (inReset_stable c)) h hv
    have hne : ¬ PPU_RST_STAT.toUInt64 = PPU_STAT.toUInt64 := by decide
    simp only [Tried.access, hne, ↓reduceIte] at hE
    obtain ⟨-, -, rfl⟩ := hE
    split
    · exact hy₁
    · exact ih hy₁

/-- The image write reports a failure, and else it leaves the command word at 0. -/
theorem image_write_losing (t : Target) {image : Nat → UInt8} {len : UInt32}
    (hclear : CommandClear image len) {y : Tried} (h : Commanded 0 y.board.mem) :
    (tcmcdWrite t PPU_CODE_BASE.toUInt64 image len).wp (losingBoard scratch May)
      (fun rc y' => rc = 0 → Commanded 0 y'.board.mem) (fun _ _ => False) y := by
  have hl := layout
  have hsize := hclear.size
  have hbase : PPU_CODE_BASE.toUInt64.toNat = PPU_CODE_BASE.toNat := UInt32.toNat_toUInt64 _
  have hr : WordRange PPU_CODE_BASE.toUInt64 len := ⟨by omega⟩
  have hsim : (tcmcdWrite t PPU_CODE_BASE.toUInt64 image len).wp (losingBoard scratch May) _ _ y :=
    (tcmcdWrite_asks t PPU_CODE_BASE.toUInt64 image len hr).sim (E := memory)
    (fun m (y : Tried) => y.board.mem = m) ?_ rfl
    (tcmcdWrite_spec t PPU_CODE_BASE.toUInt64 image len hr y.board.mem)
  · apply wp_mono _ ?_ ?_ hsim
    · rintro rc y' ⟨m', hm', ⟨-, rfl⟩ | ⟨rfl, -⟩⟩ hrc
      · rw [hm', hbase]
        exact h.image hclear
      · exact absurd hrc (by decide)
    · rintro e y' ⟨_, -, hfalse⟩
      exact hfalse
  · rintro m y o v y' htouch rfl ⟨y₁, hsteps, hE⟩
    have hmem : y₁.board.mem = y.board.mem :=
      Stable.steps (I := fun y₁ : Tried => y₁.board.mem = y.board.mem)
        (fun y y' h hstep => hstep.1.mem.trans h) rfl hsteps
    have hhigh := htouch.2
    rw [hbase] at hhigh
    cases o with
    | read c a =>
      change a.address.toNat + 4 ≤ _ at hhigh
      have hlow : a.address < PPU_CLC.toUInt64 := by
        rw [UInt64.lt_iff_toNat_lt, UInt32.toNat_toUInt64,
          show PPU_CLC.toNat = 0xE9800000 from rfl]
        omega
      have hstat : a.address ≠ PPU_STAT.toUInt64 := by
        intro heq
        rw [heq] at hlow
        revert hlow
        decide
      simp only [Tried.access, hstat, ↓reduceIte] at hE
      obtain ⟨-, hv, rfl⟩ := hE
      refine ⟨y.board.mem, ⟨rfl, ?_⟩, hmem⟩
      intro w hw
      rw [hv w hw hlow, hmem]
    | write c a w =>
      obtain ⟨-, rfl⟩ := hE
      cases v with
      | true =>
        refine ⟨_, .inl ⟨rfl, rfl⟩, ?_⟩
        change (y₁.board.write a.address w).mem = _
        rw [Board.write_mem, hmem]
      | false => exact ⟨_, .inr ⟨rfl, rfl⟩, hmem⟩

end

/-- A load that returns 0 has started the core without a command. -/
theorem ppuLoadRun_spared {image : Nat → UInt8} {len : UInt32} (hclear : CommandClear image len)
    {y : Tried} (h : Commanded 0 y.board.mem) :
    (ppuLoadRun t image len).wp (losingBoard scratch (Spared (resultWord scratch)))
      (fun rc y' => rc = 0 → On scratch (Launched 0) y') (fun _ _ => False) y := by
  rw [ppuLoadRun, wp_bind]
  apply wp_attempt (K := fun s => Commanded 0 s.mem) t (commanded_stable 0) h
    (fun s hs => hs.write (by decide) 0) (fun _ h _ => h)
  intro y h
  rw [wp_bind]
  apply wp_mono _ ?_ (fun _ _ h => h) (image_write_losing t hclear h)
  intro rc y himage
  split
  · rintro ⟨⟩
  · rename_i hrc
    have h := himage (not_not.mp hrc)
    rw [wp_bind]
    apply wp_attempt (K := fun s => Commanded 0 s.mem) t (commanded_stable 0) h
      (fun s hs => hs.write (by decide) _) (fun _ h _ => h)
    intro y h
    rw [wp_bind]
    apply wp_attempt (K := fun s => Commanded 0 s.mem) t (commanded_stable 0) h
      (fun s hs => hs.write (by decide) _) (fun _ h _ => h)
    intro y h
    rw [wp_bind]
    apply wp_attempt (K := InReset 0) t (commanded_stable 0) h (fun s hs => hs.reset)
      (fun _ _ hspared => absurd hspared not_spared_reset)
    intro y h
    rw [wp_bind]
    apply wp_mono _ ?_ (fun _ _ h => h) (waitReset_losing t 100000 h)
    intro _ y h
    rw [wp_bind]
    apply wp_attempt (K := InReset 0) t (inReset_stable 0) h (fun s hs => hs.clearStatus)
      (fun _ h _ => h)
    intro y h
    rw [wp_bind]
    apply wp_attempt (K := fun s => ∃ l, Sim scratch l s ∧ Launched 0 l) t (inReset_stable 0) h
      (fun s hs => hs.start) (fun _ h hspared => absurd hspared (not_spared_start h.1))
    exact fun y' h _ => h

/-- Where only accesses of `Spared` fail, a call that returns 0 has the result words. -/
theorem ppuCall_spared {image : Nat → UInt8} {len : UInt32} (hclear : CommandClear image len)
    (inputs : Nat → UInt32) (nin : UInt32) (outputs : Nat → UInt32) {nout : UInt32}
    (hout : nout.toNat ≤ 256) (y : Tried) :
    (ppuCall t image len inputs nin outputs nout).wp
      (losingBoard scratch (Spared (resultWord scratch)))
      (fun x _ => x.1 = 0 → ∀ i < nout.toNat, x.2 i = resultWord scratch (UInt32.ofNat i))
      (fun _ _ => False) y := by
  rw [ppuCall, wp_bind]
  apply wp_mono _ ?_ (fun _ _ h => h)
    ((writeInputs_returns t inputs nin).wp (losingBoard scratch (Spared (resultWord scratch))) y)
  rintro _ y -
  rw [wp_bind]
  apply wp_attempt (J := fun _ => True) (K := fun s => Commanded 0 s.mem) t (fun _ _ _ _ => trivial)
    trivial ?_ (fun _ _ hspared => absurd rfl (spared_cmd.mp hspared).1)
  · intro y h
    rw [wp_bind]
    apply wp_mono _ ?_ (fun _ _ h => h) (ppuLoadRun_spared hclear h)
    intro rc y hrun
    split
    · rintro ⟨⟩
    · rename_i hrc
      exact streamResults_spared hout outputs (hrun (not_not.mp hrc))
  · intro s _
    rw [Board.write_mem, UInt32.toNat_toUInt64]
    exact loadWord_storeWord ..

end

/-! ## The promise -/

/-- A failed access of the image makes the call return -1. Where the image leaves the
command word 0 and only accesses of `Spared` fail, a call that returns 0 has the result
words, and of its promise only the operands and the reset may be missing. -/
theorem ppuCall_promise (scratch : UInt32 → UInt32) (t : Target) (image : Nat → UInt8)
    (len : UInt32) (inputs : Nat → UInt32) (nin : UInt32) (outputs : Nat → UInt32) (nout : UInt32)
    (y y' : Tried) (x : Except Abort (Int × (Nat → UInt32))) (tr : List (Event BusSig))
    (hrun : Runs (recorded (losingBoard scratch fun _ _ => True))
      (ppuCall t image len inputs nin outputs nout) (y, []) x (y', tr)) :
    ∃ rc outputs', x = .ok (rc, outputs') ∧ (rc = 0 ∨ rc = -1) ∧
      ((∃ e ∈ imagePart len nin tr, lost e = true) → rc = -1) ∧
      (CommandClear image len → nout.toNat ≤ 256 →
        Runs (recorded (losingBoard scratch (Spared (resultWord scratch))))
          (ppuCall t image len inputs nin outputs nout) (y, []) x (y', tr) → rc = 0 →
        (∀ w < nout.toNat, outputs' w = resultWord scratch (UInt32.ofNat w)) ∧
        (Promised (resultWord scratch) t image len inputs nin outputs' nout tr ↔
          (∀ e ∈ operandPart nin tr, lost e = false) ∧ ResetSeen (corePart len nin tr))) := by
  obtain ⟨hok, herr⟩ := hrun.trace.sound _ (ppuCall_trace t image len inputs nin outputs nout)
  cases x with
  | error e => exact (herr e rfl).elim
  | ok x =>
    have hwent := hok x rfl
    refine ⟨x.1, x.2, rfl, ?_, ?_, ?_⟩
    · obtain ⟨hrc, -⟩ | ⟨hrc, -⟩ := hwent.result
      · exact .inr hrc
      · exact .inl hrc
    · intro hlost
      obtain ⟨hrc, -⟩ | ⟨-, hnot, -⟩ := hwent.result
      · exact hrc
      · exact absurd (.inl hlost) hnot
    · intro hclear hout hspared hrc
      have hwords := (hspared.forget.sound _ (ppuCall_spared hclear inputs nin outputs hout y)).1
        x rfl hrc
      obtain ⟨hrc', -⟩ | ⟨-, -, hbytes, -⟩ := hwent.result
      · exact absurd (hrc.symm.trans hrc') (by decide)
      · refine ⟨hwords, fun h => ⟨(operands_iff hwent.operands).mp h.inputs, h.reset⟩, ?_⟩
        rintro ⟨hoperands, hreset⟩
        exact ⟨hbytes, (operands_iff hwent.operands).mpr hoperands, hreset, hwords⟩

theorem losingBoard_mono {scratch : UInt32 → UInt32} {May May' : Tried → BusSig.Op → Prop}
    (hmay : ∀ y o, May y o → May' y o) {y y' : Tried} {o : BusSig.Op} {r : BusSig.Res o}
    (h : losingBoard scratch May y o r y') : losingBoard scratch May' y o r y' := by
  obtain ⟨y₁, hsteps, hE⟩ := h
  refine ⟨y₁, hsteps, ?_⟩
  cases o with
  | read c a => exact ⟨fun hr => hmay _ _ (hE.1 hr), hE.2⟩
  | write c a v => exact ⟨fun hr => hmay _ _ (hE.1 hr), hE.2⟩

/-- What happens on the board where nothing fails is a case of it. -/
theorem tried_of_board {scratch : UInt32 → UInt32} (May : Tried → BusSig.Op → Prop) {α : Type}
    {p : Bus α} {s s' : Board} {x : Except Abort α} (h : Runs (board scratch) p s x s')
    (w : Awaits) : ∃ w', Runs (losingBoard scratch May) p ⟨s, w⟩ x ⟨s', w'⟩ := by
  induction h generalizing w with
  | ret a s => exact ⟨w, .ret a _⟩
  | fail e s => exact ⟨w, .fail e _⟩
  | @ask o k s r s₁ x s' hE _ ih =>
    obtain ⟨s₀, hsteps, hE⟩ := hE
    have hsteps' : Relation.ReflTransGen (TriedStep scratch) ⟨s, w⟩ ⟨s₀, w⟩ :=
      hsteps.lift (fun s => (⟨s, w⟩ : Tried)) fun _ _ h => ⟨h, rfl⟩
    cases o with
    | read c a =>
      simp only [Board.access] at hE
      split at hE
      · rename_i ha
        obtain ⟨htime, ⟨v, rfl, hv⟩, rfl⟩ := hE
        obtain ⟨w', hruns⟩ := ih w.polled
        refine ⟨w', .ask ⟨_, hsteps', by simp, ?_⟩ hruns⟩
        rw [if_pos ha]
        refine ⟨fun v' hv' => ?_, rfl⟩
        rw [← Option.some.inj hv']
        exact ⟨htime, hv⟩
      · rename_i ha
        obtain ⟨⟨v, rfl, hv⟩, rfl⟩ := hE
        obtain ⟨w', hruns⟩ := ih w
        refine ⟨w', .ask ⟨_, hsteps', by simp, ?_⟩ hruns⟩
        rw [if_neg ha]
        refine ⟨fun v' hv' => ?_, rfl⟩
        rwa [← Option.some.inj hv']
    | write c a v =>
      obtain ⟨rfl, rfl⟩ := hE
      obtain ⟨w', hruns⟩ := ih (w.write a.address v)
      exact ⟨w', .ask ⟨_, hsteps', by simp, rfl⟩ hruns⟩

/-- One round of a loop that goes on to a second one, which ends it. -/
theorem loop_once {α β : Type} {body : β → Bus (β ⊕ α)} {b : β} (b' : β) {p : Bus Unit} {a : α}
    (hfirst : body b = p >>= fun _ => .ret (.inl b')) (hlast : body b' = .ret (.inr a)) {n : Nat}
    (hn : 2 ≤ n) : Prog.loop .hang body n b = p >>= fun _ => .ret a := by
  obtain ⟨n, rfl⟩ : ∃ m, n = m + 1 + 1 := ⟨n - 2, by omega⟩
  rw [Prog.loop, hfirst, bind_bind]
  refine congrArg _ (funext fun _ => ?_)
  change Prog.loop .hang body (n + 1) b' = .ret a
  rw [Prog.loop, hlast]
  rfl

theorem writeInputs_one (t : Target) (inputs : Nat → UInt32) :
    writeInputs t inputs 1 = (w t INPUT_BASE.toUInt64 (inputs 0) >>= fun _ => .ret ()) :=
  loop_once 1 rfl rfl (by omega)

/-- The host before its first call. -/
def untried : Tried := ⟨⟨fun _ => 0, none, false, .fresh, []⟩, .resume⟩

/-- The write of the only operand may fail, and all else go well. -/
theorem lost_operand_run (scratch : UInt32 → UInt32) (May : Tried → BusSig.Op → Prop)
    (hmay : May untried (.write 0 ⟨INPUT_BASE.toUInt64, 0⟩ 1)) :
    ∃ outputs' y' tr, Runs (recorded (losingBoard scratch May))
      (ppuCall ⟨0, 0⟩ (fun _ => 0) 4 (fun _ => 1) 1 (fun _ => 0) 1) (untried, [])
      (.ok (0, outputs')) (y', operandWrite ⟨0, 0⟩ (fun _ => 1) 0 false :: tr) := by
  have hclear : CommandClear (fun _ => 0) 4 := ⟨by decide, fun _ _ _ _ => rfl⟩
  obtain ⟨x, s', hrun⟩ := ppuCall_can_run scratch ⟨0, 0⟩ hclear (fun _ => 1) 0 (fun _ => 0)
    (by decide : (1 : UInt32).toNat ≤ 256) untried.board
  obtain ⟨hok, herr⟩ := hrun.sound _
    (ppuCall_board ⟨0, 0⟩ hclear (fun _ => 1) 0 (fun _ => 0) (by decide) _)
  cases x with
  | error e => exact (herr e rfl).elim
  | ok x =>
    obtain ⟨outputs', hx, -⟩ := (hok x rfl).returned
    rw [hx] at hrun
    obtain ⟨w', hruns⟩ := tried_of_board May hrun .resume
    obtain ⟨tr, hrec⟩ := hruns.record [operandWrite ⟨0, 0⟩ (fun _ => 1) 0 false]
    obtain ⟨rest, hrest⟩ := hrec.extends
    dsimp only at hrest
    subst hrest
    have hstep : recorded (losingBoard scratch May) (untried, [])
        (.write 0 ⟨INPUT_BASE.toUInt64, 0⟩ 1) false
        (untried, [operandWrite ⟨0, 0⟩ (fun _ => 1) 0 false]) :=
      ⟨⟨untried, .refl, fun _ => hmay, rfl⟩, rfl⟩
    refine ⟨outputs', ⟨s', w'⟩, rest, ?_⟩
    rw [ppuCall, writeInputs_one, bind_bind]
    exact .ask hstep hrec

/-- The operand is lost, and only that is missing of the promise. -/
theorem ppuCall_promise_one :
    ∃ outputs' y' tr, Runs (recorded (losingBoard
        (fun a => if a = RESULT then 0xDEADBEEF else 0) fun _ _ => True))
      (ppuCall ⟨0, 0⟩ (fun _ => 0) 4 (fun _ => 1) 1 (fun _ => 0) 1) (untried, [])
      (.ok (0, outputs')) (y', tr) ∧
      outputs' 0 = 0xDEADBEEF ∧
      ¬ Promised (resultWord fun a => if a = RESULT then 0xDEADBEEF else 0) ⟨0, 0⟩ (fun _ => 0) 4
        (fun _ => 1) 1 outputs' 1 tr := by
  obtain ⟨outputs', y', rest, hspared⟩ :=
    lost_operand_run (fun a => if a = RESULT then 0xDEADBEEF else 0)
      (Spared (resultWord fun a => if a = RESULT then 0xDEADBEEF else 0)) (.inl (by decide))
  have hrun : Runs (recorded (losingBoard (fun a => if a = RESULT then 0xDEADBEEF else 0)
      fun _ _ => True)) _ _ _ _ :=
    hspared.mono fun _ _ _ _ h => ⟨losingBoard_mono (fun _ _ _ => trivial) h.1, h.2⟩
  obtain ⟨rc, outputs, hx, -, -, hkept⟩ := ppuCall_promise _ _ _ _ _ _ _ _ _ _ _ _ hrun
  cases hx
  obtain ⟨hwords, hpromise⟩ := hkept ⟨by decide, fun _ _ _ _ => rfl⟩ (by decide) hspared rfl
  refine ⟨outputs', y', _, hrun, hwords 0 (by decide), fun hpromised => ?_⟩
  have hlost := (hpromise.mp hpromised).1 _ List.mem_cons_self
  cases hlost

/-- The call returns 0 without its operand. -/
theorem lost_operand_missed :
    ¬ ∀ y' outputs' tr, Runs (recorded (losingBoard (fun _ => 0) fun _ _ => True))
      (ppuCall ⟨0, 0⟩ (fun _ => 0) 4 (fun _ => 1) 1 (fun _ => 0) 1) (untried, [])
      (.ok (0, outputs')) (y', tr) →
      Promised (resultWord fun _ => 0) ⟨0, 0⟩ (fun _ => 0) 4 (fun _ => 1) 1 outputs' 1 tr := by
  intro hpromise
  obtain ⟨outputs', y', tr, hrun⟩ :=
    lost_operand_run (fun _ => 0) (fun _ _ => True) trivial
  have hwritten := (hpromise _ _ _ hrun).inputs 0 (by decide)
  cases Option.some.inj hwritten

end OpenTricore.Ppu
