import OpenTricore.PpuStream

/-! Streaming is exact in every run of `ppu_call` on the board whose image leaves the
command word alone, and there are such runs: for all result words and every number of
them, the one in which the core reads and answers each token at once meets the timing
assumptions. An image that leaves a token there is answered before the host asks
(`image_over_command`). -/

namespace OpenTricore.Ppu
open Lib Lib.Prog Lib.Arc

/-! ## A prompt core in the protocol -/

section
variable {result : UInt32 → UInt32} {nout : UInt32} {t : Target}

theorem can_write {Q : Unit → Link → Prop} {a : UInt64} {v : UInt32} {l : Link}
    (h : Q () (l.write a v)) : (w t a v).Can (channel result) Q l :=
  can_ask (r := true) ⟨l, .refl, rfl, rfl⟩ (can_ret h)

/-- The core takes its steps before the poll. -/
theorem can_runstate {Q : UInt32 → Link → Prop} {l l₁ : Link}
    (hsteps : Relation.ReflTransGen (Link.Step result) l l₁)
    (htime : l₁.watch.InTime (wantsHalt result l₁.cmd) l₁.phase.isHalted)
    (h : Q (if l₁.phase.isHalted then 2 else 0) l₁.polled) :
    (ppuRunstate t).Can (channel result) Q l := by
  have hmask : (if l₁.phase.isHalted then 2 else 0 : UInt32) &&& 3 =
      if l₁.phase.isHalted then 2 else 0 := by split <;> rfl
  refine can_ask (r := some (if l₁.phase.isHalted then 2 else 0))
    ⟨l₁, hsteps, htime, ⟨_, rfl, hmask⟩, rfl⟩ (can_ret ?_)
  rwa [hmask]

/-- The core is back at its poll after `k` tokens. -/
structure Idle (nout : UInt32) (k : Nat) (l : Link) : Prop where
  cmd : l.cmd = cmdAt nout k
  poked : l.poked = false
  phase : l.phase = .polling (cmdAt nout k) ∨ k = 0 ∧ l.phase = .starting

/-- The core has read token `k` and answered it. -/
structure Settled (result : UInt32 → UInt32) (nout : UInt32) (k : Nat) (l : Link) : Prop where
  cmd : l.cmd = tokAt nout k
  poked : l.poked = false
  tries : l.watch.tries = 0
  sampled : l.watch.sampled = true
  signalled : l.watch.signalled = bitAt result k
  phase : l.phase = if bitAt result k then .halted (tokAt nout k) else .polling (tokAt nout k)

/-- What the core does on a new token, step by step. -/
theorem settles (hout : nout.toNat ≤ 256) {k : Nat} (hk : k < 32 * nout.toNat) {l : Link}
    (hcmd : l.cmd = tokAt nout k) (hpoked : l.poked = false) (hwatch : l.watch = .fresh)
    (hp : l.phase = .polling (cmdAt nout k)) :
    ∃ l', Relation.ReflTransGen (Link.Step result) l l' ∧ Settled result nout k l' ∧
      l'.watch.polls = 0 := by
  obtain ⟨cmd, phase, poked, watch, log⟩ := l
  dsimp only at hcmd hpoked hwatch hp
  subst hcmd hpoked hwatch hp
  have hfresh : tokAt nout k ≠ cmdAt nout k := tokAt_fresh (by omega) hout
  have hread : Link.Step result
      ⟨tokAt nout k, .polling (cmdAt nout k), false, .fresh, log⟩
      ⟨tokAt nout k, .holding (tokAt nout k), false, ⟨0, 0, true, false⟩, log⟩ := by
    simp [Link.Step, Link.next, hfresh, Watch.fresh]
  have hact : Link.Step result
      ⟨tokAt nout k, .holding (tokAt nout k), false, ⟨0, 0, true, false⟩, log⟩
      (Link.act result
        ⟨tokAt nout k, .holding (tokAt nout k), false, ⟨0, 0, true, false⟩, log⟩
        (tokAt nout k)) := rfl
  rw [act_tokAt hk hout] at hact
  have htwo := (Relation.ReflTransGen.single hread).tail hact
  cases hbit : bitAt result k with
  | false =>
    rw [hbit] at htwo
    exact ⟨_, htwo, ⟨rfl, rfl, rfl, rfl, hbit.symm, by rw [hbit]; rfl⟩, rfl⟩
  | true =>
    rw [hbit] at htwo
    refine ⟨_, htwo.tail rfl, ⟨rfl, rfl, rfl, rfl, hbit.symm, by rw [hbit]; rfl⟩, rfl⟩

theorem Idle.settles (hout : nout.toNat ≤ 256) {k : Nat} (hk : k < 32 * nout.toNat) {l : Link}
    (h : Idle nout k l) :
    ∃ l', Relation.ReflTransGen (Link.Step result)
      (l.write CMD_WORD.toUInt64 (tokAt nout k)) l' ∧ Settled result nout k l' ∧
      l'.watch.polls = 0 := by
  rw [Link.write_cmd]
  rcases h.phase with hp | ⟨rfl, hp⟩
  · exact Ppu.settles hout hk rfl h.poked rfl hp
  · -- the core has not reached its poll yet
    obtain ⟨l', hsteps, hsettled⟩ : ∃ l', Relation.ReflTransGen (Link.Step result)
        ⟨tokAt nout 0, .polling 0, l.poked, .fresh, l.log⟩ l' ∧ Settled result nout 0 l' ∧
        l'.watch.polls = 0 := Ppu.settles hout hk rfl h.poked rfl rfl
    refine ⟨l', .head ?_ hsteps, hsettled⟩
    simp only [Link.Step, Link.next, hp]

theorem Settled.inTime (hout : nout.toNat ≤ 256) {k : Nat} (hk : k < 32 * nout.toNat) {l : Link}
    (h : Settled result nout k l) :
    l.watch.InTime (wantsHalt result l.cmd) l.phase.isHalted := by
  rw [h.cmd, wantsHalt_tokAt hk hout]
  have htries := h.tries
  refine ⟨fun _ => ⟨h.sampled, fun hbit => ?_⟩, fun _ => by omega⟩
  rw [h.signalled, hbit]

theorem Settled.polled {k : Nat} {l : Link} (h : Settled result nout k l) :
    Settled result nout k l.polled :=
  ⟨h.cmd, h.poked, h.tries, h.sampled, h.signalled, h.phase⟩

/-- All the polls for a 0 bit find the core running. -/
theorem can_wait (hout : nout.toNat ≤ 256) {k : Nat} (hk : k < 32 * nout.toNat)
    (hbit : bitAt result k = false) (n : Nat) {l : Link} (h : Settled result nout k l) :
    (waitHalted t n).Can (channel result)
      (fun halted l' => halted = false ∧ Settled result nout k l') l := by
  induction n generalizing l with
  | zero => exact can_ret ⟨rfl, h⟩
  | succ n ih =>
    have hrun : l.phase.isHalted = false := by
      rw [h.phase, hbit]
      rfl
    apply Can.bind (can_runstate .refl (h.inTime hout hk)
      (Q := fun v l' => v = 0 ∧ Settled result nout k l') ⟨by rw [hrun]; rfl, h.polled⟩)
    rintro _ l' ⟨rfl, h'⟩
    exact ih h'

/-- The first try resumes the core. -/
theorem can_resume {k : Nat} (hbit : bitAt result k = true) {l : Link}
    (h : Settled result nout k l) (hpolls : l.watch.polls < 19) :
    (ppuResume t).Can (channel result)
      (fun resumed l' => resumed = true ∧ Idle nout (k + 1) l') l := by
  obtain ⟨cmd, phase, poked, ⟨polls, tries, sampled, signalled⟩, log⟩ := l
  obtain ⟨hcmd, hpoked, htries, hsampled, hsignalled, hphase⟩ := h
  rw [hbit] at hphase hsignalled
  dsimp only at hcmd hpoked htries hsampled hsignalled hphase hpolls
  subst hcmd hpoked htries hsampled hsignalled hphase
  apply Can.bind (can_write (Q := fun _ l' => l' = _) rfl)
  rintro _ _ rfl
  apply Can.bind (can_write (Q := fun _ l' => l' = _) rfl)
  rintro _ _ rfl
  rw [Link.write_resume, Link.write_run]
  have hresume : Link.Step result
      ⟨tokAt nout k, .halted (tokAt nout k), true, ⟨polls, 1, true, true⟩, log⟩
      ⟨tokAt nout k, .polling (tokAt nout k), false, ⟨polls, 1, true, true⟩, log⟩ := rfl
  apply Can.bind (can_runstate (.single hresume) ?_
    (Q := fun v l' => v = 0 ∧ Idle nout (k + 1) l') ⟨rfl, rfl, rfl, .inl rfl⟩)
  · rintro _ l' ⟨rfl, hidle⟩
    exact can_ret ⟨rfl, hidle⟩
  · refine ⟨fun h => ?_, fun _ => rfl⟩
    dsimp only at h
    omega

theorem can_readBit (hout : nout.toNat ≤ 256) {k : Nat} (hk : k < 32 * nout.toNat)
    {word nonce bit : UInt32} (htoken : token nonce word bit = tokAt nout k) (v : UInt32)
    {l : Link} (h : Idle nout k l) :
    (readBit t word nonce bit v).Can (channel result)
      (fun x l' => x = some (if bitAt result k then v ||| (1 <<< bit) else v) ∧
        Idle nout (k + 1) l') l := by
  obtain ⟨l₁, hsteps, hsettled, hpolls⟩ : ∃ l', Relation.ReflTransGen (Link.Step result)
      (l.write CMD_WORD.toUInt64 (tokAt nout k)) l' ∧ Settled result nout k l' ∧
      l'.watch.polls = 0 := h.settles hout hk
  rw [readBit, htoken]
  apply Can.bind (can_write (Q := fun _ l' => l' = _) rfl)
  rintro _ _ rfl
  -- the first poll finds the answer
  have hfirst (n : Nat) : (waitHalted t (n + 1)).Can (channel result)
      (fun halted l' => halted = bitAt result k ∧ Settled result nout k l' ∧
        (halted = true → l'.watch.polls < 19)) (l.write CMD_WORD.toUInt64 (tokAt nout k)) := by
    apply Can.bind (can_runstate hsteps (hsettled.inTime hout hk)
      (Q := fun v l' => v = (if bitAt result k then 2 else 0) ∧ l' = l₁.polled) ⟨?_, rfl⟩)
    · rintro _ _ ⟨rfl, rfl⟩
      cases hbit : bitAt result k with
      | true =>
        refine can_ret ⟨rfl, hsettled.polled, fun _ => ?_⟩
        simp only [Link.polled]
        omega
      | false =>
        obtain ⟨a, l', hrun, rfl, hl'⟩ := can_wait (t := t) hout hk hbit n hsettled.polled
        exact ⟨false, l', hrun, rfl, hl', fun h => by cases h⟩
    · rw [hsettled.phase]
      cases bitAt result k <;> rfl
  apply Can.bind (hfirst 19)
  rintro halted l₂ ⟨rfl, hsettled₂, hpolls₂⟩
  cases hbit : bitAt result k with
  | false =>
    refine can_ret ⟨rfl, hsettled₂.cmd, hsettled₂.poked, .inl ?_⟩
    rw [hsettled₂.phase, hbit]
    rfl
  | true =>
    apply Can.bind (can_resume hbit hsettled₂ (hpolls₂ hbit))
    rintro _ l₃ ⟨rfl, hidle⟩
    exact can_ret ⟨rfl, hidle⟩

theorem can_readWord (hout : nout.toNat ≤ 256) {word : UInt32} (hword : word < nout) {l : Link}
    (h : Idle nout (32 * word.toNat) l) :
    (readWord t word (UInt32.ofNat (32 * word.toNat + 1))).Can (channel result)
      (fun x l' => (∃ v, x = (some v, UInt32.ofNat (32 * (word.toNat + 1) + 1))) ∧
        Idle nout (32 * (word.toNat + 1)) l') l := by
  have hword' := UInt32.lt_iff_toNat_lt.mp hword
  apply can_loop
    (fun x l => x.1.toNat ≤ 32 ∧
      x.2.1 = UInt32.ofNat (32 * word.toNat + x.1.toNat + 1) ∧
      Idle nout (32 * word.toNat + x.1.toNat) l)
    (fun b => 32 - b.1.toNat)
  · rintro ⟨bit, nonce, v⟩ l ⟨hle, hnonce, h⟩
    dsimp only at hle hnonce h ⊢
    subst hnonce
    split
    · rename_i hbit
      have hnext := toNat_next hbit
      have hbit' : bit.toNat < 32 := UInt32.lt_iff_toNat_lt.mp hbit
      apply Can.bind (can_readBit hout (by omega) (token_index hword hbit') v h)
      rintro _ l' ⟨rfl, hidle⟩
      apply can_ret
      dsimp only
      refine ⟨⟨by omega, ?_, by rwa [hnext]⟩, by omega⟩
      rw [ofNat_succ, hnext]
      congr 1
    · rename_i hbit
      have hge : ¬ bit.toNat < 32 := fun h => hbit (UInt32.lt_iff_toNat_lt.mpr h)
      have hbit' : bit.toNat = 32 := by omega
      rw [hbit'] at h ⊢
      exact can_ret ⟨⟨v, rfl⟩, h⟩
  · exact ⟨Nat.zero_le _, rfl, h⟩
  · exact Nat.lt_succ_self 32

theorem can_streamResults (hout : nout.toNat ≤ 256) (outputs : Nat → UInt32) {l : Link}
    (h : Idle nout 0 l) :
    (streamResults t outputs nout).Can (channel result) (fun _ _ => True) l := by
  have hwords : (readWords t outputs nout).Can (channel result) (fun _ _ => True) l := by
    apply can_loop
      (fun x l => x.1.toNat ≤ nout.toNat ∧
        x.2.1 = UInt32.ofNat (32 * x.1.toNat + 1) ∧ Idle nout (32 * x.1.toNat) l)
      (fun b => nout.toNat - b.1.toNat)
    · rintro ⟨word, nonce, outputs⟩ l ⟨hle, hnonce, h⟩
      dsimp only at hle hnonce h ⊢
      subst hnonce
      split
      · rename_i hword
        have hnext := toNat_next hword
        have hlt := UInt32.lt_iff_toNat_lt.mp hword
        apply Can.bind (can_readWord hout hword h)
        rintro _ l' ⟨⟨v, rfl⟩, hidle⟩
        apply can_ret
        dsimp only
        exact ⟨⟨by omega, by rw [hnext], by rwa [hnext]⟩, by omega⟩
      · exact can_ret trivial
    · exact ⟨Nat.zero_le _, rfl, h⟩
    · have := nout.toNat_lt
      dsimp only
      omega
  apply hwords.bind
  rintro ⟨rc, nonce, outputs'⟩ l' -
  apply Can.bind (can_write (Q := fun _ _ => True) trivial)
  intro _ _ _
  exact can_ret trivial

/-! ## A command that was not sent -/

/-- Little is asked of the core by the first polls. -/
theorem Watch.early {w : Watch} (hpolls : w.polls < 19) (htries : w.tries < 40)
    (wants halted : Bool) : w.InTime wants halted :=
  ⟨fun h => absurd h (Nat.not_le_of_lt hpolls), fun h => absurd h (Nat.not_le_of_lt htries)⟩

/-- The core halts for the command it finds, and does nothing else before the first token. -/
theorem halts_launched {c : UInt32} (hc : c ≠ 0) (hbit : bitOf c ≠ 0xFF)
    (hwants : wantsHalt result c = true) {l : Link} (h : Launched c l) :
    ∃ watch, Relation.ReflTransGen (Link.Step result) l
      ⟨c, .halted c, false, watch, [.answer (wordOf c) (bitOf c) true]⟩ := by
  obtain ⟨cmd, phase, poked, watch, log⟩ := l
  obtain ⟨hcmd, hpoked, hphase, hlog⟩ := h
  dsimp only at hcmd hpoked hphase hlog
  subst hcmd hpoked hphase hlog
  refine ⟨⟨watch.polls, watch.tries, true, true⟩, ?_⟩
  have hstart : Link.Step result ⟨cmd, .starting, false, watch, []⟩
      ⟨cmd, .polling 0, false, watch, []⟩ := rfl
  have hread : Link.Step result ⟨cmd, .polling 0, false, watch, []⟩
      ⟨cmd, .holding cmd, false, { watch with sampled := true }, []⟩ := by
    simp [Link.Step, Link.next, hc]
  have hact : Link.Step result ⟨cmd, .holding cmd, false, { watch with sampled := true }, []⟩
      ⟨cmd, .signalling cmd, false, { watch with sampled := true },
        [.answer (wordOf cmd) (bitOf cmd) true]⟩ := by
    simp [Link.Step, Link.next, Link.act, hbit, hwants]
  exact .head hstart (.head hread (.head hact (.single rfl)))

/-- The first poll for a 0 bit finds the core halted for that command. It is resumed, and
then answers the token. -/
theorem can_readBit_launched (hout : nout.toNat ≤ 256) (hpos : 0 < nout.toNat) {c : UInt32}
    (hc : c ≠ 0) (hbit : bitOf c ≠ 0xFF) (hwants : wantsHalt result c = true)
    (hfresh : tokAt nout 0 ≠ c) (hzero : bitAt result 0 = false) {l : Link} (h : Launched c l) :
    (readBit t 0 1 0 0).Can (channel result) (fun x l' => x = some 1 ∧ Idle nout 1 l') l := by
  obtain ⟨watch, hsteps⟩ := halts_launched hc hbit hwants h
  have hk : 0 < 32 * nout.toNat := by omega
  have htoken : token 1 0 0 = tokAt nout 0 := (tokAt_data hk).symm
  rw [readBit, htoken]
  apply Can.bind (can_ask (r := true) ⟨_, hsteps, rfl, rfl⟩ (can_ret (Q := fun _ l' => l' = _) rfl))
  rintro _ _ rfl
  rw [Link.write_cmd]
  -- the first poll
  have hpoll : (waitHalted t 20).Can (channel result) (fun halted l' => halted = true ∧
      l' = ⟨tokAt nout 0, .halted c, false, ⟨1, 0, false, false⟩,
        [.answer (wordOf c) (bitOf c) true]⟩)
      ⟨tokAt nout 0, .halted c, false, .fresh, [.answer (wordOf c) (bitOf c) true]⟩ := by
    apply Can.bind (can_runstate .refl (Watch.early (w := .fresh) (by decide) (by decide) _ _)
      (Q := fun v l' => v = 2 ∧ l' = _) ⟨rfl, rfl⟩)
    rintro _ _ ⟨rfl, rfl⟩
    exact can_ret ⟨rfl, rfl⟩
  apply hpoll.bind
  rintro _ _ ⟨rfl, rfl⟩
  -- the first poke
  have hresume : (ppuResume t).Can (channel result)
      (fun resumed l' => resumed = true ∧ Idle nout 1 l')
      ⟨tokAt nout 0, .halted c, false, ⟨1, 0, false, false⟩,
        [.answer (wordOf c) (bitOf c) true]⟩ := by
    apply Can.bind (can_write (Q := fun _ l' => l' = _) rfl)
    rintro _ _ rfl
    apply Can.bind (can_write (Q := fun _ l' => l' = _) rfl)
    rintro _ _ rfl
    rw [Link.write_resume, Link.write_run]
    have hpoked : Link.Step result
        ⟨tokAt nout 0, .halted c, true, ⟨1, 1, false, false⟩,
          [.answer (wordOf c) (bitOf c) true]⟩
        ⟨tokAt nout 0, .polling c, false, ⟨1, 1, false, false⟩,
          [.answer (wordOf c) (bitOf c) true]⟩ := rfl
    have hread : Link.Step result
        ⟨tokAt nout 0, .polling c, false, ⟨1, 1, false, false⟩,
          [.answer (wordOf c) (bitOf c) true]⟩
        ⟨tokAt nout 0, .holding (tokAt nout 0), false, ⟨1, 1, true, false⟩,
          [.answer (wordOf c) (bitOf c) true]⟩ := by
      simp [Link.Step, Link.next, hfresh]
    have hact : Link.Step result
        ⟨tokAt nout 0, .holding (tokAt nout 0), false, ⟨1, 1, true, false⟩,
          [.answer (wordOf c) (bitOf c) true]⟩
        (Link.act result ⟨tokAt nout 0, .holding (tokAt nout 0), false, ⟨1, 1, true, false⟩,
          [.answer (wordOf c) (bitOf c) true]⟩ (tokAt nout 0)) := rfl
    rw [act_tokAt hk hout, hzero] at hact
    apply Can.bind (can_runstate (.head hpoked (.head hread (.single hact)))
      (Watch.early (w := ⟨1, 1, true, false⟩) (by decide) (by decide) _ _)
      (Q := fun v l' => v = 0 ∧ Idle nout 1 l') ⟨rfl, rfl, rfl, .inl rfl⟩)
    rintro _ l' ⟨rfl, hidle⟩
    exact can_ret ⟨rfl, hidle⟩
  apply hresume.bind
  rintro _ l' ⟨rfl, hidle⟩
  exact can_ret ⟨rfl, hidle⟩

/-- The word 0 is read as 1. -/
theorem can_readWord_launched {c : UInt32} (hc : c ≠ 0) (hbit : bitOf c ≠ 0xFF)
    (hwants : wantsHalt result c = true) (hfresh : tokAt 1 0 ≠ c)
    (hzero : ∀ k < 32, bitAt result k = false) {l : Link} (h : Launched c l) :
    (readWord t 0 1).Can (channel result) (fun x _ => x.1 = some 1) l := by
  apply can_loop (fun (x : UInt32 × UInt32 × UInt32) l => x = (0, 1, 0) ∧ Launched c l ∨
      x.1.toNat ≤ 32 ∧ x.2.1 = UInt32.ofNat (x.1.toNat + 1) ∧ x.2.2 = 1 ∧ Idle 1 x.1.toNat l)
    (fun b => 32 - b.1.toNat)
  · rintro ⟨bit, nonce, v⟩ l (⟨heq, h⟩ | ⟨hle, hnonce, hv, h⟩)
    · cases heq
      dsimp only
      rw [if_pos (by decide)]
      apply Can.bind (can_readBit_launched (by decide) (by decide) hc hbit hwants hfresh
        (hzero 0 (by decide)) h)
      rintro _ l' ⟨rfl, hidle⟩
      exact can_ret ⟨.inr ⟨by decide, rfl, rfl, hidle⟩, by decide⟩
    · dsimp only at hle hnonce hv h ⊢
      subst hnonce hv
      split
      · rename_i hlt
        have hnext := toNat_next hlt
        have hlt' : bit.toNat < 32 := UInt32.lt_iff_toNat_lt.mp hlt
        have htoken : token (UInt32.ofNat (bit.toNat + 1)) 0 bit = tokAt 1 bit.toNat := by
          have hindex := token_index (show (0 : UInt32) < 1 by decide) hlt'
          rwa [show 32 * (0 : UInt32).toNat = 0 from rfl, Nat.zero_add] at hindex
        have hone : bit.toNat < 32 * (1 : UInt32).toNat := hlt'
        apply Can.bind (can_readBit (by decide) hone htoken 1 h)
        rintro _ l' ⟨rfl, hidle⟩
        rw [hzero _ hlt']
        refine can_ret ⟨.inr ⟨?_, ?_, rfl, by rwa [hnext]⟩, ?_⟩
        · dsimp only
          omega
        · dsimp only
          rw [ofNat_succ, hnext]
        · dsimp only
          omega
      · exact can_ret rfl
  · exact .inl ⟨rfl, h⟩
  · exact Nat.lt_succ_self 32

theorem can_streamResults_launched {c : UInt32} (hc : c ≠ 0) (hbit : bitOf c ≠ 0xFF)
    (hwants : wantsHalt result c = true) (hfresh : tokAt 1 0 ≠ c)
    (hzero : ∀ k < 32, bitAt result k = false) (outputs : Nat → UInt32) {l : Link}
    (h : Launched c l) :
    (streamResults t outputs 1).Can (channel result) (fun x _ => x.1 = 0 ∧ x.2 0 = 1) l := by
  have hwords : (readWords t outputs 1).Can (channel result)
      (fun x _ => x.1 = 0 ∧ x.2.2 0 = 1) l := by
    apply can_loop (fun (x : UInt32 × UInt32 × (Nat → UInt32)) l =>
        x.1 = 0 ∧ x.2.1 = 1 ∧ Launched c l ∨ x.1 = 1 ∧ x.2.2 0 = 1) (fun b => 1 - b.1.toNat)
    · rintro ⟨word, nonce, outputs⟩ l (⟨hword, hnonce, h⟩ | ⟨hword, houtput⟩)
      · dsimp only at hword hnonce
        subst hword hnonce
        dsimp only
        rw [if_pos (by decide)]
        apply Can.bind (can_readWord_launched hc hbit hwants hfresh hzero h)
        rintro ⟨_, nonce⟩ l' rfl
        exact can_ret ⟨.inr ⟨rfl, rfl⟩, Nat.zero_lt_one⟩
      · dsimp only at hword
        subst hword
        dsimp only
        rw [if_neg (by decide)]
        exact can_ret ⟨rfl, houtput⟩
    · exact .inl ⟨rfl, rfl, h⟩
    · exact show 1 < 2 ^ 32 by decide
  apply hwords.bind
  rintro ⟨rc, nonce, outputs'⟩ l' ⟨hrc, houtput⟩
  apply Can.bind (can_write (Q := fun _ _ => True) trivial)
  intro _ _ _
  exact can_ret ⟨hrc, houtput⟩

end

/-! ## The board follows the protocol -/

section
variable {scratch : UInt32 → UInt32}

/-- The core comes to every event that the protocol has for it. -/
theorem step_board {l l' : Link} {s : Board} (h : Sim scratch l s)
    (hstep : Link.Step (resultWord scratch) l l') :
    ∃ s', Relation.ReflTransGen (CoreStep scratch) s s' ∧ Sim scratch l' s' := by
  obtain ⟨c, hc, hann, hl⟩ := h
  induction hn : rank c using Nat.strongRecOn generalizing c s with
  | ind n ih =>
    rw [hl] at hstep
    cases hhalted : c.halted with
    | true =>
      have hpoked := poked_of_step hann hhalted hstep
      obtain ⟨hann', hevent⟩ := resume_event hann hhalted hpoked
      have hsame := Option.some.inj (hstep.symm.trans hevent)
      exact ⟨_, .single (.resume hc hhalted hpoked), _, rfl, hann', hsame⟩
    | false =>
      have hpc : c.pc < rtInc.length := annotated_pc hann
      obtain ⟨c', hc'⟩ := exists_step (view scratch s.mem) hhalted hpc
      have hann' := annotated_run hann hc'
      rcases run_advances hann hc' with hevent | ⟨hquiet, hrank⟩
      · have hsame := Option.some.inj (hstep.symm.trans hevent)
        exact ⟨_, .single (.run hc hc'), _, rfl, hann', hsame⟩
      · obtain ⟨s', hsteps, hsim⟩ :=
          ih (rank c') (by omega) c' (s := s.ran c c') rfl hann' (hl.trans hquiet.symm) rfl
        exact ⟨s', .head (.run hc hc') hsteps, hsim⟩

theorem access_board {l l' : Link} {s : Board} {o : BusSig.Op} {r : BusSig.Res o} (ho : Channel o)
    (h : Sim scratch l s) (hE : Link.access (resultWord scratch) l o r l') :
    ∃ s', Board.access scratch s o r s' ∧ Sim scratch l' s' := by
  obtain ⟨c, hc, hann, rfl⟩ := h
  cases o with
  | read core a =>
    have hstat : a.address = PPU_STAT.toUInt64 := ho
    have hhalted : (s.link c).phase.isHalted = s.halted := by
      rw [Board.halted, hc]
      exact phaseOf_isHalted hann
    simp only [Link.access, hstat, ↓reduceIte, hhalted] at hE
    obtain ⟨htime, hv, rfl⟩ := hE
    refine ⟨s.polled, ?_, c, hc, hann, rfl⟩
    simp only [Board.access, hstat, ↓reduceIte]
    exact ⟨htime, hv, trivial⟩
  | write core a v =>
    obtain ⟨rfl, rfl⟩ := hE
    obtain ⟨hc', hlink⟩ := Board.write_link hc hann v ho
    exact ⟨_, ⟨rfl, rfl⟩, c, hc', hann, hlink.symm⟩

/-! ## Up to the start -/

/-- The run state is not read before the core is started. -/
def Loads : BusSig.Op → Prop
  | .read _ a => a.address ≠ PPU_STAT.toUInt64
  | .write .. => True

theorem board_answers (s : Board) (o : BusSig.Op) (ho : Loads o) :
    ∃ r s', board scratch s o r s' := by
  cases o with
  | read c a =>
    refine ⟨some (loadWord s.mem a.address.toNat), s, s, .refl, ?_⟩
    have hne : ¬ a.address = PPU_STAT.toUInt64 := ho
    simp only [Board.access, hne, ↓reduceIte]
    exact ⟨⟨_, rfl, fun _ => rfl⟩, trivial⟩
  | write c a v => exact ⟨true, _, s, .refl, rfl, rfl⟩

theorem writeInputs_asks (t : Target) (inputs : Nat → UInt32) (nin : UInt32) :
    (writeInputs t inputs nin).Asks Loads fun _ => True := by
  apply asks_loop (fun _ => True) _ _ _ _ _ trivial
  intro i _
  split
  · simp only [asks_bind, asks_w]
    exact ⟨trivial, trivial⟩
  · trivial

theorem waitReset_asks (t : Target) (n : Nat) : (waitReset t n).Asks Loads fun _ => True := by
  induction n with
  | zero => trivial
  | succ n ih =>
    have hne : PPU_RST_STAT.toUInt64 ≠ PPU_STAT.toUInt64 := by decide
    simp only [waitReset, asks_bind, asks_r]
    refine ⟨hne, fun v => ?_⟩
    split
    · trivial
    · exact ih

theorem ppuLoadRun_asks (t : Target) (image : Nat → UInt8) (len : UInt32)
    (hlen : len.toNat ≤ 64 * 1024) : (ppuLoadRun t image len).Asks Loads fun _ => True := by
  have hl := layout
  have hbase : PPU_CODE_BASE.toUInt64.toNat = PPU_CODE_BASE.toNat := UInt32.toNat_toUInt64 _
  have hr : WordRange PPU_CODE_BASE.toUInt64 len := ⟨by omega⟩
  simp only [ppuLoadRun, asks_bind, asks_w]
  refine ⟨trivial, ((tcmcdWrite_asks t _ image len hr).widen ?_).mono fun rc _ => ?_⟩
  · rintro (⟨c, a⟩ | ⟨c, a, v⟩) htouch
    · have hhigh := htouch.2
      rw [hbase] at hhigh
      change a.address.toNat + 4 ≤ _ at hhigh
      intro heq
      rw [heq, UInt32.toNat_toUInt64, show PPU_STAT.toNat = 0xE9800064 from rfl] at hhigh
      omega
    · trivial
  · split
    · trivial
    · simp only [asks_bind, asks_w]
      refine ⟨trivial, trivial, trivial, (waitReset_asks t 100000).mono fun _ _ => ?_⟩
      exact ⟨trivial, trivial, trivial⟩

/-! ## A run -/

/-- A run of the streaming in the protocol is one on the board. -/
theorem can_streamResults_board {nout : UInt32} (t : Target) (outputs : Nat → UInt32)
    {Q : Int × (Nat → UInt32) → Prop} {l : Link} {s : Board} (hsim : Sim scratch l s)
    (hcan : (streamResults t outputs nout).Can (channel (resultWord scratch)) (fun x _ => Q x) l) :
    (streamResults t outputs nout).Can (board scratch) (fun x _ => Q x) s := by
  have hmatch : ∀ (l : Link) (s : Board) (o : BusSig.Op) (r : BusSig.Res o) (l' : Link),
      Channel o → Sim scratch l s → channel (resultWord scratch) l o r l' →
      ∃ s', board scratch s o r s' ∧ Sim scratch l' s' := by
    have hask : ∀ (s : Board) (l : Link) (o : BusSig.Op) (r : BusSig.Res o) (l' : Link),
        Channel o → Sim scratch l s → Link.access (resultWord scratch) l o r l' →
        ∃ s', Board.access scratch s o r s' ∧ Sim scratch l' s' := by
      intro s l o r l' ho h hE
      exact access_board ho h hE
    intro l s o r l' ho h hE
    exact interleave_sim (fun s l => Sim scratch l s) (fun _ _ _ h hstep => step_board h hstep)
      hask s l o r l' ho h hE
  obtain ⟨x, s', hrun, -, -, hQ⟩ :=
    (streamResults_asks t outputs nout).can_sim (Sim scratch) hmatch hsim hcan
  exact ⟨x, s', hrun, hQ⟩

/-- A run of the streaming makes a run of the call. `c` is what the image leaves in the
command word. -/
theorem can_ppuCall (t : Target) {image : Nat → UInt8} {len : UInt32}
    (hlen : len.toNat ≤ 64 * 1024) {c : UInt32}
    (himage : ∀ m, Commanded 0 m →
      Commanded c (storeRange m PPU_CODE_BASE.toNat len.toNat image))
    (inputs : Nat → UInt32) (nin : UInt32) (outputs : Nat → UInt32) {nout : UInt32}
    {Q : Int × (Nat → UInt32) → Prop}
    (hstream : ∀ l, Launched c l →
      (streamResults t outputs nout).Can (channel (resultWord scratch)) (fun x _ => Q x) l)
    (s : Board) :
    (ppuCall t image len inputs nin outputs nout).Can (board scratch) (fun x _ => Q x) s := by
  apply ((writeInputs_asks t inputs nin).can board_answers
    ((writeInputs_returns t inputs nin).wp (board scratch) s)).bind
  rintro _ s -
  apply Can.bind (R := fun _ s => Commanded 0 s.mem)
    (can_ask (r := true) ⟨s, .refl, rfl, rfl⟩ (can_ret ?_))
  · rintro _ s hmem
    apply ((ppuLoadRun_asks t image len hlen).can board_answers
      (ppuLoadRun_board t hlen himage hmem)).bind
    rintro _ s ⟨rfl, l, hsim, hlaunched⟩
    exact can_streamResults_board t outputs hsim (hstream l hlaunched)
  · rw [Board.write_mem, UInt32.toNat_toUInt64]
    exact loadWord_storeWord ..

/-- For all result words, the call has a run that meets every assumption. -/
theorem ppuCall_can_run (scratch : UInt32 → UInt32) (t : Target) {image : Nat → UInt8}
    {len : UInt32} (hclear : CommandClear image len) (inputs : Nat → UInt32) (nin : UInt32)
    (outputs : Nat → UInt32) {nout : UInt32} (hout : nout.toNat ≤ 256) (s : Board) :
    ∃ x s', Runs (board scratch) (ppuCall t image len inputs nin outputs nout) s x s' := by
  have hcan : (ppuCall t image len inputs nin outputs nout).Can (board scratch)
      (fun _ _ => True) s := by
    refine can_ppuCall t hclear.size (fun m hm => hm.image hclear) inputs nin outputs ?_ s
    intro l hlaunched
    exact can_streamResults hout outputs
      ⟨hlaunched.cmd, hlaunched.poked, .inr ⟨rfl, hlaunched.phase⟩⟩
  obtain ⟨a, s', hrun, -⟩ := hcan
  exact ⟨_, s', hrun⟩

/-! ## Streaming is exact -/

/-- Streaming is exact, in every order of the host's and the core's steps, if the image
leaves no command. -/
theorem streaming_exact (scratch : UInt32 → UInt32) (t : Target) (image : Nat → UInt8)
    (len : UInt32) (inputs : Nat → UInt32) (nin : UInt32) (outputs : Nat → UInt32)
    (nout : UInt32) (hclear : CommandClear image len) (hout : 1 ≤ nout.toNat ∧ nout.toNat ≤ 256)
    (s : Board) (x : Except Abort (Int × (Nat → UInt32))) (s' : Board)
    (hrun : Runs (board scratch) (ppuCall t image len inputs nin outputs nout) s x s') :
    Streamed scratch nout x s' := by
  obtain ⟨hok, herr⟩ := hrun.sound _ (ppuCall_board t hclear inputs nin outputs hout.2 s)
  cases x with
  | ok x => exact hok x rfl
  | error e => exact (herr e rfl).elim

/-- One result word of `0xDEADBEEF`, from an empty image. -/
theorem streaming_exact_one :
    ∃ x s', Runs (board fun a => if a = RESULT then 0xDEADBEEF else 0)
      (ppuCall ⟨0, 0⟩ (fun _ => 0) 4 (fun _ => 0) 0 (fun _ => 0) 1)
      ⟨fun _ => 0, none, false, .fresh, []⟩ x s' ∧
      Streamed (fun a => if a = RESULT then 0xDEADBEEF else 0) 1 x s' := by
  have hclear : CommandClear (fun _ => 0) 4 := ⟨by decide, fun _ _ _ _ => rfl⟩
  obtain ⟨x, s', hrun⟩ := ppuCall_can_run (fun a => if a = RESULT then 0xDEADBEEF else 0) ⟨0, 0⟩
    hclear (fun _ => 0) 0 (fun _ => 0) (by decide : (1 : UInt32).toNat ≤ 256)
    ⟨fun _ => 0, none, false, .fresh, []⟩
  refine ⟨x, s', hrun, ?_⟩
  exact streaming_exact _ _ _ _ _ _ _ _ hclear (by decide) _ _ _ hrun

/-- An image over the command word, where it has a 1 in the second byte. -/
def overCommand (i : Nat) : UInt8 := if i = 0x301 then 1 else 0

/-- The result words 0, 1, 0, 0 and so on. -/
def secondOne (a : UInt32) : UInt32 := if a = RESULT + 4 then 1 else 0

/-- The core halts for the bit that the image asks for, and the host takes it for the
first bit of its own. -/
theorem image_over_command : ∃ outputs s',
    Runs (board secondOne) (ppuCall ⟨0, 0⟩ overCommand 0x304 (fun _ => 0) 0 (fun _ => 0) 1)
      ⟨fun _ => 0, none, false, .fresh, []⟩ (.ok (0, outputs)) s' ∧
    outputs 0 = 1 ∧ resultWord secondOne 0 = 0 ∧ ¬ Streamed secondOne 1 (.ok (0, outputs)) s' := by
  have himage : ∀ m, Commanded 0 m →
      Commanded 0x100 (storeRange m PPU_CODE_BASE.toNat (0x304 : UInt32).toNat overCommand) := by
    intro m _
    apply word_ext
    intro b hb
    rw [byteOf_loadWord _ _ _ hb, storeRange_apply, show PPU_CODE_BASE.toNat = 0xB0000000 from rfl,
      show CMD_WORD.toNat = 0xB0000300 from rfl, show (0x304 : UInt32).toNat = 0x304 from rfl,
      if_pos (by omega)]
    have hb' : b = 0 ∨ b = 1 ∨ b = 2 ∨ b = 3 := by omega
    rcases hb' with rfl | rfl | rfl | rfl <;> rfl
  have hzero : ∀ k < 32, bitAt (resultWord secondOne) k = false := by
    intro k hk
    rw [bitAt, Nat.div_eq_of_lt hk, show resultWord secondOne (UInt32.ofNat 0) = 0 by decide]
    exact Nat.zero_testBit _
  have hcan : (ppuCall ⟨0, 0⟩ overCommand 0x304 (fun _ => 0) 0 (fun _ => 0) 1).Can
      (board secondOne) (fun x _ => x.1 = 0 ∧ x.2 0 = 1) ⟨fun _ => 0, none, false, .fresh, []⟩ :=
    can_ppuCall ⟨0, 0⟩ (by decide) himage (fun _ => 0) 0 (fun _ => 0)
      (Q := fun x => x.1 = 0 ∧ x.2 0 = 1)
      (fun l h => can_streamResults_launched (by decide) (by decide) (by decide) (by decide) hzero
        (fun _ => 0) h) _
  obtain ⟨⟨rc, outputs⟩, s', hrun, rfl, houtput⟩ := hcan
  refine ⟨outputs, s', hrun, houtput, by decide, fun hstreamed => ?_⟩
  obtain ⟨outputs', heq, hwords⟩ := hstreamed.returned
  cases heq
  have hword : outputs 0 = resultWord secondOne 0 := hwords 0 (by decide)
  exact absurd (houtput.symm.trans hword) (by decide)

end

end OpenTricore.Ppu
