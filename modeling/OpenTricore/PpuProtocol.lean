import OpenTricore.PpuLink

/-! The host's side of the channel. For every token the host and the core pass
through the same few stages, whatever the order of their steps, and each stage says
what the core has done so far. From them the result words are read exactly. -/

namespace OpenTricore.Ppu
open Lib Lib.Prog

/-! ## What the core is to do -/

section
variable (result : UInt32 → UInt32)

/-- The bit that token `k` asks for. -/
def bitAt (k : Nat) : Bool := (result (UInt32.ofNat (k / 32))).toNat.testBit (k % 32)

/-- The answers to the first `k` tokens, one each. -/
def answers (k : Nat) : List Act :=
  (List.range k).map fun k =>
    .answer (UInt32.ofNat (k / 32)) (UInt32.ofNat (k % 32)) (bitAt result k)

/-- All that the core does in a call: it answers every bit of every result word
once, in order, and then takes the done token. -/
def conversation (nout : UInt32) : List Act := answers result (32 * nout.toNat) ++ [.done]

variable {result}

theorem answers_succ (k : Nat) : answers result (k + 1) = answers result k ++
    [.answer (UInt32.ofNat (k / 32)) (UInt32.ofNat (k % 32)) (bitAt result k)] := by
  rw [answers, List.range_succ, List.map_append]
  rfl

theorem answers_grow {j k : Nat} (h : j ≤ k) : answers result j <+: answers result k := by
  induction h with
  | refl => exact List.prefix_refl _
  | step _ ih =>
    rw [answers_succ]
    exact ih.trans (List.prefix_append _ _)

/-- Shifting and masking picks the bit. -/
theorem shift_and_one (v bit : UInt32) (hbit : bit.toNat < 32) :
    ((v >>> bit) &&& 1 != 0) = v.toNat.testBit bit.toNat := by
  have hshift : ((v >>> bit) &&& 1).toNat = v.toNat / 2 ^ bit.toNat % 2 := by
    rw [UInt32.toNat_and, UInt32.toNat_shiftRight, Nat.mod_eq_of_lt hbit,
      Nat.shiftRight_eq_div_pow, show (1 : UInt32).toNat = 2 ^ 1 - 1 from rfl,
      Nat.and_two_pow_sub_one_eq_mod]
  rw [Nat.testBit_eq_decide_div_mod_eq, Bool.eq_iff_iff, bne_iff_ne, decide_eq_true_eq, ne_eq,
    ← UInt32.toNat_inj, hshift, show (0 : UInt32).toNat = 0 from rfl]
  omega

theorem wantsHalt_tokAt {nout : UInt32} {k : Nat} (hk : k < 32 * nout.toNat)
    (hout : nout.toNat ≤ 256) : wantsHalt result (tokAt nout k) = bitAt result k := by
  have hbit : (UInt32.ofNat (k % 32)).toNat = k % 32 := by
    rw [UInt32.toNat_ofNat']
    omega
  rw [wantsHalt, wordOf_tokAt hk hout, bitOf_tokAt hk hout, shift_and_one _ _ (by omega), hbit]
  rfl

theorem toNat_oneShift {bit : UInt32} (hbit : bit.toNat < 32) :
    ((1 : UInt32) <<< bit).toNat = 2 ^ bit.toNat := by
  have hpow : 2 ^ bit.toNat < 2 ^ 32 := Nat.pow_lt_pow_right (by omega) hbit
  rw [UInt32.toNat_shiftLeft, Nat.mod_eq_of_lt hbit, Nat.shiftLeft_eq,
    show (1 : UInt32).toNat = 1 from rfl, Nat.one_mul, Nat.mod_eq_of_lt hpow]

/-- One more bit of a word, where the bits below are there. -/
theorem toNat_addBit (v r : UInt32) (bit : UInt32) (hbit : bit.toNat < 32)
    (hv : v.toNat = r.toNat % 2 ^ bit.toNat) :
    (if r.toNat.testBit bit.toNat then v ||| (1 <<< bit) else v).toNat =
      r.toNat % 2 ^ (bit.toNat + 1) := by
  have hlt : v.toNat < 2 ^ bit.toNat := by
    rw [hv]
    exact Nat.mod_lt _ (Nat.two_pow_pos _)
  have hone := toNat_oneShift hbit
  rw [Nat.pow_succ, Nat.mod_mul, ← hv]
  by_cases htest : r.toNat / 2 ^ bit.toNat % 2 = 1
  · have hor := Nat.two_pow_add_eq_or_of_lt hlt 1
    rw [Nat.testBit_eq_decide_div_mod_eq, if_pos (decide_eq_true htest), UInt32.toNat_or, hone,
      Nat.or_comm, htest, Nat.mul_one]
    rw [Nat.mul_one] at hor
    omega
  · rw [Nat.testBit_eq_decide_div_mod_eq, if_neg (by simpa using htest),
      show r.toNat / 2 ^ bit.toNat % 2 = 0 by omega, Nat.mul_zero, Nat.add_zero]

end

/-! ## The stages of one token -/

/-- A step of the core changes neither the command word nor the host's counts. -/
theorem Link.Step.frame {result : UInt32 → UInt32} {l l' : Link} (h : Link.Step result l l') :
    l'.cmd = l.cmd ∧ l'.watch.polls = l.watch.polls ∧ l'.watch.tries = l.watch.tries := by
  unfold Link.Step Link.next at h
  split at h
  case h_3 tok _ =>
    unfold Link.act at h
    split at h <;> cases h <;> exact ⟨rfl, rfl, rfl⟩
  case h_5 | h_7 =>
    split at h <;> cases h
    exact ⟨rfl, rfl, rfl⟩
  all_goals
    cases h
    exact ⟨rfl, rfl, rfl⟩

section
variable (result : UInt32 → UInt32) (nout : UInt32)

/-- The core is done with the first `k` tokens, or at most has to note that the
last of them asked for a 0 bit. -/
inductive Behind (k : Nat) (l : Link) : Prop
  | starting (hk : k = 0) (hp : l.phase = .starting) (hl : l.log = [])
  | polling (hp : l.phase = .polling (cmdAt nout k)) (hl : l.log = answers result k)
  | holding (j : Nat) (hk : k = j + 1) (hj : j < 32 * nout.toNat) (hbit : bitAt result j = false)
      (hp : l.phase = .holding (cmdAt nout k)) (hl : l.log = answers result j)

/-- The host may write token `k`. -/
structure Ready (k : Nat) (l : Link) : Prop where
  cmd : l.cmd = cmdAt nout k
  poked : l.poked = false
  behind : Behind result nout k l

/-- How far the core has come with token `k`. -/
inductive Stage (k : Nat) (l : Link) : Prop
  | early (hb : Behind result nout k l) (hs : l.watch.sampled = false)
      (hg : l.watch.signalled = false)
  | read (hp : l.phase = .holding (tokAt nout k)) (hl : l.log = answers result k)
      (hg : l.watch.signalled = false)
  | zero (hbit : bitAt result k = false) (hp : l.phase = .polling (tokAt nout k))
      (hl : l.log = answers result (k + 1))
  | one (hbit : bitAt result k = true) (hp : l.phase = .signalling (tokAt nout k))
      (hl : l.log = answers result (k + 1)) (hg : l.watch.signalled = false)
  | halted (hbit : bitAt result k = true) (hp : l.phase = .halted (tokAt nout k))
      (hl : l.log = answers result (k + 1))

/-- The host has written token `k` and waits for the answer. -/
structure Asked (k : Nat) (l : Link) : Prop where
  cmd : l.cmd = tokAt nout k
  poked : l.poked = false
  tries : l.watch.tries = 0
  stage : Stage result nout k l

/-- The host has seen the core halt for token `k`, and is to resume it. -/
structure Resuming (k : Nat) (l : Link) : Prop where
  cmd : l.cmd = tokAt nout k
  log : l.log = answers result (k + 1)
  phase : l.phase = .halted (tokAt nout k) ∨ l.phase = .polling (tokAt nout k) ∧ l.poked = false

variable {result nout}

/-- What the core does on a data token. -/
theorem act_tokAt {k : Nat} (hk : k < 32 * nout.toNat) (hout : nout.toNat ≤ 256) (l : Link) :
    l.act result (tokAt nout k) = { l with
      phase := if bitAt result k then .signalling (tokAt nout k) else .polling (tokAt nout k)
      log := l.log ++
        [.answer (UInt32.ofNat (k / 32)) (UInt32.ofNat (k % 32)) (bitAt result k)] } := by
  rw [Link.act, if_neg (bitOf_tokAt_ne hk hout), wantsHalt_tokAt hk hout, wordOf_tokAt hk hout,
    bitOf_tokAt hk hout]

/-- Before the core has read a new command word it only catches up. -/
theorem Behind.step (hout : nout.toNat ≤ 256) {k : Nat} {l l' : Link} (h : Behind result nout k l)
    (hstep : Link.Step result l l') :
    l'.poked = l.poked ∧ l'.watch.signalled = l.watch.signalled ∧
      (Behind result nout k l' ∧ (l.cmd ≠ cmdAt nout k → l'.watch.sampled = l.watch.sampled) ∨
        l.cmd ≠ cmdAt nout k ∧ l'.phase = .holding l.cmd ∧ l'.log = answers result k) := by
  unfold Link.Step Link.next at hstep
  cases h with
  | starting hk hp hl =>
    rw [hp] at hstep
    obtain rfl := Option.some.inj hstep
    subst hk
    exact ⟨rfl, rfl, .inl ⟨.polling rfl hl, fun _ => rfl⟩⟩
  | polling hp hl =>
    rw [hp] at hstep
    obtain rfl := Option.some.inj hstep
    refine ⟨rfl, rfl, ?_⟩
    by_cases hcmd : l.cmd = cmdAt nout k
    · exact .inl ⟨.polling (if_pos hcmd) hl, fun hne => absurd hcmd hne⟩
    · exact .inr ⟨hcmd, if_neg hcmd, hl⟩
  | holding j hk hj hbit hp hl =>
    subst hk
    rw [hp] at hstep
    obtain rfl := Option.some.inj hstep
    rw [cmdAt, act_tokAt hj hout, hbit]
    refine ⟨rfl, rfl, .inl ⟨.polling rfl ?_, fun _ => rfl⟩⟩
    rw [answers_succ, hbit]
    exact congrArg (· ++ _) hl

theorem ready_stable (hout : nout.toNat ≤ 256) (k : Nat) :
    Stable (Link.Step result) (Ready result nout k) := by
  rintro l l' ⟨hcmd, hpoked, hbehind⟩ hstep
  obtain ⟨hpoked', -, ⟨hb, -⟩ | ⟨hne, -⟩⟩ := hbehind.step hout hstep
  · exact ⟨hstep.frame.1.trans hcmd, hpoked'.trans hpoked, hb⟩
  · exact absurd hcmd hne

theorem asked_stable (hout : nout.toNat ≤ 256) {k : Nat} (hk : k < 32 * nout.toNat) :
    Stable (Link.Step result) (Asked result nout k) := by
  rintro l l' ⟨hcmd, hpoked, htries, hstage⟩ hstep
  have hframe := hstep.frame
  have hcmd' := hframe.1.trans hcmd
  have htries' := hframe.2.2.trans htries
  have hfresh : tokAt nout k ≠ cmdAt nout k := tokAt_fresh (by omega) hout
  cases hstage with
  | early hb hs hg =>
    obtain ⟨hpoked', hg', ⟨hb', hs'⟩ | ⟨-, hp', hl'⟩⟩ := hb.step hout hstep
    · have hne : l.cmd ≠ cmdAt nout k := by rwa [hcmd]
      exact ⟨hcmd', hpoked'.trans hpoked, htries', .early hb' ((hs' hne).trans hs) (hg'.trans hg)⟩
    · exact ⟨hcmd', hpoked'.trans hpoked, htries', .read (hcmd ▸ hp') hl' (hg'.trans hg)⟩
  | read hp hl hg =>
    unfold Link.Step Link.next at hstep
    rw [hp] at hstep
    obtain rfl := Option.some.inj hstep
    rw [act_tokAt hk hout] at hcmd' htries' ⊢
    have hlog : l.log ++ [.answer (UInt32.ofNat (k / 32)) (UInt32.ofNat (k % 32))
        (bitAt result k)] = answers result (k + 1) := by rw [answers_succ, hl]
    refine ⟨hcmd', hpoked, htries', ?_⟩
    cases hbit : bitAt result k with
    | false =>
      rw [hbit] at hlog
      exact .zero hbit rfl hlog
    | true =>
      rw [hbit] at hlog
      exact .one hbit rfl hlog hg
  | zero hbit hp hl =>
    unfold Link.Step Link.next at hstep
    rw [hp] at hstep
    obtain rfl := Option.some.inj hstep
    exact ⟨hcmd', hpoked, htries', .zero hbit (if_pos hcmd) hl⟩
  | one hbit hp hl hg =>
    unfold Link.Step Link.next at hstep
    rw [hp] at hstep
    obtain rfl := Option.some.inj hstep
    exact ⟨hcmd', hpoked, htries', .halted hbit rfl hl⟩
  | halted hbit hp hl =>
    unfold Link.Step Link.next at hstep
    rw [hp] at hstep
    dsimp only at hstep
    rw [hpoked] at hstep
    cases hstep

theorem resuming_stable (k : Nat) : Stable (Link.Step result) (Resuming result nout k) := by
  rintro l l' ⟨hcmd, hlog, hphase⟩ hstep
  have hcmd' := hstep.frame.1.trans hcmd
  unfold Link.Step Link.next at hstep
  rcases hphase with hp | ⟨hp, hpoked⟩
  · rw [hp] at hstep
    dsimp only at hstep
    split at hstep
    · cases hstep
      exact ⟨hcmd', hlog, .inr ⟨rfl, rfl⟩⟩
    · cases hstep
  · rw [hp] at hstep
    cases hstep
    exact ⟨hcmd', hlog, .inr ⟨if_pos hcmd, hpoked⟩⟩

/-! ## What the host sees -/

/-- Only a core that has answered with a 1 is halted. -/
theorem Asked.resuming {k : Nat} {l : Link} (h : Asked result nout k l)
    (hhalted : l.phase.isHalted = true) : bitAt result k = true ∧ Resuming result nout k l := by
  cases h.stage with
  | early hb _ _ =>
    cases hb with
    | starting _ hp _ => rw [hp] at hhalted; cases hhalted
    | polling hp _ => rw [hp] at hhalted; cases hhalted
    | holding _ _ _ _ hp _ => rw [hp] at hhalted; cases hhalted
  | read hp _ _ => rw [hp] at hhalted; cases hhalted
  | zero _ hp _ => rw [hp] at hhalted; cases hhalted
  | one _ hp _ _ => rw [hp] at hhalted; cases hhalted
  | halted hbit hp hl => exact ⟨hbit, h.cmd, hl, .inl hp⟩

/-- Where the last poll finds the core running, the bit is 0. -/
theorem Asked.ready {k : Nat} {l : Link} (h : Asked result nout k l) (hk : k < 32 * nout.toNat)
    (hrun : l.phase.isHalted = false) (hsampled : l.watch.sampled = true)
    (hsignalled : bitAt result k = true → l.watch.signalled = true) :
    bitAt result k = false ∧ Ready result nout (k + 1) l := by
  cases h.stage with
  | early _ hs _ =>
    rw [hsampled] at hs
    cases hs
  | read hp hl hg =>
    have hbit : bitAt result k = false := by
      cases hbit : bitAt result k with
      | false => rfl
      | true =>
        rw [hsignalled hbit] at hg
        cases hg
    exact ⟨hbit, h.cmd, h.poked, .holding k rfl hk hbit hp hl⟩
  | zero hbit hp hl => exact ⟨hbit, h.cmd, h.poked, .polling hp hl⟩
  | one hbit _ _ hg =>
    rw [hsignalled hbit] at hg
    cases hg
  | halted _ hp _ =>
    rw [hp] at hrun
    cases hrun

end

/-! ## The host's loops -/

section
variable {result : UInt32 → UInt32} {nout : UInt32} {t : Target}

theorem Behind.congr {k : Nat} {l l' : Link} (h : Behind result nout k l)
    (hphase : l'.phase = l.phase) (hlog : l'.log = l.log) : Behind result nout k l' := by
  cases h with
  | starting hk hp hl => exact .starting hk (hphase.trans hp) (hlog.trans hl)
  | polling hp hl => exact .polling (hphase.trans hp) (hlog.trans hl)
  | holding j hk hj hbit hp hl =>
    exact .holding j hk hj hbit (hphase.trans hp) (hlog.trans hl)

theorem Ready.ask {k : Nat} {l : Link} (h : Ready result nout k l) :
    Asked result nout k (l.write CMD_WORD.toUInt64 (tokAt nout k)) ∧
      (l.write CMD_WORD.toUInt64 (tokAt nout k)).watch.polls = 0 := by
  rw [Link.write_cmd]
  exact ⟨⟨rfl, h.poked, rfl, .early (h.behind.congr rfl rfl) rfl rfl⟩, rfl⟩

/-- Polling does not change what the core has done. -/
theorem Ready.polled {k : Nat} {l : Link} (h : Ready result nout k l) :
    Ready result nout k l.polled :=
  ⟨h.cmd, h.poked, h.behind.congr rfl rfl⟩

theorem Asked.polled {k : Nat} {l : Link} (h : Asked result nout k l) :
    Asked result nout k l.polled := by
  refine ⟨h.cmd, h.poked, h.tries, ?_⟩
  cases h.stage with
  | early hb hs hg => exact .early (hb.congr rfl rfl) hs hg
  | read hp hl hg => exact .read hp hl hg
  | zero hbit hp hl => exact .zero hbit hp hl
  | one hbit hp hl hg => exact .one hbit hp hl hg
  | halted hbit hp hl => exact .halted hbit hp hl

theorem Resuming.polled {k : Nat} {l : Link} (h : Resuming result nout k l) :
    Resuming result nout k l.polled :=
  ⟨h.cmd, h.log, h.phase⟩

/-- A poke reaches a halted core only. -/
theorem Resuming.poke {k : Nat} {l : Link} (h : Resuming result nout k l) :
    Resuming result nout k (l.write PPU_CTRL.toUInt64 CTRL_RESUME) := by
  rw [Link.write_resume]
  refine ⟨h.cmd, h.log, ?_⟩
  rcases h.phase with hp | ⟨hp, -⟩
  · exact .inl hp
  · refine .inr ⟨hp, ?_⟩
    dsimp only
    rw [hp]
    rfl

/-- A core that is found running again is back at its poll. -/
theorem Resuming.ready {k : Nat} {l : Link} (h : Resuming result nout k l)
    (hrun : l.phase.isHalted = false) : Ready result nout (k + 1) l := by
  rcases h.phase with hp | ⟨hp, hpoked⟩
  · rw [hp] at hrun
    cases hrun
  · exact ⟨h.cmd, hpoked, .polling hp h.log⟩

/-- The polls for token `k` see its bit. -/
theorem waitHalted_spec (hout : nout.toNat ≤ 256) {k : Nat} (hk : k < 32 * nout.toNat) (n : Nat)
    (hpos : 0 < n) {l : Link} (h : Asked result nout k l) (hn : l.watch.polls + n = 20) :
    (waitHalted t n).wp (channel result)
      (fun halted l' => halted = bitAt result k ∧
        if halted then Resuming result nout k l' ∧ l'.watch.tries = 0
        else Ready result nout (k + 1) l')
      (fun _ _ => False) l := by
  induction n generalizing l with
  | zero => omega
  | succ n ih =>
    have hstable : Stable (Link.Step result) fun l => l.watch.polls + (n + 1) = 20 := by
      intro l l' h hstep
      rwa [hstep.frame.2.1]
    rw [waitHalted, wp_bind]
    apply wp_runstate t ((asked_stable hout hk).and hstable) ?_ ⟨h, hn⟩
    rintro l ⟨h, hpolls⟩ ⟨htime, -⟩
    cases hhalt : l.phase.isHalted with
    | true =>
      obtain ⟨hbit, hr⟩ := h.resuming hhalt
      exact ⟨hbit.symm, hr.polled, h.tries⟩
    | false =>
      rcases Nat.eq_zero_or_pos n with rfl | hpos
      · -- the last poll
        obtain ⟨hsampled, hsignalled⟩ := htime (by omega)
        rw [h.cmd, wantsHalt_tokAt hk hout] at hsignalled
        obtain ⟨hbit, hr⟩ := h.ready hk hhalt hsampled hsignalled
        exact ⟨hbit.symm, hr.polled⟩
      · apply ih hpos h.polled
        simp only [Link.polled]
        omega

/-- One of the tries resumes the core, and it does not act on the same token again. -/
theorem ppuResumeLoop_spec (k n : Nat) (hpos : 0 < n) {l : Link} (h : Resuming result nout k l)
    (hn : l.watch.tries + n = 40) :
    (ppuResumeLoop t n).wp (channel result)
      (fun resumed l' => resumed = true ∧ Ready result nout (k + 1) l')
      (fun _ _ => False) l := by
  induction n generalizing l with
  | zero => omega
  | succ n ih =>
    have hstable (n : Nat) : Stable (Link.Step result) fun l => l.watch.tries + n = 40 := by
      intro l l' h hstep
      rwa [hstep.frame.2.2]
    have hpoked (l : Link) (hn : l.watch.tries + (n + 1) = 40) :
        (l.write PPU_CTRL.toUInt64 CTRL_RESUME).watch.tries + n = 40 := by
      rw [Link.write_resume]
      dsimp only
      omega
    rw [ppuResumeLoop, wp_bind]
    apply wp_write t ((resuming_stable k).and (hstable (n + 1))) ?_ ⟨h, hn⟩
    rintro l ⟨h, hn⟩
    rw [wp_bind]
    apply wp_write t ((resuming_stable k).and (hstable n)) ?_ ⟨h.poke, hpoked l hn⟩
    rintro l ⟨h, hn⟩
    rw [Link.write_run, wp_bind]
    apply wp_runstate t ((resuming_stable k).and (hstable n)) ?_ ⟨h, hn⟩
    rintro l ⟨h, hn⟩ ⟨-, htime⟩
    cases hhalt : l.phase.isHalted with
    | true =>
      rcases Nat.eq_zero_or_pos n with rfl | hpos
      · rw [htime (by omega)] at hhalt
        cases hhalt
      · exact ih hpos h.polled hn
    | false => exact ⟨rfl, (h.ready hhalt).polled⟩

theorem readBit_spec (hout : nout.toNat ≤ 256) {k : Nat} (hk : k < 32 * nout.toNat)
    {word nonce bit : UInt32} (htoken : token nonce word bit = tokAt nout k) (v : UInt32)
    {l : Link} (h : Ready result nout k l) :
    (readBit t word nonce bit v).wp (channel result)
      (fun x l' => x = some (if bitAt result k then v ||| (1 <<< bit) else v) ∧
        Ready result nout (k + 1) l')
      (fun _ _ => False) l := by
  rw [readBit, htoken, wp_bind]
  apply wp_write t (ready_stable hout k) ?_ h
  intro l h
  obtain ⟨hasked, hpolls⟩ := h.ask
  rw [wp_bind]
  apply wp_mono _ ?_ (fun _ _ h => h) (waitHalted_spec hout hk 20 (by omega) hasked (by omega))
  rintro halted l ⟨hbit, hl⟩
  cases halted with
  | false =>
    rw [← hbit]
    exact ⟨rfl, hl⟩
  | true =>
    obtain ⟨hresuming, htries⟩ := hl
    rw [← hbit]
    simp only [↓reduceIte, wp_bind]
    apply wp_mono _ ?_ (fun _ _ h => h) (ppuResumeLoop_spec k 40 (by omega) hresuming (by omega))
    rintro resumed l ⟨rfl, hready⟩
    exact ⟨rfl, hready⟩

/-- The indices of bit `bit` of word `word`. -/
theorem index_split (word : UInt32) {bit : UInt32} (hbit : bit.toNat < 32) :
    (32 * word.toNat + bit.toNat) / 32 = word.toNat ∧
      (32 * word.toNat + bit.toNat) % 32 = bit.toNat := by
  omega

theorem bitAt_index {word bit : UInt32} (hbit : bit.toNat < 32) :
    bitAt result (32 * word.toNat + bit.toNat) = (result word).toNat.testBit bit.toNat := by
  obtain ⟨hdiv, hmod⟩ := index_split word hbit
  rw [bitAt, hdiv, hmod, UInt32.ofNat_toNat]

theorem token_index {word bit : UInt32} (hword : word < nout) (hbit : bit.toNat < 32) :
    token (UInt32.ofNat (32 * word.toNat + bit.toNat + 1)) word bit =
      tokAt nout (32 * word.toNat + bit.toNat) := by
  rw [UInt32.lt_iff_toNat_lt] at hword
  obtain ⟨hdiv, hmod⟩ := index_split word hbit
  rw [tokAt_data (by omega), hdiv, hmod, UInt32.ofNat_toNat, UInt32.ofNat_toNat]

theorem ofNat_succ (k : Nat) : UInt32.ofNat k + 1 = UInt32.ofNat (k + 1) := by
  rw [UInt32.ofNat_add]
  rfl

/-- `read_word` clocks out the word. -/
theorem readWord_spec (hout : nout.toNat ≤ 256) {word : UInt32} (hword : word < nout) {l : Link}
    (h : Ready result nout (32 * word.toNat) l) :
    (readWord t word (UInt32.ofNat (32 * word.toNat + 1))).wp (channel result)
      (fun x l' => x = (some (result word), UInt32.ofNat (32 * (word.toNat + 1) + 1)) ∧
        Ready result nout (32 * (word.toNat + 1)) l')
      (fun _ _ => False) l := by
  have hlt := UInt32.lt_iff_toNat_lt.mp hword
  apply wp_readWord (channel result) t word _ (fun bit nonce v l =>
    nonce = UInt32.ofNat (32 * word.toNat + bit + 1) ∧
      v.toNat = (result word).toNat % 2 ^ bit ∧ Ready result nout (32 * word.toNat + bit) l)
  · rintro bit hbit _ v l ⟨rfl, hv, h⟩
    apply wp_mono _ ?_ (fun _ _ h => h)
      (readBit_spec hout (by omega) (token_index hword hbit) v h)
    rintro _ l ⟨rfl, hready⟩
    refine ⟨?_, by simp⟩
    rintro _ ⟨⟩
    refine ⟨ofNat_succ _, ?_, hready⟩
    rw [bitAt_index hbit, toNat_addBit v (result word) bit hbit hv]
  · rintro nonce v l ⟨rfl, hv, h⟩
    refine ⟨?_, h⟩
    congr 2
    apply UInt32.toNat_inj.mp
    rw [hv, Nat.mod_eq_of_lt (result word).toNat_lt]
  · exact ⟨rfl, (Nat.mod_one _).symm, h⟩

/-- The words below `word` have been read. -/
theorem readWords_spec (hout : nout.toNat ≤ 256) (outputs : Nat → UInt32) {l : Link}
    (h : Ready result nout 0 l) :
    (readWords t outputs nout).wp (channel result)
      (fun x l' => x.1 = 0 ∧ x.2.1 = UInt32.ofNat (32 * nout.toNat + 1) ∧
        (∀ i < nout.toNat, x.2.2 i = result (UInt32.ofNat i)) ∧
        Ready result nout (32 * nout.toNat) l')
      (fun _ _ => False) l := by
  apply wp_readWords (channel result) t outputs nout (fun word nonce outputs l =>
    nonce = UInt32.ofNat (32 * word + 1) ∧ (∀ i < word, outputs i = result (UInt32.ofNat i)) ∧
      Ready result nout (32 * word) l)
  · rintro word hword _ outputs l ⟨rfl, hprev, h⟩
    apply wp_mono _ ?_ (fun _ _ h => h) (readWord_spec hout hword h)
    rintro _ l ⟨rfl, hready⟩
    refine ⟨?_, by simp⟩
    rintro _ ⟨⟩
    refine ⟨rfl, ?_, hready⟩
    intro i hi
    dsimp only
    split
    · rename_i heq
      rw [heq, UInt32.ofNat_toNat]
    · exact hprev i (by omega)
  · rintro nonce outputs l ⟨rfl, hprev, h⟩
    exact ⟨rfl, rfl, hprev, h⟩
  · exact ⟨rfl, fun i hi => absurd hi (Nat.not_lt_zero i), h⟩

/-! ## The end of the call -/

/-- The done token is written, and the core is on its way to it. -/
inductive Closing (result : UInt32 → UInt32) (nout : UInt32) (l : Link) : Prop
  | early (hcmd : l.cmd = tokAt nout (32 * nout.toNat))
      (hb : Behind result nout (32 * nout.toNat) l)
  | read (hcmd : l.cmd = tokAt nout (32 * nout.toNat))
      (hp : l.phase = .holding (tokAt nout (32 * nout.toNat)))
      (hl : l.log = answers result (32 * nout.toNat))
  | ended (stopped : Bool) (hp : l.phase = .finished stopped)
      (hl : l.log = conversation result nout)

/-- The events that are left to the core. -/
def Phase.left : Phase → Nat
  | .starting => 3
  | .holding tok => if bitOf tok = 0xFF then 1 else 3
  | .polling _ => 2
  | _ => 0

/-- Every event brings the core closer to the end. -/
theorem Closing.step (hout : nout.toNat ≤ 256) {l l' : Link} (h : Closing result nout l)
    (hstep : Link.Step result l l') :
    Closing result nout l' ∧ (l.log ≠ conversation result nout → l'.phase.left < l.phase.left) := by
  have hfresh : tokAt nout (32 * nout.toNat) ≠ cmdAt nout (32 * nout.toNat) :=
    tokAt_fresh (Nat.le_refl _) hout
  cases h with
  | early hcmd hb =>
    have hne : l.cmd ≠ cmdAt nout (32 * nout.toNat) := by rwa [hcmd]
    have hcmd' := hstep.frame.1.trans hcmd
    constructor
    · obtain ⟨-, -, ⟨hb', -⟩ | ⟨-, hp', hl'⟩⟩ := hb.step hout hstep
      · exact .early hcmd' hb'
      · exact .read hcmd' (hcmd ▸ hp') hl'
    · intro _
      unfold Link.Step Link.next at hstep
      cases hb with
      | starting hk hp hl =>
        rw [hp] at hstep ⊢
        obtain rfl := Option.some.inj hstep
        exact Nat.lt_succ_self 2
      | polling hp hl =>
        rw [hp] at hstep ⊢
        obtain rfl := Option.some.inj hstep
        dsimp only
        rw [if_neg hne, hcmd, Phase.left, if_pos (bitOf_doneToken hout)]
        exact Nat.lt_succ_self 1
      | holding j hk hj hbit hp hl =>
        rw [hk, cmdAt] at hp
        rw [hp] at hstep ⊢
        obtain rfl := Option.some.inj hstep
        rw [act_tokAt hj hout, hbit]
        change Phase.left (.polling _) < Phase.left (.holding _)
        rw [Phase.left, Phase.left, if_neg (bitOf_tokAt_ne hj hout)]
        exact Nat.lt_succ_self 2
  | read hcmd hp hl =>
    unfold Link.Step Link.next at hstep
    rw [hp] at hstep
    obtain rfl := Option.some.inj hstep
    rw [Link.act, if_pos (bitOf_doneToken hout)]
    constructor
    · apply Closing.ended false rfl
      rw [conversation, hl]
    · intro _
      change 0 < l.phase.left
      rw [hp, Phase.left, if_pos (bitOf_doneToken hout)]
      exact Nat.one_pos
  | ended stopped hp hl =>
    refine ⟨?_, fun hne => absurd hl hne⟩
    unfold Link.Step Link.next at hstep
    rw [hp] at hstep
    cases stopped with
    | false =>
      obtain rfl := Option.some.inj hstep
      exact .ended true rfl hl
    | true =>
      dsimp only at hstep
      split at hstep
      · cases hstep
        exact .ended false rfl hl
      · cases hstep

/-- Nothing is done twice, and nothing that was not asked for. -/
theorem Closing.log_prefix {l : Link} (h : Closing result nout l) :
    l.log <+: conversation result nout := by
  have hprefix {j : Nat} (hj : j ≤ 32 * nout.toNat) :
      answers result j <+: conversation result nout :=
    (answers_grow hj).trans (List.prefix_append _ _)
  cases h with
  | early _ hb =>
    cases hb with
    | starting _ _ hl =>
      rw [hl]
      exact List.nil_prefix
    | polling _ hl =>
      rw [hl]
      exact hprefix (Nat.le_refl _)
    | holding j hk _ _ _ hl =>
      rw [hl]
      exact hprefix (by omega)
  | read _ _ hl =>
    rw [hl]
    exact hprefix (Nat.le_refl _)
  | ended _ _ hl => exact hl ▸ List.prefix_refl _

/-- A core that is not at the end yet is not halted. -/
theorem Closing.running {l : Link} (h : Closing result nout l)
    (hlog : l.log ≠ conversation result nout) : l.phase.isHalted = false := by
  cases h with
  | early _ hb =>
    cases hb with
    | starting _ hp _ => rw [hp]; rfl
    | polling hp _ => rw [hp]; rfl
    | holding _ _ _ _ hp _ => rw [hp]; rfl
  | read _ hp _ => rw [hp]; rfl
  | ended _ _ hl => exact absurd hl hlog

/-- From a core that has just been started on, the call returns 0 with the result
words, and leaves the core about to finish. -/
theorem streamResults_spec (hout : nout.toNat ≤ 256) (outputs : Nat → UInt32) {l : Link}
    (h : Ready result nout 0 l) :
    (streamResults t outputs nout).wp (channel result)
      (fun x l' => x.1 = 0 ∧ (∀ i < nout.toNat, x.2 i = result (UInt32.ofNat i)) ∧
        Closing result nout l')
      (fun _ _ => False) l := by
  rw [streamResults, wp_bind]
  apply wp_mono _ ?_ (fun _ _ h => h) (readWords_spec hout outputs h)
  rintro ⟨rc, nonce, outputs'⟩ l ⟨rfl, rfl, houtputs, hready⟩
  dsimp only at houtputs ⊢
  rw [wp_bind]
  apply wp_write t (ready_stable hout _) ?_ hready
  intro l hready
  refine ⟨rfl, houtputs, .early ?_ (hready.behind.congr rfl rfl)⟩
  rw [Link.write_cmd, tokAt_done]

end

end OpenTricore.Ppu
