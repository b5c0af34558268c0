import OpenTricore.Tcmcd

/-! The host side of the PPU scalar core, `tools/common/ppu.c`: load an image,
start the core, and clock its result words out bit by bit over the run state. The
core's own loop is in `OpenTricore.PpuCore`. -/

namespace OpenTricore.Ppu
open Lib

/-! ## Controller registers -/

def PPU_CODE_BASE : UInt32 := 0xB0000000

def PPU_CLC : UInt32 := 0xE9800000
def PPU_RST_CTRLA : UInt32 := 0xE980000C
def PPU_RST_CTRLB : UInt32 := 0xE9800010
def PPU_RST_STAT : UInt32 := 0xE9800014
def PPU_CTRL : UInt32 := 0xE9800060
def PPU_STAT : UInt32 := 0xE9800064
def PPU_VECBASE : UInt32 := 0xE9800074

/-- Interface clocks and run request. -/
def CTRL_RUN : UInt32 := 0x3f09

/-- The poke that resumes a halted core. -/
def CTRL_RESUME : UInt32 := 0x3f0d

/-! ## Shared LMU layout -/

def CMD_WORD : UInt32 := 0xB0000300
def INPUT_BASE : UInt32 := 0xB0000310
def CMD_DONE_BIT : UInt32 := 0xFF

/-! ## Starting the core -/

/-- A write whose result is ignored. -/
def w (t : Target) (a : UInt64) (v : UInt32) : Bus Unit := do
  let _ ← xferW t a v
  return ()

/-- A read that answers 0 where it fails. -/
def r (t : Target) (a : UInt64) : Bus UInt32 := do
  match ← rd32Try t a with
  | some v => return v
  | none => return 0

/-- 0 running, 1 sleeping, 2 halted. -/
def ppuRunstate (t : Target) : Bus UInt32 := do
  return (← r t PPU_STAT.toUInt64) &&& 3

/-- The polls for the end of the kernel reset. -/
def waitReset (t : Target) : Nat → Bus Unit
  | 0 => return ()
  | n + 1 => do if (← r t PPU_RST_STAT.toUInt64) &&& 7 = 2 then return () else waitReset t n

def ppuLoadRun (t : Target) (image : Nat → UInt8) (len : UInt32) : Bus Int := do
  w t PPU_CLC.toUInt64 0
  if (← tcmcdWrite t PPU_CODE_BASE.toUInt64 image len) ≠ 0 then return -1
  else
    w t PPU_VECBASE.toUInt64 PPU_CODE_BASE
    w t PPU_RST_CTRLA.toUInt64 1
    w t PPU_RST_CTRLB.toUInt64 1
    waitReset t 100000
    w t PPU_RST_CTRLB.toUInt64 0x80000000   -- clear reset status
    w t PPU_CTRL.toUInt64 CTRL_RUN
    return 0

/-! ## Reading the results -/

def ppuResumeLoop (t : Target) : Nat → Bus Bool
  | 0 => return false
  | n + 1 => do
    w t PPU_CTRL.toUInt64 CTRL_RESUME
    w t PPU_CTRL.toUInt64 CTRL_RUN
    if (← ppuRunstate t) = 0 then return true else ppuResumeLoop t n

def ppuResume (t : Target) : Bus Bool := ppuResumeLoop t 40

/-- The polls for one token, true if they find the core halted. -/
def waitHalted (t : Target) : Nat → Bus Bool
  | 0 => return false
  | n + 1 => do if (← ppuRunstate t) = 2 then return true else waitHalted t n

/-- The command word that requests bit `bit` of result word `word`. -/
def token (nonce word bit : UInt32) : UInt32 := (nonce <<< 16) ||| (word <<< 8) ||| bit

/-- The body of the loop of `read_word`, none if a resume failed. -/
def readBit (t : Target) (word nonce bit v : UInt32) : Bus (Option UInt32) := do
  w t CMD_WORD.toUInt64 (token nonce word bit)
  if ← waitHalted t 20 then
    if ← ppuResume t then return some (v ||| (1 <<< bit)) else return none
  else return some v

/-- The word, none for the return value -1, and the advanced nonce. -/
def readWord (t : Target) (word nonce : UInt32) : Bus (Option UInt32 × UInt32) :=
  Prog.loop .hang (fun (bit, nonce, v) =>
    if bit < 32 then do
      match ← readBit t word nonce bit v with
      | some v => return .inl (bit + 1, nonce + 1, v)
      | none => return .inr (none, nonce + 1)
    else return .inr (some v, nonce)) 33 ((0 : UInt32), nonce, (0 : UInt32))

/-! ## The call -/

/-- The loop of `ppu_call` over the operands. -/
def writeInputs (t : Target) (inputs : Nat → UInt32) (nin : UInt32) : Bus Unit :=
  Prog.loop .hang (fun i : UInt32 =>
    if i < nin then do
      w t (INPUT_BASE + 4 * i).toUInt64 (inputs i.toNat)
      return .inl (i + 1)
    else return .inr ()) (2 ^ 32) 0

/-- The loop of `ppu_call` over the results: `rc`, the nonce and the outputs. -/
def readWords (t : Target) (outputs : Nat → UInt32) (nout : UInt32) :
    Bus (Int × UInt32 × (Nat → UInt32)) :=
  Prog.loop .hang (fun (word, nonce, outputs) =>
    if word < nout then do
      match ← readWord t word nonce with
      | (some v, nonce) =>
        return .inl (word + 1, nonce, fun i => if i = word.toNat then v else outputs i)
      | (none, nonce) => return .inr (-1, nonce, outputs)
    else return .inr (0, nonce, outputs)) (2 ^ 32) ((0 : UInt32), (1 : UInt32), outputs)

/-- `ppu_call` from the first token on. -/
def streamResults (t : Target) (outputs : Nat → UInt32) (nout : UInt32) :
    Bus (Int × (Nat → UInt32)) := do
  let (rc, nonce, outputs) ← readWords t outputs nout
  w t CMD_WORD.toUInt64 (token nonce 0xFF CMD_DONE_BIT)   -- tell core we are done
  return (rc, outputs)

/-- `outputs` is the caller's buffer, with whatever it held before. -/
def ppuCall (t : Target) (image : Nat → UInt8) (len : UInt32) (inputs : Nat → UInt32)
    (nin : UInt32) (outputs : Nat → UInt32) (nout : UInt32) : Bus (Int × (Nat → UInt32)) := do
  writeInputs t inputs nin
  w t CMD_WORD.toUInt64 0
  if (← ppuLoadRun t image len) ≠ 0 then return (-1, outputs)
  else streamResults t outputs nout

section
variable {σ : Type} (E : Env BusSig σ) {X : Abort → σ → Prop}

@[simp] theorem wp_w {Q : Unit → σ → Prop} (t : Target) (a : UInt64) (v : UInt32) (s : σ) :
    (w t a v).wp E Q X s ↔
      ∀ (b : Bool) s', E s (.write t.core ⟨a, t.msid⟩ v) b s' → Q () s' := by
  simp only [w, Prog.wp_bind, wp_xferW, Prog.pure_eq, Prog.wp_ret]

@[simp] theorem wp_r {Q : UInt32 → σ → Prop} (t : Target) (a : UInt64) (s : σ) :
    (r t a).wp E Q X s ↔
      ∀ (v : Option UInt32) s', E s (.read t.core ⟨a, t.msid⟩) v s' → Q (v.getD 0) s' := by
  simp only [r, rd32Try, Prog.wp_bind, wp_xferR]
  constructor
  · intro h v s' hE
    have := h v s' hE
    cases v <;> exact this
  · intro h v s' hE
    have := h v s' hE
    cases v <;> exact this

@[simp] theorem wp_ppuRunstate {Q : UInt32 → σ → Prop} (t : Target) (s : σ) :
    (ppuRunstate t).wp E Q X s ↔ ∀ (v : Option UInt32) s',
      E s (.read t.core ⟨PPU_STAT.toUInt64, t.msid⟩) v s' → Q (v.getD 0 &&& 3) s' := by
  simp only [ppuRunstate, Prog.wp_bind, wp_r, Prog.pure_eq, Prog.wp_ret]

variable {P : BusSig.Op → Prop}

@[simp] theorem asks_w {R : Unit → Prop} (t : Target) (a : UInt64) (v : UInt32) :
    (w t a v).Asks P R ↔ P (.write t.core ⟨a, t.msid⟩ v) ∧ R () := by
  simp only [w, Prog.asks_bind, asks_xferW, Prog.pure_eq, Prog.asks_ret, forall_const]

@[simp] theorem asks_r {R : UInt32 → Prop} (t : Target) (a : UInt64) :
    (r t a).Asks P R ↔
      P (.read t.core ⟨a, t.msid⟩) ∧ ∀ v : Option UInt32, R (v.getD 0) := by
  simp only [r, rd32Try, Prog.asks_bind, asks_xferR]
  apply and_congr_right
  intro _
  apply forall_congr'
  intro v
  cases v <;> rfl

@[simp] theorem asks_ppuRunstate {R : UInt32 → Prop} (t : Target) :
    (ppuRunstate t).Asks P R ↔ P (.read t.core ⟨PPU_STAT.toUInt64, t.msid⟩) ∧
      ∀ v : Option UInt32, R (v.getD 0 &&& 3) := by
  simp only [ppuRunstate, Prog.asks_bind, asks_r, Prog.pure_eq, Prog.asks_ret]

end

/-! ## Rules for the loops -/

/-- A counter below a bound, one step on. -/
theorem toNat_next {i n : UInt32} (h : i < n) : (i + 1).toNat = i.toNat + 1 := by
  have := n.toNat_lt
  rw [UInt32.lt_iff_toNat_lt] at h
  rw [UInt32.toNat_add, show (1 : UInt32).toNat = 1 from rfl]
  omega

section rules
variable {σ : Type} (E : Env BusSig σ) {X : Abort → σ → Prop} (t : Target)

/-- `I i` holds before operand `i` is written. -/
theorem wp_writeInputs (inputs : Nat → UInt32) (nin : UInt32) {Q : Unit → σ → Prop}
    (I : Nat → σ → Prop)
    (hwrite : ∀ i : UInt32, i.toNat < nin.toNat → ∀ s, I i.toNat s → ∀ (b : Bool) s',
      E s (.write t.core ⟨(INPUT_BASE + 4 * i).toUInt64, t.msid⟩ (inputs i.toNat)) b s' →
      I (i.toNat + 1) s')
    (hend : ∀ s, I nin.toNat s → Q () s) (s : σ) (hI : I 0 s) :
    (writeInputs t inputs nin).wp E Q X s := by
  apply Prog.wp_loop E (fun (i : UInt32) s => i.toNat ≤ nin.toNat ∧ I i.toNat s)
    (fun i => nin.toNat - i.toNat)
  · rintro i s ⟨hle, hI⟩
    split
    · rename_i hlt
      have hnext := toNat_next hlt
      rw [UInt32.lt_iff_toNat_lt] at hlt
      simp only [Prog.wp_bind, wp_w]
      intro b s' hb
      refine ⟨⟨by omega, ?_⟩, by omega⟩
      rw [hnext]
      exact hwrite i hlt s hI b s' hb
    · rename_i hge
      rw [UInt32.lt_iff_toNat_lt] at hge
      have heq : i.toNat = nin.toNat := by omega
      exact hend s (heq ▸ hI)
  · exact ⟨Nat.zero_le _, hI⟩
  · have := nin.toNat_lt
    omega

/-- `I bit nonce v` holds before bit `bit` is requested. -/
theorem wp_readWord (word nonce : UInt32) {Q : Option UInt32 × UInt32 → σ → Prop}
    (I : Nat → UInt32 → UInt32 → σ → Prop)
    (hbit : ∀ bit : UInt32, bit.toNat < 32 → ∀ nonce v s, I bit.toNat nonce v s →
      (readBit t word nonce bit v).wp E (fun x s' =>
        (∀ v', x = some v' → I (bit.toNat + 1) (nonce + 1) v' s') ∧
        (x = none → Q (none, nonce + 1) s')) X s)
    (hend : ∀ nonce v s, I 32 nonce v s → Q (some v, nonce) s) (s : σ) (hI : I 0 nonce 0 s) :
    (readWord t word nonce).wp E Q X s := by
  apply Prog.wp_loop E
    (fun (x : UInt32 × UInt32 × UInt32) s => x.1.toNat ≤ 32 ∧ I x.1.toNat x.2.1 x.2.2 s)
    (fun b => 32 - b.1.toNat)
  · rintro ⟨bit, nonce, v⟩ s ⟨hle, hI⟩
    dsimp only at hle hI ⊢
    split
    · rename_i hlt
      have hnext := toNat_next hlt
      rw [UInt32.lt_iff_toNat_lt, show (32 : UInt32).toNat = 32 from rfl] at hlt
      rw [Prog.wp_bind]
      apply Prog.wp_mono _ ?_ (fun _ _ h => h) (hbit bit hlt nonce v s hI)
      rintro x s' ⟨hsome, hnone⟩
      cases x with
      | some v' =>
        simp only [Prog.pure_eq, Prog.wp_ret]
        refine ⟨⟨by omega, ?_⟩, by omega⟩
        rw [hnext]
        exact hsome v' rfl
      | none => exact hnone rfl
    · rename_i hge
      rw [UInt32.lt_iff_toNat_lt, show (32 : UInt32).toNat = 32 from rfl] at hge
      have heq : bit.toNat = 32 := by omega
      exact hend nonce v s (heq ▸ hI)
  · exact ⟨Nat.zero_le _, hI⟩
  · exact Nat.lt_succ_self 32

/-- `I word nonce outputs` holds before word `word` is read. -/
theorem wp_readWords (outputs : Nat → UInt32) (nout : UInt32)
    {Q : Int × UInt32 × (Nat → UInt32) → σ → Prop}
    (I : Nat → UInt32 → (Nat → UInt32) → σ → Prop)
    (hword : ∀ word : UInt32, word < nout → ∀ nonce outputs s, I word.toNat nonce outputs s →
      (readWord t word nonce).wp E (fun x s' =>
        (∀ v, x.1 = some v →
          I (word.toNat + 1) x.2 (fun i => if i = word.toNat then v else outputs i) s') ∧
        (x.1 = none → Q (-1, x.2, outputs) s')) X s)
    (hend : ∀ nonce outputs s, I nout.toNat nonce outputs s → Q (0, nonce, outputs) s) (s : σ)
    (hI : I 0 1 outputs s) : (readWords t outputs nout).wp E Q X s := by
  apply Prog.wp_loop E
    (fun (x : UInt32 × UInt32 × (Nat → UInt32)) s => x.1.toNat ≤ nout.toNat ∧
      I x.1.toNat x.2.1 x.2.2 s)
    (fun b => nout.toNat - b.1.toNat)
  · rintro ⟨word, nonce, outputs⟩ s ⟨hle, hI⟩
    dsimp only at hle hI ⊢
    split
    · rename_i hlt
      have hnext := toNat_next hlt
      have hlt' := UInt32.lt_iff_toNat_lt.mp hlt
      rw [Prog.wp_bind]
      apply Prog.wp_mono _ ?_ (fun _ _ h => h) (hword word hlt nonce outputs s hI)
      rintro ⟨x, nonce'⟩ s' ⟨hsome, hnone⟩
      cases x with
      | some v =>
        simp only [Prog.pure_eq, Prog.wp_ret]
        refine ⟨⟨by omega, ?_⟩, by omega⟩
        rw [hnext]
        exact hsome v rfl
      | none => exact hnone rfl
    · rename_i hge
      rw [UInt32.lt_iff_toNat_lt] at hge
      have heq : word.toNat = nout.toNat := by omega
      exact hend nonce outputs s (heq ▸ hI)
  · exact ⟨Nat.zero_le _, hI⟩
  · have := nout.toNat_lt
    dsimp only
    omega

end rules

/-! ## Every loop ends -/

theorem w_returns (t : Target) (a : UInt64) (v : UInt32) : (w t a v).Returns :=
  Prog.FailsIn.bind (Prog.failsIn_perform _) fun _ => Prog.failsIn_ret _

theorem ppuRunstate_returns (t : Target) : (ppuRunstate t).Returns := by
  simp only [Prog.Returns, Prog.FailsIn, wp_ppuRunstate]
  exact fun _ _ _ => trivial

theorem ppuResumeLoop_returns (t : Target) (n : Nat) : (ppuResumeLoop t n).Returns := by
  induction n with
  | zero => exact Prog.failsIn_ret _
  | succ n ih =>
    apply Prog.FailsIn.bind (w_returns t _ _)
    intro _
    apply Prog.FailsIn.bind (w_returns t _ _)
    intro _
    apply Prog.FailsIn.bind (ppuRunstate_returns t)
    intro v
    split
    · exact Prog.failsIn_ret _
    · exact ih

theorem waitHalted_returns (t : Target) (n : Nat) : (waitHalted t n).Returns := by
  induction n with
  | zero => exact Prog.failsIn_ret _
  | succ n ih =>
    apply Prog.FailsIn.bind (ppuRunstate_returns t)
    intro v
    split
    · exact Prog.failsIn_ret _
    · exact ih

theorem readBit_returns (t : Target) (word nonce bit v : UInt32) :
    (readBit t word nonce bit v).Returns := by
  apply Prog.FailsIn.bind (w_returns t _ _)
  intro _
  apply Prog.FailsIn.bind (waitHalted_returns t 20)
  intro halted
  split
  · apply Prog.FailsIn.bind (ppuResumeLoop_returns t 40)
    intro resumed
    split <;> exact Prog.failsIn_ret _
  · exact Prog.failsIn_ret _

theorem readWord_returns (t : Target) (word nonce : UInt32) : (readWord t word nonce).Returns := by
  apply wp_readWord Prog.everything t word nonce (fun _ _ _ _ => True) ?_
    (fun _ _ _ _ => trivial) () trivial
  intro bit _ nonce v _ _
  exact Prog.wp_mono _ (fun _ _ _ => ⟨fun _ _ => trivial, fun _ => trivial⟩) (fun _ _ h => h)
    (readBit_returns t word nonce bit v)

theorem readWords_returns (t : Target) (outputs : Nat → UInt32) (nout : UInt32) :
    (readWords t outputs nout).Returns := by
  apply wp_readWords Prog.everything t outputs nout (fun _ _ _ _ => True) ?_
    (fun _ _ _ _ => trivial) () trivial
  intro word _ nonce outputs _ _
  exact Prog.wp_mono _ (fun _ _ _ => ⟨fun _ _ => trivial, fun _ => trivial⟩) (fun _ _ h => h)
    (readWord_returns t word nonce)

theorem writeInputs_returns (t : Target) (inputs : Nat → UInt32) (nin : UInt32) :
    (writeInputs t inputs nin).Returns :=
  wp_writeInputs Prog.everything t inputs nin (fun _ _ => True) (fun _ _ _ _ _ _ _ => trivial)
    (fun _ _ => trivial) () trivial

/-! ## Tokens -/

theorem toNat_token (nonce word bit : UInt32) (hword : word.toNat < 256) (hbit : bit.toNat < 256) :
    (token nonce word bit).toNat =
      nonce.toNat % 65536 * 65536 + word.toNat * 256 + bit.toNat := by
  have hn : (nonce <<< 16).toNat = (nonce.toNat % 65536) <<< 16 := by
    rw [UInt32.toNat_shiftLeft, Nat.shiftLeft_eq, Nat.shiftLeft_eq,
      show (16 : UInt32).toNat % 32 = 16 from rfl]
    omega
  have hw : (word <<< 8).toNat = word.toNat <<< 8 := by
    rw [UInt32.toNat_shiftLeft, Nat.shiftLeft_eq, Nat.shiftLeft_eq,
      show (8 : UInt32).toNat % 32 = 8 from rfl]
    omega
  have hlow : word.toNat <<< 8 ||| bit.toNat = word.toNat * 256 + bit.toNat := by
    rw [← Nat.shiftLeft_add_eq_or_of_lt hbit, Nat.shiftLeft_eq]
  unfold token
  rw [UInt32.toNat_or, UInt32.toNat_or, hn, hw, Nat.or_assoc, hlow,
    ← Nat.shiftLeft_add_eq_or_of_lt (by omega), Nat.shiftLeft_eq]
  omega

end OpenTricore.Ppu
