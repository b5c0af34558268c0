import OpenTricore.Lib.Interleave
import OpenTricore.Smp

/-! The DMA driver, `bsp/tc4d7/dma.c`, and `dma_demo.c`. The channel moves words on its own
while the CPU polls; it is a master of the bus with a tag of its own, and its registers are
written only while its partition is being configured. -/

namespace OpenTricore.Dma
open Lib Lib.Prog Lib.Setting Relation
open DataFlash (MmioSig Mmio load store poll bit RUN CONFIG)
open Lmu (storeAll dmaInit lmuGrant)
open Smp (Soc bus Plain bus_plain bus_window plain_reg plain_low)

/-! ## The code -/

def DMA0_CLC : UInt32 := 0xF4410000
def DMA0_ERRSR : UInt32 := 0xF4410084
def RP0_PROT : UInt32 := 0xF4411020
def RP0_MODE : UInt32 := 0xF4411030
def RP0_ERRSR : UInt32 := 0xF4411048
def HRR0 : UInt32 := 0xF4411800
def CH0_SADR : UInt32 := 0xF4412008
def CH0_DADR : UInt32 := 0xF441200C
def CH0_ADICR : UInt32 := 0xF4412010
def CH0_CHCFGR : UInt32 := 0xF4412014
def CH0_CHCSR : UInt32 := 0xF441201C

/-- The field of CHCFGR for the number of words. -/
def TREL : UInt32 := 0x3FFF
def WIDTH_32 : UInt32 := (2 : UInt32) <<< 21

/-- The writes before the trigger. The delay after the first has no effect that shows here. -/
def setup (dst src words : UInt32) : List (UInt32 × UInt32) :=
  [(DMA0_CLC, 0),
    (RP0_PROT, bit 31 ||| bit 30),   -- define owner
    (RP0_PROT, bit 3 ||| 4),   -- run
    (RP0_PROT, bit 3 ||| 1),   -- config
    (HRR0, bit 4),   -- HRPV, HRP 0
    (RP0_MODE, bit 31),   -- VALID
    (CH0_SADR, src),
    (CH0_DADR, dst),
    (CH0_ADICR, bit 3 ||| bit 7),   -- INCS, INCD
    (CH0_CHCFGR, (words &&& TREL) ||| bit 19 ||| WIDTH_32),   -- RROAT
    (RP0_PROT, bit 3 ||| 4)]   -- relock

def POLLS : Nat := 4000000

def start (dst src words : UInt32) : Mmio Unit := do
  storeAll (setup dst src words)
  store CH0_CHCSR (bit 31)   -- SCH

def errors : Mmio Int := do
  let rp ← load RP0_ERRSR
  let err ← load DMA0_ERRSR
  if rp ||| err ≠ 0 then return 1 else return 0

/-- What follows the trigger. -/
def finish : Mmio Int := do
  let done ← poll CH0_CHCSR (fun r => r &&& bit 18 != 0) POLLS   -- ICH
  if done then errors else return 1

def dmaCopy (dst src words : UInt32) : Mmio Int := do
  start dst src words
  finish

def DMA_LMU : UInt32 := 0xB0400000
def N : Nat := 64
def SRC : UInt32 := DMA_LMU
def DST : UInt32 := DMA_LMU + 0x1000

def pattern (i : Nat) : UInt32 := 0xA5000000 ||| (UInt32.ofNat i * 0x111) ||| 0x33

def FILL : List (UInt32 × UInt32) :=
  (List.range N).flatMap fun i => [(slot SRC i, pattern i), (slot DST i, 0)]

/-- The count of the words that are the same. -/
def compare : List Nat → UInt32 → Mmio UInt32
  | [], matched => return matched
  | i :: is, matched => do
    let d ← load (slot DST i)
    let r ← load (slot SRC i)
    compare is (if d = r then matched + 1 else matched)

/-- What follows the copy, up to the first heartbeat, which is repeated for ever. -/
def report (err : Int) : Mmio Unit := do
  let matched ← compare (List.range N) 0
  let first ← load (slot DST 0)
  store 0x70000004 first
  store 0x7000000C (UInt32.ofInt err)
  store 0x70000000 matched

/-- `main` of `dma_demo.c`. -/
def main : Mmio Unit := do
  let _ ← dmaInit
  storeAll FILL
  let err ← dmaCopy DST SRC (UInt32.ofNat N)
  report err

/-! ## The channel -/

/-- Channel 0 and its partition. `left` moves of a transaction are still to be made, from
`src` to `dst`. -/
structure Channel where
  state : UInt32
  owner : Bool
  regs : UInt32 → UInt32
  left : Nat
  src : UInt32
  dst : UInt32
  ich : Bool
  rpErr : UInt32
  dmaErr : UInt32

/-- The registers behind the protection. -/
def PROTECTED : List UInt32 := [HRR0, RP0_MODE, CH0_SADR, CH0_DADR, CH0_ADICR, CH0_CHCFGR]

namespace Channel

/-- The clock is on, the channel belongs to the partition, which is in use, and one request
moves all of its words from one buffer to another. No other setting is used. -/
def Ready (c : Channel) : Prop :=
  c.regs DMA0_CLC = 0 ∧ c.state = RUN ∧ c.regs HRR0 = bit 4 ∧ c.regs RP0_MODE = bit 31 ∧
    c.regs CH0_ADICR = bit 3 ||| bit 7 ∧ c.regs CH0_CHCFGR &&& ~~~TREL = bit 19 ||| WIDTH_32

instance (c : Channel) : Decidable c.Ready := by
  unfold Ready
  infer_instance

def put (c : Channel) (a v : UInt32) : Channel :=
  { c with regs := fun x => if x = a then v else c.regs x }

/-- A trigger starts a transaction of as many words as the reload value says. It leaves the
flag that says that one is through. -/
def write (c : Channel) (a v : UInt32) : Channel :=
  if a = RP0_PROT then
    { c with
      state := if v &&& bit 3 ≠ 0 then v &&& 7 else c.state
      owner := if v &&& bit 31 ≠ 0 then v &&& bit 30 ≠ 0 else c.owner }
  else if a ∈ PROTECTED then
    if c.state = CONFIG ∨ ¬ c.owner then c.put a v else c
  else if a = CH0_CHCSR then
    if v &&& bit 31 ≠ 0 ∧ c.Ready then
      { c with
        left := (c.regs CH0_CHCFGR &&& TREL).toNat
        src := c.regs CH0_SADR
        dst := c.regs CH0_DADR }
    else c
  else c.put a v

end Channel

structure Chip where
  soc : Soc
  channel : Channel

/-- The channel moves a word, with its own tag as a master, or it stops with an error. -/
inductive Moves (dma : Nat) (s : Chip) : Chip → Prop
  | move {soc : Soc} {n : Nat} (hleft : s.channel.left = n + 1)
      (hstore : bus dma s.soc (.write s.channel.dst (s.soc.word s.channel.src)) () soc) :
      Moves dma s ⟨soc, { s.channel with
        left := n, src := s.channel.src + 4, dst := s.channel.dst + 4
        ich := n == 0 || s.channel.ich }⟩
  | fail {rp err : UInt32} {ich : Bool} (hleft : s.channel.left ≠ 0) (herr : rp ||| err ≠ 0) :
      Moves dma s ⟨s.soc, { s.channel with left := 0, ich := ich, rpErr := rp, dmaErr := err }⟩

/-- The accesses of the CPU. -/
def Chip.access (cpu : Nat) : Env MmioSig Chip
  | s, .read a, r, s' => s' = s ∧ (Lmu.InWindow a → r = s.soc.lmu.words a) ∧
      (a = CH0_CHCSR → ((show UInt32 from r) &&& bit 18 ≠ 0 ↔ s.channel.ich = true)) ∧
      (a = RP0_ERRSR → r = s.channel.rpErr) ∧ (a = DMA0_ERRSR → r = s.channel.dmaErr)
  | s, .write a v, u, s' => bus cpu s.soc (.write a v) u s'.soc ∧ s'.channel = s.channel.write a v

/-- The CPU, and the channel beside it. -/
def chip (dma cpu : Nat) : Env MmioSig Chip := interleave (Moves dma) (Chip.access cpu)

/-! ## The words that are moved -/

/-- The memory after `k` moves, each of which finds what the ones before have left. -/
def moved (src dst : UInt32) : Nat → (UInt32 → UInt32) → UInt32 → UInt32
  | 0, w => w
  | k + 1, w => Function.update (moved src dst k w) (slot dst k) (moved src dst k w (slot src k))

/-- Outside of the destination nothing changes. -/
theorem moved_outside (src dst : UInt32) {k : Nat} {a : UInt32} (ha : ∀ i < k, slot dst i ≠ a)
    (w : UInt32 → UInt32) : moved src dst k w a = w a := by
  induction k with
  | zero => rfl
  | succ k ih =>
    rw [moved, Function.update_of_ne (ha k (Nat.lt_succ_self k)).symm]
    exact ih fun i hi => ha i (by omega)

/-- Buffers that do not overlap are copied. -/
theorem moved_copies {src dst : UInt32} {n : Nat}
    (happart : ∀ i < n, ∀ j < n, slot dst i ≠ slot src j)
    (hinj : ∀ i < n, ∀ j < n, slot dst i = slot dst j → i = j) (w : UInt32 → UInt32) {i : Nat}
    (hi : i < n) : moved src dst n w (slot dst i) = w (slot src i) := by
  have hprefix : ∀ k ≤ n, i < k → moved src dst k w (slot dst i) = w (slot src i) := by
    intro k
    induction k with
    | zero => exact fun _ h => absurd h (Nat.not_lt_zero i)
    | succ k ih =>
      intro hk hik
      rw [moved]
      by_cases heq : i = k
      · subst heq
        rw [Function.update_self]
        exact moved_outside src dst (fun j hj => happart j (by omega) i hi) w
      · rw [Function.update_of_ne fun h => heq (hinj i hi k (by omega) h)]
        exact ih (by omega) (by omega)
  exact hprefix n (Nat.le_refl n) hi

/-! ## The setup -/

/-- The channel when it is triggered. -/
structure Armed (dst src words : UInt32) (c₀ c : Channel) : Prop where
  ready : c.Ready
  reload : (c.regs CH0_CHCFGR &&& TREL).toNat = words.toNat
  source : c.regs CH0_SADR = src
  target : c.regs CH0_DADR = dst
  left : c.left = c₀.left
  ich : c.ich = c₀.ich
  errors : c.rpErr = c₀.rpErr ∧ c.dmaErr = c₀.dmaErr

/-- The settings are put in one field, and the reload value in the other. -/
theorem config_fields {words : UInt32} (hwords : words.toNat ≤ 16383) :
    ((words &&& TREL) ||| bit 19 ||| WIDTH_32) &&& TREL = words ∧
      ((words &&& TREL) ||| bit 19 ||| WIDTH_32) &&& ~~~TREL = bit 19 ||| WIDTH_32 := by
  have happart : ∀ i < 32, bitOf (bit 19 ||| WIDTH_32) i = true → bitOf TREL i = false := by decide
  have hmask : words &&& TREL = words := by
    have hones : TREL.toNat = 2 ^ 14 - 1 := rfl
    rw [← UInt32.toNat_inj, UInt32.toNat_and, hones, Nat.and_two_pow_sub_one_eq_mod]
    exact Nat.mod_eq_of_lt (by omega)
  rw [UInt32.or_assoc]
  generalize bit 19 ||| WIDTH_32 = c at happart
  constructor
  · apply word_eq_of_bits
    intro i hi
    have hword := congrArg (bitOf · i) hmask
    simp only [bitOf_and, bitOf_or] at hword ⊢
    cases hc : bitOf c i with
    | true => simpa [happart i hi hc] using hword
    | false => simpa using hword
  · apply word_eq_of_bits
    intro i hi
    simp only [bitOf_and, bitOf_or, bitOf_not _ hi]
    cases hc : bitOf c i with
    | true => simp [happart i hi hc]
    | false => simp

theorem setup_armed (dst src : UInt32) {words : UInt32} (hwords : words.toNat ≤ 16383)
    (c : Channel) :
    Armed dst src words c ((setup dst src words).foldl (fun c w => c.write w.1 w.2) c) := by
  obtain ⟨htrel, hmoves⟩ := config_fields hwords
  have hregs : ((setup dst src words).foldl (fun c w => c.write w.1 w.2) c).regs CH0_CHCFGR =
      (words &&& TREL) ||| bit 19 ||| WIDTH_32 := rfl
  refine ⟨⟨rfl, rfl, rfl, rfl, rfl, ?_⟩, ?_, rfl, rfl, rfl, rfl, rfl, rfl⟩
  · rw [hregs, hmoves]
  · rw [hregs, htrel]

section
variable {dma cpu : Nat} {X : Empty → Chip → Prop} {src dst words : UInt32}

/-- A channel without a transaction does nothing. -/
theorem access_idle {s s' : Chip} {o : MmioSig.Op} {r : MmioSig.Res o} (hs : s.channel.left = 0)
    (h : chip dma cpu s o r s') : Chip.access cpu s o r s' := by
  have hstable : Stable (Moves dma) fun t => t.channel.left = 0 ∧ t = s := by
    rintro t t' ⟨hnone, -⟩ hstep
    cases hstep with
    | move hleft => rw [hnone] at hleft; cases hleft
    | fail hleft => exact absurd hnone hleft
  obtain ⟨t, ⟨-, rfl⟩, hE⟩ := interleave_cases hstable ⟨hs, rfl⟩ h
  exact hE

theorem write_left (c : Channel) {a : UInt32} (ha : a ≠ CH0_CHCSR) (v : UInt32) :
    (c.write a v).left = c.left := by
  unfold Channel.write
  split
  · rfl
  · split
    · split <;> rfl
    · rfl

theorem setup_plain (dst src words : UInt32) : ∀ w ∈ setup dst src words,
    Plain w.1 ∧ w.1 ≠ CH0_CHCSR := by
  intro w hw
  have hall : ((setup dst src words).map Prod.fst).all (fun a =>
      decide (0xB0480000 ≤ a.toNat ∧ a.toNat < 0xFB000000 ∧ a ≠ CH0_CHCSR)) = true := rfl
  obtain ⟨hlow, hhigh, hne⟩ :=
    of_decide_eq_true (List.all_eq_true.mp hall w.1 (List.mem_map_of_mem hw))
  exact ⟨plain_reg hlow hhigh, hne⟩

/-- What holds while the writes `ws` of the setup are left, which end with the channel `c`. -/
structure Setting (ws : List (UInt32 × UInt32)) (lmu : Lmu.Memory) (c : Channel) (s : Chip) :
    Prop where
  lmu : s.soc.lmu = lmu
  left : s.channel.left = 0
  ends : ws.foldl (fun c w => c.write w.1 w.2) s.channel = c
  plain : ∀ w ∈ ws, Plain w.1 ∧ w.1 ≠ CH0_CHCSR

theorem wp_setup (hwords : words.toNat ≤ 16383) {s : Chip} (hleft : s.channel.left = 0) :
    (storeAll (setup dst src words)).wp (chip dma cpu) (fun _ s' => s'.soc.lmu = s.soc.lmu ∧
      Armed dst src words s.channel s'.channel) X s := by
  have harmed := setup_armed dst src hwords s.channel
  generalize hc : (setup dst src words).foldl (fun c w => c.write w.1 w.2) s.channel = c at harmed
  have hall : (storeAll (setup dst src words)).wp (chip dma cpu)
      (fun _ s' => Setting [] s.soc.lmu c s') X s := by
    apply Lmu.wp_storeAll (fun ws s' => Setting ws s.soc.lmu c s') ?_ _
      ⟨rfl, hleft, hc, setup_plain dst src words⟩
    intro a v ws s₁ u s₂ h hE
    obtain ⟨hbus, hchannel⟩ := access_idle h.left hE
    obtain ⟨hplain, hne⟩ := h.plain _ List.mem_cons_self
    have hsoc := bus_plain hbus hplain
    refine ⟨?_, ?_, ?_, fun w hw => h.plain w (List.mem_cons_of_mem _ hw)⟩
    · rw [hsoc]
      exact h.lmu
    · rw [hchannel, write_left _ hne]
      exact h.left
    · rw [hchannel]
      exact h.ends
  apply wp_mono _ ?_ (fun _ _ h => h) hall
  intro _ s' h
  refine ⟨h.lmu, ?_⟩
  have hend : s'.channel = c := h.ends
  rw [hend]
  exact harmed

/-! ## The transaction -/

/-- The channel has made `k` moves of `n`, and goes on or has stopped with an error. -/
inductive At (src dst : UInt32) (n k : Nat) (c : Channel) : Prop
  | going (hleft : c.left = n - k) (hsrc : c.src = slot src k) (hdst : c.dst = slot dst k)
      (hich : c.ich = true ↔ k = n)
  | failed (hleft : c.left = 0) (herr : c.rpErr ||| c.dmaErr ≠ 0)

/-- A transaction on the memory `w`. -/
structure Copying (src dst : UInt32) (n : Nat) (w : UInt32 → UInt32) (k : Nat) (s : Chip) :
    Prop where
  opened : s.soc.lmu.apu.Open
  le : k ≤ n
  words : s.soc.lmu.words = moved src dst k w
  channel : At src dst n k s.channel

variable {n : Nat} {w : UInt32 → UInt32}

theorem moves_copying (hdma : dma < 64)
    (hwindow : ∀ i < n, Lmu.InWindow (slot src i) ∧ Lmu.InWindow (slot dst i)) :
    Stable (Moves dma) fun s => ∃ k, Copying src dst n w k s := by
  rintro s s' ⟨k, hopen, hle, hw, hat⟩ hstep
  cases hstep with
  | @move soc m hleft hstore =>
    cases hat with
    | failed hnone _ =>
      rw [hnone] at hleft
      cases hleft
    | going hrest hsrc hdst hich =>
      have hk : k < n := by omega
      obtain ⟨hin, hout⟩ := hwindow k hk
      rw [hdst, hsrc, Soc.word, if_pos hin] at hstore
      have hsoc := bus_window hstore hdma hopen hout
      subst hsoc
      refine ⟨k + 1, hopen, hk, ?_, .going ?_ ?_ ?_ ?_⟩
      · rw [moved, ← hw]
      · show m = n - (k + 1)
        omega
      · show s.channel.src + 4 = _
        rw [hsrc, slot_succ]
      · show s.channel.dst + 4 = _
        rw [hdst, slot_succ]
      · show (m == 0 || s.channel.ich) = true ↔ _
        have hnot : s.channel.ich = false := by
          rw [Bool.eq_false_iff]
          intro htrue
          exact absurd (hich.mp htrue) (by omega)
        rw [hnot, Bool.or_false, beq_iff_eq]
        omega
  | fail hleft herr => exact ⟨k, hopen, hle, hw, .failed rfl herr⟩

/-- When the flag is set nothing more is moved. -/
theorem At.ended {k : Nat} {c : Channel} (h : At src dst n k c) (hich : c.ich = true) :
    c.left = 0 := by
  cases h with
  | going hleft _ _ hend =>
    rw [hleft, hend.mp hich]
    exact Nat.sub_self n
  | failed hleft _ => exact hleft

/-- Without an error, all is moved. -/
theorem At.all {k : Nat} {c : Channel} (h : At src dst n k c) (hleft : c.left = 0) (hk : k ≤ n)
    (herr : c.rpErr ||| c.dmaErr = 0) : k = n := by
  cases h with
  | going hrest => omega
  | failed _ hfailed => exact absurd herr hfailed

/-- What a call leaves. If it reports success, all words have been moved. -/
structure Copied (dst src words : UInt32) (w : UInt32 → UInt32) (rc : Int) (s : Chip) : Prop where
  reports : rc = 0 ∨ rc = 1
  copying : ∃ k, Copying src dst words.toNat w k s
  all : rc = 0 → s.channel.left = 0 ∧ s.soc.lmu.words = moved src dst words.toNat w

theorem wp_poll_copying (hdma : dma < 64)
    (hwindow : ∀ i < n, Lmu.InWindow (slot src i) ∧ Lmu.InWindow (slot dst i)) (polls : Nat)
    {s : Chip} (hs : ∃ k, Copying src dst n w k s) :
    (poll CH0_CHCSR (fun r => r &&& bit 18 != 0) polls).wp (chip dma cpu)
      (fun done s' => (∃ k, Copying src dst n w k s') ∧ (done = true → s'.channel.left = 0))
      X s := by
  induction polls generalizing s with
  | zero => exact ⟨hs, nofun⟩
  | succ m ih =>
    rw [poll, wp_bind, DataFlash.wp_load]
    intro r s' hE
    obtain ⟨s₁, ⟨k, hs₁⟩, rfl, -, hflag, -⟩ := interleave_cases (moves_copying hdma hwindow) hs hE
    split
    · rename_i hdone
      have hich := (hflag rfl).mp (bne_iff_ne.mp hdone)
      exact ⟨⟨k, hs₁⟩, fun _ => hs₁.channel.ended hich⟩
    · exact ih ⟨k, hs₁⟩

/-- The two error registers, when nothing moves any more. -/
theorem wp_errors {k : Nat} {s : Chip} (hs : Copying src dst n w k s) (hleft : s.channel.left = 0) :
    errors.wp (chip dma cpu) (fun rc s' => s' = s ∧ (rc = 1 ∨ rc = 0 ∧ k = n) ∧
      (s.channel.rpErr ||| s.channel.dmaErr = 0 → rc = 0)) X s := by
  rw [errors, wp_bind, DataFlash.wp_load]
  intro rp s' hE
  obtain ⟨rfl, -, -, hrp, -⟩ := access_idle hleft hE
  rw [wp_bind, DataFlash.wp_load]
  intro err s'' hE'
  obtain ⟨rfl, -, -, -, herr⟩ := access_idle hleft hE'
  obtain rfl := hrp rfl
  obtain rfl := herr rfl
  split
  · rename_i hsome
    exact ⟨rfl, .inl rfl, fun hnone => absurd hnone hsome⟩
  · rename_i hnone
    have hk : k = n := hs.channel.all hleft hs.le (not_not.mp hnone)
    exact ⟨rfl, .inr ⟨rfl, hk⟩, fun _ => rfl⟩

/-- The trigger starts the transaction. -/
theorem trigger_copying {c : Channel} {s s' : Chip} (hwords : words.toNat ≠ 0)
    (hopen : s.soc.lmu.apu.Open) (hleft : c.left = 0) (hich : c.ich = false)
    (harmed : Armed dst src words c s.channel) {u : Unit}
    (hE : chip dma cpu s (.write CH0_CHCSR (bit 31)) u s') :
    Copying src dst words.toNat s.soc.lmu.words 0 s' ∧
      s'.channel.rpErr = c.rpErr ∧ s'.channel.dmaErr = c.dmaErr := by
  have hnone : s.channel.left = 0 := harmed.left.trans hleft
  obtain ⟨hbus, hchannel⟩ := access_idle hnone hE
  have hsoc := bus_plain hbus (plain_reg (by decide) (by decide))
  have hstart : s.channel.write CH0_CHCSR (bit 31) = { s.channel with
      left := (s.channel.regs CH0_CHCFGR &&& TREL).toNat
      src := s.channel.regs CH0_SADR
      dst := s.channel.regs CH0_DADR } := by
    have hscheduled : bit 31 &&& bit 31 ≠ 0 := by decide
    rw [Channel.write, if_neg (by decide), if_neg (by decide), if_pos rfl,
      if_pos ⟨hscheduled, harmed.ready⟩]
  rw [hstart, harmed.reload, harmed.source, harmed.target] at hchannel
  obtain ⟨soc, channel⟩ := s'
  dsimp only at hsoc hchannel
  subst hsoc hchannel
  refine ⟨⟨hopen, Nat.zero_le _, rfl, .going rfl ?_ ?_ ?_⟩, harmed.errors⟩
  · simp [slot]
  · simp [slot]
  · show s.channel.ich = true ↔ 0 = words.toNat
    rw [harmed.ich, hich]
    exact iff_of_false Bool.false_ne_true fun h => hwords h.symm

theorem wp_start (hwords : 1 ≤ words.toNat ∧ words.toNat ≤ 16383) {s : Chip}
    (hopen : s.soc.lmu.apu.Open) (hleft : s.channel.left = 0) (hich : s.channel.ich = false) :
    (start dst src words).wp (chip dma cpu)
      (fun _ s' => Copying src dst words.toNat s.soc.lmu.words 0 s' ∧
        s'.channel.rpErr = s.channel.rpErr ∧ s'.channel.dmaErr = s.channel.dmaErr) X s := by
  rw [start, wp_bind]
  apply wp_mono _ ?_ (fun _ _ h => h) (wp_setup hwords.2 hleft)
  rintro _ s₁ ⟨hlmu, harmed⟩
  rw [← hlmu] at hopen ⊢
  intro u s₂ hE
  exact trigger_copying (by omega) hopen hleft hich harmed hE

theorem wp_finish (hdma : dma < 64)
    (hwindow : ∀ i < words.toNat, Lmu.InWindow (slot src i) ∧ Lmu.InWindow (slot dst i)) {s : Chip}
    (hs : ∃ k, Copying src dst words.toNat w k s) :
    finish.wp (chip dma cpu) (Copied dst src words w) X s := by
  rw [finish, wp_bind]
  apply wp_mono _ ?_ (fun _ _ h => h) (wp_poll_copying hdma hwindow POLLS hs)
  rintro done s₁ ⟨⟨k, hs₁⟩, hend⟩
  cases done with
  | false => exact ⟨.inr rfl, ⟨k, hs₁⟩, nofun⟩
  | true =>
    have hnone := hend rfl
    apply wp_mono _ ?_ (fun _ _ h => h) (wp_errors hs₁ hnone)
    rintro rc s₂ ⟨rfl, hrc, -⟩
    rcases hrc with rfl | ⟨rfl, rfl⟩
    · exact ⟨.inr rfl, ⟨k, hs₁⟩, nofun⟩
    · exact ⟨.inl rfl, ⟨_, hs₁⟩, fun _ => ⟨hnone, hs₁.words⟩⟩

theorem wp_dmaCopy (hdma : dma < 64) (hwords : 1 ≤ words.toNat ∧ words.toNat ≤ 16383)
    (hwindow : ∀ i < words.toNat, Lmu.InWindow (slot src i) ∧ Lmu.InWindow (slot dst i)) {s : Chip}
    (hopen : s.soc.lmu.apu.Open) (hleft : s.channel.left = 0) (hich : s.channel.ich = false) :
    (dmaCopy dst src words).wp (chip dma cpu) (Copied dst src words s.soc.lmu.words) X s := by
  rw [dmaCopy, wp_bind]
  apply wp_mono _ ?_ (fun _ _ h => h) (wp_start hwords hopen hleft hich)
  exact fun _ s₁ hs₁ => wp_finish hdma hwindow ⟨0, hs₁.1⟩

end

def Chip.answer (s : Chip) (a : UInt32) : UInt32 :=
  if a = CH0_CHCSR then if s.channel.ich then bit 18 else 0
  else if a = RP0_ERRSR then s.channel.rpErr
  else if a = DMA0_ERRSR then s.channel.dmaErr
  else s.soc.lmu.words a

def Chip.serve (cpu : Nat) (s : Chip) : (o : MmioSig.Op) → MmioSig.Res o × Chip
  | .read a => (s.answer a, s)
  | .write a v => ((), ⟨(s.soc.serve cpu (.write a v)).2, s.channel.write a v⟩)

theorem chip_serve (dma cpu : Nat) (s : Chip) (o : MmioSig.Op) :
    chip dma cpu s o (s.serve cpu o).1 (s.serve cpu o).2 := by
  refine ⟨s, .refl, ?_⟩
  cases o with
  | read a =>
    have hout : ¬ Lmu.InWindow CH0_CHCSR ∧ ¬ Lmu.InWindow RP0_ERRSR ∧
        ¬ Lmu.InWindow DMA0_ERRSR := by
      decide
    refine ⟨rfl, fun ha => ?_, fun ha => ?_, fun ha => ?_, fun ha => ?_⟩
    · show s.answer a = _
      rw [Chip.answer, if_neg, if_neg, if_neg]
      · exact fun h => hout.2.2 (h ▸ ha)
      · exact fun h => hout.2.1 (h ▸ ha)
      · exact fun h => hout.1 (h ▸ ha)
    · show s.answer a &&& bit 18 ≠ 0 ↔ _
      rw [Chip.answer, if_pos ha]
      cases s.channel.ich with
      | false => decide
      | true => decide
    · subst ha
      rfl
    · subst ha
      rfl
  | write a v => exact ⟨Smp.bus_serve cpu s.soc (.write a v), rfl⟩

section
variable {dma cpu n : Nat} {src dst words : UInt32} {w : UInt32 → UInt32}

/-- No error is flagged. -/
def Clean (c : Channel) : Prop := c.rpErr = 0 ∧ c.dmaErr = 0

theorem arrives (hdma : dma < 64)
    (hwindow : ∀ i < n, Lmu.InWindow (slot src i) ∧ Lmu.InWindow (slot dst i)) {s : Chip}
    (hs : (∃ k, Copying src dst n w k s) ∧ Clean s.channel) :
    ∃ s', ReflTransGen (Moves dma) s s' ∧ ((∃ k, Copying src dst n w k s') ∧ Clean s'.channel) ∧
      s'.channel.left = 0 := by
  apply exists_arrival (fun s => s.channel.left) ?_ s hs
  intro s ⟨hcopying, hclean⟩ hleft
  obtain ⟨m, hm⟩ := Nat.exists_eq_succ_of_ne_zero hleft
  have hstep : Moves dma s _ :=
    .move hm (Smp.bus_serve dma s.soc (.write s.channel.dst (s.soc.word s.channel.src)))
  refine ⟨_, hstep, ⟨moves_copying hdma hwindow s _ hcopying hstep, hclean⟩, ?_⟩
  rw [hm]
  exact Nat.lt_succ_self m

/-- A transaction that is through is reported at the first poll. -/
theorem wp_finish_ended {s : Chip} {k : Nat} (hs : Copying src dst n w k s)
    (hclean : Clean s.channel) (hleft : s.channel.left = 0) :
    finish.wp (chip dma cpu) (fun rc _ => rc = 0) (fun _ _ => True) s := by
  have hnone : s.channel.rpErr ||| s.channel.dmaErr = 0 := by
    rw [hclean.1, hclean.2]
    rfl
  have hich : s.channel.ich = true := by
    cases hs.channel with
    | going hrest _ _ hend =>
      have hle := hs.le
      exact hend.mpr (by omega)
    | failed _ herr => exact absurd hnone herr
  have hpolls : POLLS = 3999999 + 1 := rfl
  rw [finish, hpolls, poll, wp_bind, wp_bind, DataFlash.wp_load]
  intro r s' hE
  obtain ⟨rfl, -, hflag, -⟩ := access_idle hleft hE
  rw [if_pos (bne_iff_ne.mpr ((hflag rfl).mpr hich))]
  apply wp_mono _ ?_ (fun _ _ h => h) (wp_errors hs hleft)
  exact fun _ _ h => h.2.2 hnone

/-- The call can succeed. -/
theorem dmaCopy_can (hdma : dma < 64) (hwords : 1 ≤ words.toNat ∧ words.toNat ≤ 16383)
    (hwindow : ∀ i < words.toNat, Lmu.InWindow (slot src i) ∧ Lmu.InWindow (slot dst i)) {s : Chip}
    (hopen : s.soc.lmu.apu.Open) (hleft : s.channel.left = 0) (hich : s.channel.ich = false)
    (hclean : Clean s.channel) :
    ∃ s', Runs (chip dma cpu) (dmaCopy dst src words) s (.ok 0) s' := by
  obtain ⟨u, s₁, hstart⟩ := runs_ok _ _ (chip_serve dma cpu) (start dst src words) s
  obtain ⟨hs₁, hrp, herr⟩ :=
    (hstart.sound _ (wp_start (X := fun _ _ => True) hwords hopen hleft hich)).1 u rfl
  have hclean₁ : Clean s₁.channel := ⟨hrp.trans hclean.1, herr.trans hclean.2⟩
  obtain ⟨s₂, hsteps, ⟨⟨k, hs₂⟩, hclean₂⟩, hleft₂⟩ := arrives hdma hwindow ⟨⟨0, hs₁⟩, hclean₁⟩
  obtain ⟨rc, s₃, hfinish⟩ := runs_ok _ _ (chip_serve dma cpu) finish s₂
  obtain rfl : rc = 0 := (hfinish.sound _ (wp_finish_ended hs₂ hclean₂ hleft₂)).1 rc rfl
  exact ⟨s₃, hstart.bind (Runs.later hsteps hfinish)⟩

end

/-- The protection unit after `dma_init`. -/
def openApu : Lmu.Apu :=
  Lmu.LMU_GRANT.foldl (fun c w => c.write w.1 w.2) ⟨0, false, fun _ => 0, fun _ => 0⟩

/-- The channel before the first call. -/
def idleChip : Chip :=
  ⟨⟨⟨openApu, fun a => a⟩, fun _ => 0⟩, ⟨0, false, fun _ => 0, 0, 0, 0, false, 0, 0⟩⟩

theorem toNat_buffers {i : Nat} (hi : i < N) :
    (slot SRC i).toNat = 0xB0400000 + 4 * i ∧ (slot DST i).toNat = 0xB0401000 + 4 * i := by
  have hi' : i < 64 := hi
  have hsrc : SRC.toNat = 0xB0400000 := rfl
  have hdst : DST.toNat = 0xB0401000 := rfl
  rw [toNat_slot (by omega), toNat_slot (by omega), hsrc, hdst]
  exact ⟨rfl, rfl⟩

theorem buffers_window : ∀ i < N, Lmu.InWindow (slot SRC i) ∧ Lmu.InWindow (slot DST i) := by
  intro i hi
  have hi' : i < 64 := hi
  obtain ⟨hsrc, hdst⟩ := toNat_buffers hi
  simp only [Lmu.InWindow, UInt32.le_iff_toNat_le, UInt32.lt_iff_toNat_lt, UInt32.reduceToNat]
  omega

theorem buffers_apart : ∀ i < N, ∀ j < N, slot DST i ≠ slot SRC j := by
  intro i hi j hj heq
  have hj' : j < 64 := hj
  have hnat := congrArg UInt32.toNat heq
  rw [(toNat_buffers hi).2, (toNat_buffers hj).1] at hnat
  omega

theorem dst_inj : ∀ i < N, ∀ j < N, slot DST i = slot DST j → i = j := by
  intro i hi j hj heq
  have hnat := congrArg UInt32.toNat heq
  rw [(toNat_buffers hi).2, (toNat_buffers hj).2] at hnat
  omega

section
variable {dma cpu : Nat} {X : Empty → Chip → Prop} {rc : Int} {w : UInt32 → UInt32}

/-- No transaction has been made. -/
def Quiet (s : Chip) : Prop := s.channel.left = 0 ∧ s.channel.ich = false

theorem write_ich (c : Channel) (a v : UInt32) : (c.write a v).ich = c.ich := by
  unfold Channel.write
  split
  · rfl
  · split
    · split <;> rfl
    · split
      · split <;> rfl
      · rfl

theorem Quiet.write {s s' : Chip} (h : Quiet s) {a v : UInt32} (ha : a ≠ CH0_CHCSR)
    (hchannel : s'.channel = s.channel.write a v) : Quiet s' := by
  rw [Quiet, hchannel, write_left _ ha, write_ich]
  exact h

theorem grant_ne_chcsr : ∀ x ∈ Lmu.LMU_GRANT, x.1 ≠ CH0_CHCSR := by
  intro x hx heq
  have hhigh := Smp.grant_high x hx
  rw [heq] at hhigh
  exact absurd hhigh (by decide)

theorem wp_dmaInit {s : Chip} (hs : Quiet s) :
    dmaInit.wp (chip dma cpu) (fun _ s' => Quiet s' ∧ s'.soc.lmu.apu.Open) X s := by
  rw [dmaInit, wp_bind, lmuGrant]
  apply wp_mono _ ?_ (fun _ _ h => h) (Lmu.wp_storeAll
    (fun ws s => Quiet s ∧ (∀ x ∈ ws, x.1 ≠ CH0_CHCSR) ∧
      (ws.foldl (fun c w => c.write w.1 w.2) s.soc.lmu.apu).Open) ?_ _
    ⟨hs, grant_ne_chcsr, Lmu.granted s.soc.lmu.apu⟩)
  · exact fun _ s' h => ⟨h.1, h.2.2⟩
  · rintro a v ws s u s' ⟨hquiet, hne, hopen⟩ hE
    obtain ⟨⟨hstores, -⟩, hchannel⟩ := access_idle hquiet.1 hE
    refine ⟨hquiet.write (hne _ List.mem_cons_self) hchannel,
      fun x hx => hne x (List.mem_cons_of_mem _ hx), ?_⟩
    rw [hstores.apu]
    exact hopen

/-- The source holds the pattern. -/
def Filled (w : UInt32 → UInt32) : Prop := ∀ i < N, w (slot SRC i) = pattern i

theorem fill_filled (w : UInt32 → UInt32) : Filled (assignAll FILL w) := by
  intro i hi
  have hmem : (slot SRC i, pattern i) ∈ FILL :=
    List.mem_flatMap.mpr ⟨i, List.mem_range.mpr hi, List.mem_cons_self⟩
  refine assignAll_of_agree ⟨_, hmem, rfl⟩ ?_ w
  intro x hx heq
  obtain ⟨j, hj, hx⟩ := List.mem_flatMap.mp hx
  have hj' := List.mem_range.mp hj
  simp only [List.mem_cons, List.not_mem_nil, or_false] at hx
  rcases hx with rfl | rfl
  · have hnat := congrArg UInt32.toNat heq
    dsimp only at hnat
    rw [(toNat_buffers hj').1, (toNat_buffers hi).1] at hnat
    rw [show j = i by omega]
  · exact absurd heq (buffers_apart j hj' i hi)

/-- What holds while the writes `ws` of the fill are left. -/
structure Filling (ws : List (UInt32 × UInt32)) (s : Chip) : Prop where
  quiet : Quiet s
  opened : s.soc.lmu.apu.Open
  window : ∀ x ∈ ws, Lmu.InWindow x.1
  filled : Filled (assignAll ws s.soc.lmu.words)

theorem fill_window : ∀ x ∈ FILL, Lmu.InWindow x.1 := by
  intro x hx
  obtain ⟨i, hi, hx⟩ := List.mem_flatMap.mp hx
  obtain ⟨hsrc, hdst⟩ := buffers_window i (List.mem_range.mp hi)
  simp only [List.mem_cons, List.not_mem_nil, or_false] at hx
  rcases hx with rfl | rfl
  · exact hsrc
  · exact hdst

theorem window_ne_chcsr {a : UInt32} (h : Lmu.InWindow a) : a ≠ CH0_CHCSR := by
  rintro rfl
  exact absurd h (by decide)

theorem wp_fill (hcpu : cpu < 64) {s : Chip} (hs : Quiet s) (hopen : s.soc.lmu.apu.Open) :
    (storeAll FILL).wp (chip dma cpu) (fun _ s' => Filling [] s') X s := by
  apply Lmu.wp_storeAll Filling ?_ FILL ⟨hs, hopen, fill_window, fill_filled _⟩
  intro a v ws s u s' h hE
  obtain ⟨hbus, hchannel⟩ := access_idle h.quiet.1 hE
  have ha := h.window _ List.mem_cons_self
  have hsoc := bus_window hbus hcpu h.opened ha
  have hquiet := h.quiet.write (window_ne_chcsr ha) hchannel
  have hwindow : ∀ x ∈ ws, Lmu.InWindow x.1 := fun x hx => h.window x (List.mem_cons_of_mem _ hx)
  obtain ⟨soc, channel⟩ := s'
  dsimp only at hsoc
  subst hsoc
  exact ⟨hquiet, h.opened, hwindow, h.filled⟩

/-- What holds after the call, which has returned `rc`. `P` is about what has been reported. -/
structure After (rc : Int) (w : UInt32 → UInt32) (P : (UInt32 → UInt32) → Prop) (s : Chip) :
    Prop where
  copying : ∃ k, Copying SRC DST N w k s
  all : rc = 0 → s.channel.left = 0 ∧ s.soc.lmu.words = moved SRC DST N w
  reported : P s.soc.words

variable {P Q : (UInt32 → UInt32) → Prop}

theorem moves_words (hdma : dma < 64) {k : Nat} {s s' : Chip} (h : Copying SRC DST N w k s)
    (hstep : Moves dma s s') : s'.soc.words = s.soc.words := by
  cases hstep with
  | fail => rfl
  | move hleft hstore =>
    cases h.channel with
    | failed hnone _ =>
      rw [hnone] at hleft
      cases hleft
    | going hrest _ hdst _ =>
      have hk : k < N := by omega
      rw [hdst] at hstore
      rw [bus_window hstore hdma h.opened (buffers_window k hk).2]

theorem moves_after (hdma : dma < 64) : Stable (Moves dma) (After rc w P) := by
  intro s s' h hstep
  have hcopying := moves_copying hdma buffers_window s s' h.copying hstep
  refine ⟨hcopying, fun hrc => ?_, ?_⟩
  · obtain ⟨hleft, -⟩ := h.all hrc
    cases hstep with
    | move hsome => rw [hleft] at hsome; cases hsome
    | fail hsome => exact absurd hleft hsome
  · obtain ⟨k, hk⟩ := h.copying
    rw [moves_words hdma hk hstep]
    exact h.reported

/-- What a word of a buffer is found to be, once all is copied. -/
theorem wp_load_after (hdma : dma < 64) {a : UInt32} {s : Chip} (hs : After rc w P s) :
    (load a).wp (chip dma cpu) (fun r s' => After rc w P s' ∧
      (rc = 0 → Lmu.InWindow a → r = moved SRC DST N w a)) X s := by
  rw [DataFlash.wp_load]
  intro r s' hE
  obtain ⟨s₁, hs₁, rfl, hr, -⟩ := interleave_cases (moves_after hdma) hs hE
  refine ⟨hs₁, fun hrc ha => ?_⟩
  rw [← (hs₁.all hrc).2]
  exact hr ha

theorem copied_word (w : UInt32 → UInt32) {i : Nat} (hi : i < N) :
    moved SRC DST N w (slot DST i) = w (slot SRC i) ∧
      moved SRC DST N w (slot SRC i) = w (slot SRC i) :=
  ⟨moved_copies buffers_apart dst_inj w hi,
    moved_outside SRC DST (fun j hj => buffers_apart j hj i hi) w⟩

theorem wp_compare (hdma : dma < 64) {is : List Nat} (his : ∀ i ∈ is, i < N) {matched : UInt32}
    {s : Chip} (hs : After rc w P s) :
    (compare is matched).wp (chip dma cpu) (fun m s' => After rc w P s' ∧
      (rc = 0 → m = matched + UInt32.ofNat is.length)) X s := by
  induction is generalizing matched s with
  | nil => exact ⟨hs, fun _ => by simp⟩
  | cons i is ih =>
    have hi := his i List.mem_cons_self
    obtain ⟨hsrc, hdst⟩ := buffers_window i hi
    rw [compare, wp_bind]
    apply wp_mono _ ?_ (fun _ _ h => h) (wp_load_after hdma hs)
    intro d s₁ ⟨hs₁, hd⟩
    rw [wp_bind]
    apply wp_mono _ ?_ (fun _ _ h => h) (wp_load_after hdma hs₁)
    intro r s₂ ⟨hs₂, hr⟩
    apply wp_mono _ ?_ (fun _ _ h => h) (ih (fun j hj => his j (List.mem_cons_of_mem _ hj)) hs₂)
    intro m s₃ ⟨hs₃, hm⟩
    refine ⟨hs₃, fun hrc => ?_⟩
    have hsame : d = r := by
      rw [hd hrc hdst, hr hrc hsrc, (copied_word w hi).1, (copied_word w hi).2]
    rw [hm hrc, if_pos hsame, List.length_cons, UInt32.ofNat_add, UInt32.add_assoc,
      UInt32.add_comm 1]
    rfl

/-- A word that is reported is out of the way of the channel. -/
theorem wp_report (hdma : dma < 64) {a v : UInt32} (ha : a.toNat < 0xB0400000)
    (hPQ : ∀ m, P m → Q (Function.update m a v)) {s : Chip} (hs : After rc w P s) :
    (store a v).wp (chip dma cpu) (fun _ s' => After rc w Q s') X s := by
  intro u s' hE
  obtain ⟨s₁, ⟨⟨k, hk⟩, hall, hP⟩, hbus, hchannel⟩ := interleave_cases (moves_after hdma) hs hE
  have hsoc := bus_plain hbus (plain_low ha)
  have hput : s₁.channel.write a v = s₁.channel.put a v := by
    have hne : ∀ b : UInt32, 0xB0400000 ≤ b.toNat → a ≠ b := by
      rintro b hb rfl
      omega
    rw [Channel.write, if_neg (hne _ (by decide)), if_neg, if_neg (hne _ (by decide))]
    simp only [PROTECTED, List.mem_cons, List.not_mem_nil, or_false]
    rintro (h | h | h | h | h | h)
    all_goals exact hne _ (by decide) h
  rw [hput] at hchannel
  obtain ⟨soc, channel⟩ := s'
  dsimp only at hsoc hchannel
  subst hsoc hchannel
  refine ⟨⟨k, hk.opened, hk.le, hk.words, ?_⟩, hall, hPQ _ hP⟩
  cases hk.channel with
  | going hleft hsrc hdst hich => exact .going hleft hsrc hdst hich
  | failed hleft herr => exact .failed hleft herr

/-- What the words in the memory of CPU0 say at the heartbeat. -/
def Reported (rc : Int) (m : UInt32 → UInt32) : Prop :=
  m 0x7000000C = UInt32.ofInt rc ∧
    (rc = 0 → m 0x70000000 = UInt32.ofNat N ∧ m 0x70000004 = 0xA5000033)

/-- A call of the demo. -/
theorem wp_copyBuffers (hdma : dma < 64) {s : Chip} (hopen : s.soc.lmu.apu.Open) (hs : Quiet s) :
    (dmaCopy DST SRC (UInt32.ofNat N)).wp (chip dma cpu) (fun rc s' => (rc = 0 ∨ rc = 1) ∧
      After rc s.soc.lmu.words (fun _ => True) s') X s := by
  have hn : 1 ≤ (UInt32.ofNat N).toNat ∧ (UInt32.ofNat N).toNat ≤ 16383 := by decide
  apply wp_mono _ ?_ (fun _ _ h => h) (wp_dmaCopy hdma hn buffers_window hopen hs.1 hs.2)
  exact fun rc s' h => ⟨h.reports, h.copying, h.all, trivial⟩

theorem wp_reportAll (hdma : dma < 64) (hw : Filled w) {s : Chip} (hs : After rc w P s) :
    (report rc).wp (chip dma cpu) (fun _ s' => After rc w (Reported rc) s') X s := by
  obtain ⟨hword, herr, hcount⟩ : (0x70000004 : UInt32).toNat < 0xB0400000 ∧
      (0x7000000C : UInt32).toNat < 0xB0400000 ∧ (0x70000000 : UInt32).toNat < 0xB0400000 := by
    decide
  rw [report, wp_bind]
  apply wp_mono _ ?_ (fun _ _ h => h) (wp_compare hdma (fun i hi => List.mem_range.mp hi) hs)
  intro matched s₁ ⟨hs₁, hmatched⟩
  rw [wp_bind]
  apply wp_mono _ ?_ (fun _ _ h => h) (wp_load_after hdma hs₁)
  intro first s₂ ⟨hs₂, hload⟩
  have hfirst : rc = 0 → first = 0xA5000033 := by
    intro hrc
    rw [hload hrc (buffers_window 0 (by decide)).2, (copied_word w (by decide)).1, hw 0 (by decide)]
    rfl
  -- the first word, the error, the count
  rw [wp_bind]
  apply wp_mono _ ?_ (fun _ _ h => h) (wp_report (Q := fun m => rc = 0 → m 0x70000004 = 0xA5000033)
    hdma hword ?_ hs₂)
  · intro _ s₃ hs₃
    rw [wp_bind]
    apply wp_mono _ ?_ (fun _ _ h => h) (wp_report
      (Q := fun m => m 0x7000000C = UInt32.ofInt rc ∧ (rc = 0 → m 0x70000004 = 0xA5000033))
      hdma herr ?_ hs₃)
    · intro _ s₄ hs₄
      apply wp_report hdma hcount ?_ hs₄
      intro m ⟨hsaid, htold⟩
      refine ⟨?_, fun hrc => ⟨?_, ?_⟩⟩
      · rw [Function.update_of_ne (by decide), hsaid]
      · rw [Function.update_self, hmatched hrc, List.length_range, UInt32.zero_add]
      · rw [Function.update_of_ne (by decide), htold hrc]
    · intro m htold
      refine ⟨Function.update_self .., fun hrc => ?_⟩
      rw [Function.update_of_ne (by decide), htold hrc]
  · intro m _ hrc
    rw [Function.update_self, hfirst hrc]

theorem wp_main (hdma : dma < 64) (hcpu : cpu < 64) {s : Chip} (hs : Quiet s) :
    main.wp (chip dma cpu) (fun _ s' => ∃ rc w, (rc = 0 ∨ rc = 1) ∧ Filled w ∧
      After rc w (Reported rc) s') X s := by
  rw [main, wp_bind]
  apply wp_mono _ ?_ (fun _ _ h => h) (wp_dmaInit hs)
  intro _ s₁ ⟨hquiet, hopen⟩
  rw [wp_bind]
  apply wp_mono _ ?_ (fun _ _ h => h) (wp_fill hcpu hquiet hopen)
  intro _ s₂ hfilling
  have hfilled : Filled s₂.soc.lmu.words := hfilling.filled
  rw [wp_bind]
  apply wp_mono _ ?_ (fun _ _ h => h) (wp_copyBuffers hdma hfilling.opened hfilling.quiet)
  intro rc s₃ ⟨hrc, hs₃⟩
  apply wp_mono _ ?_ (fun _ _ h => h) (wp_reportAll hdma hfilled hs₃)
  exact fun _ s₄ hs₄ => ⟨rc, _, hrc, hfilled, hs₄⟩

end

section
variable {dma cpu : Nat}

theorem write_clean {c : Channel} (h : Clean c) (a v : UInt32) : Clean (c.write a v) := by
  unfold Channel.write
  split
  · exact h
  · split
    · split <;> exact h
    · split
      · split <;> exact h
      · exact h

/-- Stores that start nothing bring no error. -/
theorem stores_clean {ws : List (UInt32 × UInt32)} (hws : ∀ x ∈ ws, x.1 ≠ CH0_CHCSR) {s s' : Chip}
    (hs : Quiet s ∧ Clean s.channel) {x : Except Empty Unit}
    (hrun : Runs (chip dma cpu) (storeAll ws) s x s') : Clean s'.channel := by
  have hwp : (storeAll ws).wp (chip dma cpu) (fun _ s' => (Quiet s' ∧ Clean s'.channel) ∧
      ∀ x ∈ ([] : List (UInt32 × UInt32)), x.1 ≠ CH0_CHCSR) (fun _ _ => True) s := by
    apply Lmu.wp_storeAll
      (fun ws s => (Quiet s ∧ Clean s.channel) ∧ ∀ x ∈ ws, x.1 ≠ CH0_CHCSR) ?_ ws ⟨hs, hws⟩
    intro a v ws s u s' ⟨⟨hquiet, hclean⟩, hws⟩ hE
    obtain ⟨-, hchannel⟩ := access_idle hquiet.1 hE
    refine ⟨⟨hquiet.write (hws _ List.mem_cons_self) hchannel, ?_⟩,
      fun x hx => hws x (List.mem_cons_of_mem _ hx)⟩
    rw [hchannel]
    exact write_clean hclean a v
  cases x with
  | ok u => exact ((hrun.sound _ hwp).1 u rfl).1.2
  | error e => exact e.elim

/-- The demo can report success. -/
theorem main_can (hdma : dma < 64) (hcpu : cpu < 64) {s : Chip} (hs : Quiet s)
    (hclean : Clean s.channel) :
    ∃ s', Runs (chip dma cpu) main s (.ok ()) s' ∧ s'.soc.words 0x7000000C = 0 := by
  have hn : 1 ≤ (UInt32.ofNat N).toNat ∧ (UInt32.ofNat N).toNat ≤ 16383 := by decide
  obtain ⟨u, s₁, hgrant⟩ := runs_ok _ _ (chip_serve dma cpu) lmuGrant s
  have hinit : Runs (chip dma cpu) dmaInit s (.ok 0) s₁ := hgrant.bind (.ret 0 s₁)
  have hclean₁ := stores_clean grant_ne_chcsr ⟨hs, hclean⟩ hgrant
  obtain ⟨hs₁, hopen₁⟩ := (hinit.sound _ (wp_dmaInit (X := fun _ _ => True) hs)).1 0 rfl
  obtain ⟨_, s₂, hfill⟩ := runs_ok _ _ (chip_serve dma cpu) (storeAll FILL) s₁
  have hclean₂ := stores_clean (fun x hx => window_ne_chcsr (fill_window x hx)) ⟨hs₁, hclean₁⟩ hfill
  have hfilling := (hfill.sound _ (wp_fill (X := fun _ _ => True) hcpu hs₁ hopen₁)).1 _ rfl
  have hfilled : Filled s₂.soc.lmu.words := hfilling.filled
  have hcan : ∃ s₃, Runs (chip dma cpu) (dmaCopy DST SRC (UInt32.ofNat N)) s₂ (.ok 0) s₃ :=
    dmaCopy_can hdma hn buffers_window hfilling.opened hfilling.quiet.1 hfilling.quiet.2 hclean₂
  obtain ⟨s₃, hcopy⟩ := hcan
  obtain ⟨-, hs₃⟩ := (hcopy.sound _
    (wp_copyBuffers (X := fun _ _ => True) hdma hfilling.opened hfilling.quiet)).1 0 rfl
  obtain ⟨_, s₄, hreport⟩ := runs_ok _ _ (chip_serve dma cpu) (report 0) s₃
  have hs₄ := (hreport.sound _ (wp_reportAll (X := fun _ _ => True) hdma hfilled hs₃)).1 _ rfl
  exact ⟨s₄, hinit.bind (hfill.bind (hcopy.bind hreport)), hs₄.reported.1⟩

end

/-- If the demo reports success, then the copy is right: all words are counted, the first
one is shown, and the destination holds the pattern. -/
theorem dma_demo (dma cpu : Nat) (hdma : dma < 64) (hcpu : cpu < 64) (s : Chip) (hs : Quiet s)
    (x : Except Empty Unit) (s' : Chip) (hrun : Runs (chip dma cpu) main s x s')
    (hreport : s'.soc.words 0x7000000C = 0) :
    s'.soc.words 0x70000000 = UInt32.ofNat N ∧ s'.soc.words 0x70000004 = 0xA5000033 ∧
      ∀ i < N, s'.soc.lmu.words (slot DST i) = pattern i := by
  obtain ⟨hok, -⟩ := hrun.sound _ (wp_main (X := fun _ _ => True) hdma hcpu hs)
  have hx : x = .ok () := by
    cases x with
    | ok u => rfl
    | error e => exact e.elim
  obtain ⟨rc, w, hrc, hfilled, -, hall, hsaid, htold⟩ := hok () hx
  obtain rfl : rc = 0 := by
    rcases hrc with rfl | rfl
    · rfl
    · rw [hreport] at hsaid
      exact absurd hsaid (by decide)
  obtain ⟨hcount, hfirst⟩ := htold rfl
  refine ⟨hcount, hfirst, fun i hi => ?_⟩
  rw [(hall rfl).2, (copied_word w hi).1]
  exact hfilled i hi

theorem dma_demo_from_idle : ∃ x s', Runs (chip 2 0) main idleChip x s' ∧
    s'.soc.words 0x70000000 = UInt32.ofNat N ∧ s'.soc.words 0x70000004 = 0xA5000033 ∧
      ∀ i < N, s'.soc.lmu.words (slot DST i) = pattern i := by
  have hquiet : Quiet idleChip := ⟨rfl, rfl⟩
  have hdma : 2 < 64 := by decide
  have hcpu : 0 < 64 := by decide
  obtain ⟨s', hrun, hreport⟩ := main_can hdma hcpu hquiet ⟨rfl, rfl⟩
  exact ⟨_, s', hrun, dma_demo 2 0 hdma hcpu idleChip hquiet _ s' hrun hreport⟩

end OpenTricore.Dma
