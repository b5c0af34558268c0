import Mathlib.Data.List.TakeWhile
import OpenTricore.PpuPrompt

/-! PPU calls on a bus that may fail. Of all accesses only those of the image are
checked. A read of the run state that fails counts as a running core, and a poll for
the reset that never succeeds counts as done, so a call can return 0 with operands that
were not written and with words the core never had. -/

namespace OpenTricore.Ppu
open Lib Lib.Prog

/-! ## The accesses of a call -/

/-- The access failed. -/
def lost : Event BusSig → Bool
  | ⟨.read .., r⟩ => (r : Option UInt32).isNone
  | ⟨.write .., r⟩ => !r

/-- The accesses of a complete image: one for a full word, two for a partial one. -/
def imageAccesses (len : UInt32) : Nat :=
  (len.toNat + 3) / 4 + if len.toNat % 4 = 0 then 0 else 1

section
variable (len nin : UInt32) (tr : List (Event BusSig))

/-- The operands come first. -/
def operandPart : List (Event BusSig) := tr.take nin.toNat

/-- Then the command word and the clock, and the image. -/
def imagePart : List (Event BusSig) := (tr.drop (nin.toNat + 2)).take (imageAccesses len)

/-- The rest is the reset, the start and the tokens. -/
def corePart : List (Event BusSig) := tr.drop (nin.toNat + 2 + imageAccesses len)

end

def isToken : Event BusSig → Bool
  | ⟨.write _ a _, _⟩ => a.address == CMD_WORD.toUInt64
  | ⟨.read .., _⟩ => false

/-- The accesses that follow each token, up to the next one. -/
def rounds : List (Event BusSig) → List (List (Event BusSig))
  | [] => []
  | e :: tr => if isToken e then tr.takeWhile (!isToken ·) :: rounds tr else rounds tr

/-! ## What is heard of the core -/

/-- The answer to a read. -/
def answer : Event BusSig → Option (Option UInt32)
  | ⟨.read .., r⟩ => some r
  | ⟨.write .., _⟩ => none

/-- The run states read in a round. -/
def states (round : List (Event BusSig)) : List (Option UInt32) := round.filterMap answer

@[simp] theorem states_write (c : Core) (a : McdAddr) (v : UInt32) (b : Bool)
    (tr : List (Event BusSig)) : states (⟨.write c a v, b⟩ :: tr) = states tr := rfl

@[simp] theorem states_read (c : Core) (a : McdAddr) (r : Option UInt32)
    (tr : List (Event BusSig)) : states (⟨.read c a, r⟩ :: tr) = r :: states tr := rfl

theorem states_append (tr tr' : List (Event BusSig)) :
    states (tr ++ tr') = states tr ++ states tr' := List.filterMap_append

/-- A read that fails answers 0. -/
def readsHalted (r : Option UInt32) : Bool := r.getD 0 &&& 3 == 2
def readsRunning (r : Option UInt32) : Bool := r.getD 0 &&& 3 == 0

/-- The host takes the bit for a 1. -/
def heard (round : List (Event BusSig)) : Bool := (states round).any readsHalted

/-- The run states after each poke. -/
def pokes (round : List (Event BusSig)) : List (Option UInt32) :=
  ((states round).dropWhile (!readsHalted ·)).tail

/-- None of 40 pokes made the core run. -/
def exhausted (round : List (Event BusSig)) : Bool :=
  (pokes round).length == 40 && (pokes round).all (!readsRunning ·)

/-- The bit that the host takes for token `k`. -/
def heardAt (tr : List (Event BusSig)) (k : Nat) : Bool := heard ((rounds tr).getD k [])

/-- A poll found the kernel reset complete. -/
def ResetSeen (tr : List (Event BusSig)) : Prop :=
  ∃ c a v, (⟨.read c a, some v⟩ : Event BusSig) ∈ tr ∧
    a.address = PPU_RST_STAT.toUInt64 ∧ v &&& 7 = 2

section
variable {tr : List (Event BusSig)}

theorem takeWhile_token (rest : List (Event BusSig)) {e : Event BusSig} (he : isToken e = true) :
    (tr ++ e :: rest).takeWhile (!isToken ·) = tr.takeWhile (!isToken ·) := by
  induction tr with
  | nil => simp [he]
  | cons e' tr ih =>
    rw [List.cons_append, List.takeWhile_cons, List.takeWhile_cons, ih]

theorem rounds_quiet (h : ∀ e ∈ tr, isToken e = false) : rounds tr = [] := by
  induction tr with
  | nil => rfl
  | cons e tr ih =>
    obtain ⟨he, htr⟩ := List.forall_mem_cons.mp h
    rw [rounds, he, if_neg Bool.false_ne_true, ih htr]

/-- A token opens a round. -/
theorem rounds_token (tr : List (Event BusSig)) {rest : List (Event BusSig)} {e : Event BusSig}
    (he : isToken e = true) (h : ∀ e ∈ rest, isToken e = false) :
    rounds (tr ++ e :: rest) = rounds tr ++ [rest] := by
  induction tr with
  | nil =>
    have hall : rest.takeWhile (!isToken ·) = rest := by
      apply List.takeWhile_eq_self_iff.mpr
      intro e he
      rw [h e he]
      rfl
    simp only [List.nil_append, rounds, he, ↓reduceIte, hall, rounds_quiet h]
  | cons e' tr ih =>
    rw [List.cons_append, rounds, rounds, ih, takeWhile_token rest he]
    split <;> rfl

theorem heardAt_append {tr' : List (Event BusSig)} {new : List (List (Event BusSig))}
    (h : rounds tr' = rounds tr ++ new) {k : Nat} (hk : k < (rounds tr).length) :
    heardAt tr' k = heardAt tr k := by
  simp only [heardAt, h, List.getD, List.getElem?_append_left hk]

end

/-! ## One bit -/

/-- No token among the accesses. -/
def Quiet (tr : List (Event BusSig)) : Prop := ∀ e ∈ tr, isToken e = false

theorem Quiet.cons {e : Event BusSig} {tr : List (Event BusSig)} (he : isToken e = false)
    (h : Quiet tr) : Quiet (e :: tr) := List.forall_mem_cons.mpr ⟨he, h⟩

theorem Quiet.append {tr tr' : List (Event BusSig)} (h : Quiet tr) (h' : Quiet tr') :
    Quiet (tr ++ tr') := by
  intro e he
  exact (List.mem_append.mp he).elim (h e) (h' e)

section
variable (t : Target)

/-- The polls up to the one that finds the core halted, or all of them. -/
theorem waitHalted_trace (n : Nat) (tr : List (Event BusSig)) :
    (waitHalted t n).wp anything (fun halted tr' => ∃ polls, tr' = tr ++ polls ∧ Quiet polls ∧
      (halted = true → ∃ init r, states polls = init ++ [r] ∧
        (∀ r ∈ init, readsHalted r = false) ∧ readsHalted r = true) ∧
      (halted = false → ∀ r ∈ states polls, readsHalted r = false)) (fun _ _ => False) tr := by
  induction n generalizing tr with
  | zero => exact ⟨[], by simp, by simp [Quiet], by simp, by simp [states]⟩
  | succ n ih =>
    simp only [waitHalted, wp_bind, wp_ppuRunstate]
    rintro r _ rfl
    split
    · rename_i hr
      exact ⟨[_], rfl, Quiet.cons rfl (by simp [Quiet]),
        fun _ => ⟨[], r, rfl, by simp, beq_iff_eq.mpr hr⟩, by simp⟩
    · rename_i hr
      have hnot : readsHalted r = false := beq_eq_false_iff_ne.mpr hr
      apply wp_mono _ ?_ (fun _ _ h => h) (ih _)
      rintro halted _ ⟨polls, rfl, hquiet, hyes, hno⟩
      refine ⟨_ :: polls, by rw [List.append_assoc]; rfl, hquiet.cons rfl, ?_, ?_⟩
      · intro hhalted
        obtain ⟨init, r', hinit, hall, hr'⟩ := hyes hhalted
        exact ⟨r :: init, r', congrArg (r :: ·) hinit, List.forall_mem_cons.mpr ⟨hnot, hall⟩, hr'⟩
      · exact fun hhalted => List.forall_mem_cons.mpr ⟨hnot, hno hhalted⟩

/-- The pokes up to the one after which the core runs, or all of them. -/
theorem ppuResumeLoop_trace (n : Nat) (tr : List (Event BusSig)) :
    (ppuResumeLoop t n).wp anything (fun resumed tr' => ∃ acc, tr' = tr ++ acc ∧ Quiet acc ∧
      resumed = (states acc).any readsRunning ∧ (resumed = false → (states acc).length = n))
      (fun _ _ => False) tr := by
  induction n generalizing tr with
  | zero => exact ⟨[], by simp, by simp [Quiet], rfl, fun _ => rfl⟩
  | succ n ih =>
    simp only [ppuResumeLoop, wp_bind, wp_w, wp_ppuRunstate]
    rintro b _ rfl b' _ rfl r _ rfl
    split
    · rename_i hr
      have hrun : readsRunning r = true := beq_iff_eq.mpr hr
      refine ⟨[_, _, _], by simp only [List.append_assoc]; rfl,
        ((Quiet.cons rfl (by simp [Quiet])).cons rfl).cons rfl, ?_, by simp⟩
      rw [states_write, states_write, states_read, List.any_cons, hrun, Bool.true_or]
    · rename_i hr
      have hnot : readsRunning r = false := beq_eq_false_iff_ne.mpr hr
      apply wp_mono _ ?_ (fun _ _ h => h) (ih _)
      rintro resumed _ ⟨acc, rfl, hquiet, hany, hlen⟩
      refine ⟨_ :: _ :: _ :: acc, by simp only [List.append_assoc]; rfl,
        ((hquiet.cons rfl).cons rfl).cons rfl, ?_, ?_⟩
      · rw [hany, states_write, states_write, states_read, List.any_cons, hnot, Bool.false_or]
      · intro hno
        rw [states_write, states_write, states_read, List.length_cons, hlen hno]

/-- What the host makes of one token. -/
theorem readBit_trace (word nonce bit v : UInt32) (tr : List (Event BusSig)) :
    (readBit t word nonce bit v).wp anything (fun x tr' => ∃ round,
      rounds tr' = rounds tr ++ [round] ∧
      x = if exhausted round then none else some (if heard round then v ||| (1 <<< bit) else v))
      (fun _ _ => False) tr := by
  simp only [readBit, wp_bind, wp_w]
  rintro b _ rfl
  apply wp_mono _ ?_ (fun _ _ h => h) (waitHalted_trace t 20 _)
  rintro halted _ ⟨polls, rfl, hquiet, hyes, hno⟩
  cases halted with
  | true =>
    obtain ⟨init, r, hstates, hinit, hr⟩ := hyes rfl
    simp only [↓reduceIte, wp_bind]
    apply wp_mono _ ?_ (fun _ _ h => h) (ppuResumeLoop_trace t 40 _)
    rintro resumed _ ⟨acc, rfl, hquiet', hany, hlen⟩
    have hstates' : states (polls ++ acc) = init ++ r :: states acc := by
      rw [states_append, hstates, List.append_assoc]
      rfl
    have hpokes : pokes (polls ++ acc) = states acc := by
      rw [pokes, hstates', List.dropWhile_append_of_pos, List.dropWhile_cons]
      · simp [hr]
      · intro r' hr'
        rw [hinit r' hr']
        rfl
    have hheard : heard (polls ++ acc) = true := by
      simp [heard, hstates', hr]
    have hrounds := rounds_token tr (e := ⟨.write t.core ⟨CMD_WORD.toUInt64, t.msid⟩
      (token nonce word bit), b⟩) rfl (hquiet.append hquiet')
    simp only [List.append_assoc, List.singleton_append]
    cases resumed with
    | true =>
      have hexhausted : exhausted (polls ++ acc) = false := by
        obtain ⟨r', hr', hrun⟩ := List.any_eq_true.mp hany.symm
        rw [exhausted, hpokes, Bool.and_eq_false_iff, List.all_eq_false]
        exact .inr ⟨r', hr', by simp [hrun]⟩
      exact ⟨_, hrounds, by rw [hexhausted, hheard]; rfl⟩
    | false =>
      have hexhausted : exhausted (polls ++ acc) = true := by
        have hnone := List.any_eq_false.mp hany.symm
        rw [exhausted, hpokes, hlen rfl, Bool.and_eq_true, List.all_eq_true]
        exact ⟨rfl, fun r' hr' => by simpa using hnone r' hr'⟩
      exact ⟨_, hrounds, by rw [hexhausted]; rfl⟩
  | false =>
    have hheard : heard polls = false := by
      rw [heard, List.any_eq_false]
      intro r hr
      rw [hno rfl r hr]
      exact Bool.false_ne_true
    have hexhausted : exhausted polls = false := by
      have hall : (states polls).dropWhile (!readsHalted ·) = [] := by
        rw [List.dropWhile_eq_nil_iff]
        intro r hr
        rw [hno rfl r hr]
        rfl
      rw [exhausted, pokes, hall]
      rfl
    have hrounds := rounds_token tr (e := ⟨.write t.core ⟨CMD_WORD.toUInt64, t.msid⟩
      (token nonce word bit), b⟩) rfl hquiet
    rw [List.append_assoc]
    exact ⟨_, hrounds, by rw [hexhausted, hheard]; rfl⟩

/-! ## The words -/

/-- Bit `bit` of a word that has none from there on. -/
theorem testBit_addBit {v bit : UInt32} (hbit : bit.toNat < 32) (hv : v.toNat < 2 ^ bit.toNat)
    (c : Bool) (b : Nat) :
    (if c then v ||| (1 <<< bit) else v).toNat.testBit b =
      if b = bit.toNat then c else v.toNat.testBit b := by
  have hzero : v.toNat.testBit bit.toNat = false := Nat.testBit_lt_two_pow hv
  cases c with
  | true =>
    rw [if_pos rfl, UInt32.toNat_or, toNat_oneShift hbit, Nat.testBit_or, Nat.testBit_two_pow]
    split
    · rename_i heq
      simp [heq]
    · rename_i hne
      simp [Ne.symm hne]
  | false =>
    rw [if_neg Bool.false_ne_true]
    split
    · rename_i heq
      rw [heq, hzero]
    · rfl

theorem addBit_lt {v bit : UInt32} (hbit : bit.toNat < 32) (hv : v.toNat < 2 ^ bit.toNat)
    (c : Bool) : (if c then v ||| (1 <<< bit) else v).toNat < 2 ^ (bit.toNat + 1) := by
  have hle : 2 ^ bit.toNat < 2 ^ (bit.toNat + 1) := Nat.pow_lt_pow_right (by omega) (by omega)
  split
  · rw [UInt32.toNat_or, toNat_oneShift hbit]
    exact Nat.or_lt_two_pow (by omega) hle
  · omega

/-- The rounds are those of `before` and then `n` more, none of which gave up. -/
def Heard (before tr : List (Event BusSig)) (n : Nat) : Prop :=
  ∃ new, rounds tr = rounds before ++ new ∧ new.length = n ∧ ∀ round ∈ new, exhausted round = false

/-- A round gave up. -/
def GaveUp (tr : List (Event BusSig)) : Prop := ∃ round ∈ rounds tr, exhausted round = true

theorem readWord_trace (word nonce : UInt32) (tr : List (Event BusSig)) :
    (readWord t word nonce).wp anything (fun x tr' =>
      (x.1 = none ∧ GaveUp tr') ∨
      ∃ v, x.1 = some v ∧ Heard tr tr' 32 ∧
        ∀ b < 32, v.toNat.testBit b = heardAt tr' ((rounds tr).length + b))
      (fun _ _ => False) tr := by
  apply wp_readWord anything t word nonce (fun bit _ v tr' => Heard tr tr' bit ∧
    v.toNat < 2 ^ bit ∧ ∀ b < bit, v.toNat.testBit b = heardAt tr' ((rounds tr).length + b))
  · rintro bit hbit nonce v tr₁ ⟨⟨new, hnew, hlen, hnot⟩, hlt, hbits⟩
    apply wp_mono _ ?_ (fun _ _ h => h) (readBit_trace t word nonce bit v tr₁)
    rintro _ tr₂ ⟨round, hround, rfl⟩
    have hlast : heardAt tr₂ ((rounds tr).length + bit.toNat) = heard round := by
      simp [heardAt, hround, hnew, ← hlen, List.getD]
    cases hexh : exhausted round with
    | true => exact ⟨by simp, fun _ => .inl ⟨rfl, round, by simp [hround], hexh⟩⟩
    | false =>
      refine ⟨?_, by simp⟩
      rintro _ ⟨⟩
      refine ⟨⟨new ++ [round], ?_, ?_, ?_⟩, addBit_lt hbit hlt _, ?_⟩
      · rw [hround, hnew, List.append_assoc]
      · rw [List.length_append, hlen]
        rfl
      · intro r hr
        obtain hr | hr := List.mem_append.mp hr
        · exact hnot r hr
        · rw [List.mem_singleton.mp hr, hexh]
      · intro b hb
        rw [testBit_addBit hbit hlt]
        split
        · rename_i heq
          rw [heq, hlast]
        · rw [hbits b (by omega), heardAt_append hround]
          rw [hnew, List.length_append]
          omega
  · rintro nonce v tr' ⟨hheard, -, hbits⟩
    exact .inr ⟨v, rfl, hheard, hbits⟩
  · exact ⟨⟨[], by simp, rfl, by simp⟩, by simp, by simp⟩

/-- The bits of the words below `n` are those the host took. -/
def Told (outputs : Nat → UInt32) (tr : List (Event BusSig)) (n : Nat) : Prop :=
  ∀ w < n, ∀ b < 32, (outputs w).toNat.testBit b = heardAt tr (32 * w + b)

theorem readWords_trace (outputs : Nat → UInt32) (nout : UInt32) (tr : List (Event BusSig))
    (hstart : rounds tr = []) :
    (readWords t outputs nout).wp anything (fun x tr' =>
      (x.1 = -1 ∧ GaveUp tr') ∨
      (x.1 = 0 ∧ Heard tr tr' (32 * nout.toNat) ∧ Told x.2.2 tr' nout.toNat))
      (fun _ _ => False) tr := by
  apply wp_readWords anything t outputs nout (fun word _ outputs tr' =>
    Heard tr tr' (32 * word) ∧ Told outputs tr' word)
  · rintro word - nonce outputs tr₁ ⟨⟨new, hnew, hlen, hnot⟩, htold⟩
    have hlen₁ : (rounds tr₁).length = 32 * word.toNat := by
      rw [hnew, hstart, List.nil_append, hlen]
    apply wp_mono _ ?_ (fun _ _ h => h) (readWord_trace t word nonce tr₁)
    rintro ⟨x, nonce'⟩ tr₂ (⟨rfl, hgave⟩ | ⟨v, rfl, ⟨new', hnew', hlen', hnot'⟩, hbits⟩)
    · exact ⟨by simp, fun _ => .inl ⟨rfl, hgave⟩⟩
    · refine ⟨?_, by simp⟩
      rintro _ ⟨⟩
      refine ⟨⟨new ++ new', ?_, ?_, ?_⟩, ?_⟩
      · rw [hnew', hnew, List.append_assoc]
      · rw [List.length_append, hlen, hlen']
        omega
      · intro round hround
        exact (List.mem_append.mp hround).elim (hnot round) (hnot' round)
      · intro w hw b hb
        dsimp only
        split
        · rename_i heq
          rw [heq, hbits b hb, hlen₁]
        · rw [htold w (by omega) b hb, heardAt_append hnew']
          rw [hlen₁]
          omega
  · rintro nonce outputs tr' ⟨hheard, htold⟩
    exact .inr ⟨rfl, hheard, htold⟩
  · exact ⟨⟨[], by simp, rfl, by simp⟩, fun w hw => absurd hw (Nat.not_lt_zero w)⟩

/-- The done token opens a round that nothing is heard in. -/
theorem streamResults_trace (outputs : Nat → UInt32) (nout : UInt32) (tr : List (Event BusSig))
    (hstart : rounds tr = []) :
    (streamResults t outputs nout).wp anything (fun x tr' =>
      (x.1 = -1 ∧ GaveUp tr') ∨
      (x.1 = 0 ∧ ¬ GaveUp tr' ∧ Told x.2 tr' nout.toNat))
      (fun _ _ => False) tr := by
  rw [streamResults, wp_bind]
  apply wp_mono _ ?_ (fun _ _ h => h) (readWords_trace t outputs nout tr hstart)
  rintro ⟨rc, nonce, outputs'⟩ tr₁ h
  simp only [wp_bind, wp_w]
  rintro b _ rfl
  have hrounds := rounds_token tr₁ (e := ⟨.write t.core ⟨CMD_WORD.toUInt64, t.msid⟩
    (token nonce 0xFF CMD_DONE_BIT), b⟩) rfl (List.forall_mem_nil _)
  obtain ⟨hrc, round, hround, hexh⟩ | ⟨hrc, ⟨new, hnew, hlen, hnot⟩, htold⟩ := h
  · refine .inl ⟨hrc, round, ?_, hexh⟩
    rw [hrounds]
    exact List.mem_append_left _ hround
  · refine .inr ⟨hrc, ?_, ?_⟩
    · rintro ⟨round, hround, hexh⟩
      rw [hrounds, hnew, hstart, List.nil_append] at hround
      obtain hround | hround := List.mem_append.mp hround
      · rw [hnot round hround] at hexh
        cases hexh
      · rw [List.mem_singleton.mp hround] at hexh
        cases hexh
    · intro w hw b hb
      rw [htold w hw b hb, heardAt_append hrounds]
      rw [hnew, hstart, List.nil_append, hlen]
      omega

/-! ## The setup -/

/-- The write of operand `i`, with its answer. -/
def operandWrite (inputs : Nat → UInt32) (i : Nat) (r : Bool) : Event BusSig :=
  ⟨.write t.core ⟨(INPUT_BASE + 4 * UInt32.ofNat i).toUInt64, t.msid⟩ (inputs i), r⟩

/-- The operands below `n`, with their answers. -/
def Operands (inputs : Nat → UInt32) (n : Nat) (tr : List (Event BusSig)) : Prop :=
  tr.length = n ∧ ∀ i < n, ∃ r, tr[i]? = some (operandWrite t inputs i r)

theorem writeInputs_trace (inputs : Nat → UInt32) (nin : UInt32) :
    (writeInputs t inputs nin).wp anything (fun _ tr => Operands t inputs nin.toNat tr)
      (fun _ _ => False) [] := by
  apply wp_writeInputs anything t inputs nin (Operands t inputs)
  · rintro i hi tr ⟨hlen, hin⟩ r _ rfl
    constructor
    · rw [List.length_append, hlen]
      rfl
    · intro j hj
      rcases Nat.lt_or_ge j i.toNat with hj' | hj'
      · obtain ⟨r', hr'⟩ := hin j hj'
        refine ⟨r', ?_⟩
        rw [List.getElem?_append_left (by omega), hr']
      · have heq : j = i.toNat := by omega
        refine ⟨r, ?_⟩
        rw [List.getElem?_append_right (by omega), heq, hlen, Nat.sub_self, operandWrite,
          UInt32.ofNat_toNat]
        rfl
  · exact fun tr h => h
  · exact ⟨rfl, fun i hi => absurd hi (Nat.not_lt_zero i)⟩

/-- The byte `i` of the image has been written. -/
def ByteWritten (image : Nat → UInt8) (tr : List (Event BusSig)) (i : Nat) : Prop :=
  ∃ (a : UInt64) (v : UInt32), (⟨.write t.core ⟨a, t.msid⟩ v, true⟩ : Event BusSig) ∈ tr ∧
    a.toNat ≤ PPU_CODE_BASE.toNat + i ∧ PPU_CODE_BASE.toNat + i < a.toNat + 4 ∧
    byteOf v (PPU_CODE_BASE.toNat + i - a.toNat) = image i

/-- The words of the image before `a`, all of whose accesses succeeded. -/
structure ImageBelow (image : Nat → UInt8) (len : UInt32) (a : Nat) (tr : List (Event BusSig)) :
    Prop where
  length : tr.length = (a - PPU_CODE_BASE.toNat) / 4 +
    if PPU_CODE_BASE.toNat + len.toNat < a then 1 else 0
  kept : ∀ e ∈ tr, lost e = false
  written : ∀ i < len.toNat, PPU_CODE_BASE.toNat + i < a → ByteWritten t image tr i

theorem oldWord_trace (len : UInt32) (a : UInt64) (hlow : 0xB0000000 ≤ a.toNat)
    (hhigh : a.toNat + 4 < 2 ^ 64) (tr : List (Event BusSig)) :
    (oldWord t PPU_CODE_BASE.toUInt64 len a).wp anything (fun w tr' =>
      (a.toNat + 4 ≤ 0xB0000000 + len.toNat ∧ w = some 0 ∧ tr' = tr) ∨
      (0xB0000000 + len.toNat < a.toNat + 4 ∧ tr' = tr ++ [⟨.read t.core ⟨a, t.msid⟩, w⟩]))
      (fun _ _ => False) tr := by
  have hbase : PPU_CODE_BASE.toUInt64.toNat = 0xB0000000 := rfl
  have hlen := len.toNat_lt
  have hr : WordRange PPU_CODE_BASE.toUInt64 len := ⟨by omega⟩
  have hend := hr.toNat_end
  have h4 : (a + 4).toNat = a.toNat + 4 := by
    rw [UInt64.toNat_add, show (4 : UInt64).toNat = 4 from rfl]
    omega
  have hfull : (a ≥ PPU_CODE_BASE.toUInt64 ∧ a + 4 ≤ PPU_CODE_BASE.toUInt64 + len.toUInt64) ↔
      a.toNat + 4 ≤ 0xB0000000 + len.toNat := by
    rw [ge_iff_le, UInt64.le_iff_toNat_le, UInt64.le_iff_toNat_le, h4, hend, hbase]
    omega
  apply wp_ite
  · intro h
    exact .inl ⟨hfull.mp h, rfl, rfl⟩
  · intro h
    simp only [rd32Try, wp_xferR]
    rintro r _ rfl
    exact .inr ⟨Nat.lt_of_not_le fun hle => h (hfull.mpr hle), rfl⟩

/-- The accesses of the word at `a` all succeeded. -/
theorem ImageBelow.next {image : Nat → UInt8} {len : UInt32} {a : UInt64}
    {tr acc : List (Event BusSig)} (h : ImageBelow t image len a.toNat tr)
    (ha : AtWord PPU_CODE_BASE.toUInt64 len a)
    (hhigh : a.toNat + 4 ≤ (0xB0000000 + len.toNat + 3) / 4 * 4)
    (hlen : acc.length = if 0xB0000000 + len.toNat < a.toNat + 4 then 2 else 1)
    (hkept : ∀ e ∈ acc, lost e = false) (w : UInt32)
    (hin : (⟨.write t.core ⟨a, t.msid⟩ (mergeWord PPU_CODE_BASE.toUInt64 image len a w), true⟩ :
      Event BusSig) ∈ acc) : ImageBelow t image len (a.toNat + 4) (tr ++ acc) := by
  have hbase : PPU_CODE_BASE.toUInt64.toNat = 0xB0000000 := rfl
  have hbase' : PPU_CODE_BASE.toNat = 0xB0000000 := rfl
  have hlow := ha.low
  have halign := ha.aligned
  rw [hbase] at hlow
  constructor
  · rw [List.length_append, h.length, hlen, hbase']
    split <;> split <;> omega
  · intro e he
    exact (List.mem_append.mp he).elim (h.kept e) (hkept e)
  · intro i hi hlt
    rw [hbase'] at hlt
    rcases Nat.lt_or_ge (0xB0000000 + i) a.toNat with hbelow | hhere
    · obtain ⟨a', v, hmem, hbyte⟩ := h.written i hi hbelow
      exact ⟨a', v, List.mem_append_left _ hmem, hbyte⟩
    · have hlen := len.toNat_lt
      have hr : WordRange PPU_CODE_BASE.toUInt64 len := ⟨by omega⟩
      refine ⟨a, _, List.mem_append_right _ hin, hhere, by omega, ?_⟩
      rw [hbase', byteOf_mergeWord hr hhigh image w _ (by omega), hbase, if_pos (by omega)]
      exact congrArg image (by omega)

theorem imageWrite_trace (image : Nat → UInt8) (len : UInt32) :
    (tcmcdWrite t PPU_CODE_BASE.toUInt64 image len).wp anything (fun rc tr =>
      (rc = 0 ∧ tr.length = imageAccesses len ∧ (∀ e ∈ tr, lost e = false) ∧
        ∀ i < len.toNat, ByteWritten t image tr i) ∨
      (rc = -1 ∧ tr.length ≤ imageAccesses len ∧ ∃ e ∈ tr, lost e = true))
      (fun _ _ => False) [] := by
  have hbase : PPU_CODE_BASE.toUInt64.toNat = 0xB0000000 := rfl
  have hbase' : PPU_CODE_BASE.toNat = 0xB0000000 := rfl
  have hlen := len.toNat_lt
  have hr : WordRange PPU_CODE_BASE.toUInt64 len := ⟨by omega⟩
  apply wp_loop anything (fun (a : UInt64) tr => AtWord PPU_CODE_BASE.toUInt64 len a ∧
      ImageBelow t image len a.toNat tr)
    (fun a => ((0xB0000000 + len.toNat + 3) / 4 * 4 - a.toNat) / 4)
  · rintro a tr ⟨ha, himage⟩
    split
    · rename_i hlt
      obtain ⟨hnext, h4, hhigh⟩ := ha.next hr hlt
      have hlow' : 0xB0000000 ≤ a.toNat := by
        have hlow := ha.low
        rwa [hbase] at hlow
      rw [hbase] at hhigh
      have hcount : tr.length + (if 0xB0000000 + len.toNat < a.toNat + 4 then 2 else 1) ≤
          imageAccesses len := by
        have halign := ha.aligned
        rw [himage.length, imageAccesses, hbase']
        split <;> split <;> split <;> omega
      rw [wp_bind]
      apply wp_mono _ ?_ (fun _ _ h => h) (oldWord_trace t len a hlow' (by omega) tr)
      rintro w _ (⟨hfull, rfl, rfl⟩ | ⟨hedge, rfl⟩)
      · rw [if_neg (by omega)] at hcount
        simp only [wp_bind, wp_xferW]
        rintro r _ rfl
        cases r with
        | true =>
          refine ⟨⟨hnext, ?_⟩, by omega⟩
          rw [h4]
          exact himage.next t ha hhigh (by rw [if_neg (by omega)]; rfl) (by simp [lost]) 0 (by simp)
        | false =>
          exact .inr ⟨rfl, by rwa [List.length_append], _,
            List.mem_append_right _ (List.mem_singleton_self _), rfl⟩
      · rw [if_pos hedge] at hcount
        cases w with
        | none =>
          exact .inr ⟨rfl, by rw [List.length_append, List.length_singleton]; omega, _,
            List.mem_append_right _ (List.mem_singleton_self _), rfl⟩
        | some w =>
          simp only [wp_bind, wp_xferW]
          rintro r _ rfl
          rw [List.append_assoc]
          cases r with
          | true =>
            refine ⟨⟨hnext, ?_⟩, by omega⟩
            rw [h4]
            exact himage.next t ha hhigh (by rw [if_pos hedge]; rfl) (by simp [lost]) w (by simp)
          | false =>
            exact .inr ⟨rfl, by rwa [List.length_append], _,
              List.mem_append_right _ (List.mem_cons_of_mem _ (List.mem_singleton_self _)), rfl⟩
    · rename_i hge
      rw [UInt64.lt_iff_toNat_lt, hr.toNat_last] at hge
      have hend := ha.high
      rw [hbase] at hge hend
      refine .inl ⟨rfl, ?_, himage.kept, fun i hi => himage.written i hi (by omega)⟩
      rw [himage.length, imageAccesses, hbase']
      split <;> split <;> omega
  · refine ⟨atWord_first, ?_, by simp, fun i hi hlow => ?_⟩
    · rw [toNat_first, hbase, hbase', if_neg (by omega)]
      rfl
    · rw [toNat_first, hbase, hbase'] at hlow
      omega
  · rw [toNat_first, hbase]
    omega

theorem waitReset_trace (n : Nat) (tr : List (Event BusSig)) :
    (waitReset t n).wp anything (fun _ tr' => ∃ polls, tr' = tr ++ polls ∧ Quiet polls)
      (fun _ _ => False) tr := by
  induction n generalizing tr with
  | zero => exact ⟨[], by simp, by simp [Quiet]⟩
  | succ n ih =>
    simp only [waitReset, wp_bind, wp_r]
    rintro r _ rfl
    apply wp_ite
    · exact fun _ => ⟨[_], rfl, Quiet.cons rfl (by simp [Quiet])⟩
    · intro _
      apply wp_mono _ ?_ (fun _ _ h => h) (ih _)
      rintro _ _ ⟨polls, rfl, hquiet⟩
      exact ⟨_ :: polls, by rw [List.append_assoc]; rfl, hquiet.cons rfl⟩

/-- The clock, the image, and if that succeeds the reset and the start. -/
theorem ppuLoadRun_trace (image : Nat → UInt8) (len : UInt32) :
    (ppuLoadRun t image len).wp anything (fun rc tr => ∃ clock img core,
      tr = clock :: (img ++ core) ∧
      ((rc = 0 ∧ img.length = imageAccesses len ∧ (∀ e ∈ img, lost e = false) ∧
        (∀ i < len.toNat, ByteWritten t image img i) ∧ Quiet core) ∨
      (rc = -1 ∧ core = [] ∧ img.length ≤ imageAccesses len ∧ ∃ e ∈ img, lost e = true)))
      (fun _ _ => False) [] := by
  simp only [ppuLoadRun, wp_bind, wp_w]
  rintro b _ rfl
  have himage := wp_anything_append (imageWrite_trace t image len)
    [⟨.write t.core ⟨PPU_CLC.toUInt64, t.msid⟩ 0, b⟩]
  rw [List.append_nil] at himage
  apply wp_mono _ ?_ ?_ himage
  · rintro rc _ ⟨img, rfl, ⟨rfl, hlen, hkept, hbytes⟩ | ⟨rfl, hlen, hlost⟩⟩
    · simp only [ne_eq, not_true_eq_false, ↓reduceIte, wp_bind, wp_w]
      rintro b₁ _ rfl b₂ _ rfl b₃ _ rfl
      apply wp_mono _ ?_ (fun _ _ h => h) (waitReset_trace t _ _)
      rintro _ _ ⟨polls, rfl, hquiet⟩ b₄ _ rfl b₅ _ rfl
      refine ⟨_, img, _ :: _ :: _ :: (polls ++ [_, _]), by simp only [List.append_assoc]; rfl,
        .inl ⟨rfl, hlen, hkept, hbytes, ?_⟩⟩
      have hend : Quiet (polls ++ [⟨.write t.core ⟨PPU_RST_CTRLB.toUInt64, t.msid⟩ 0x80000000, b₄⟩,
          ⟨.write t.core ⟨PPU_CTRL.toUInt64, t.msid⟩ CTRL_RUN, b₅⟩]) :=
        hquiet.append ((Quiet.cons rfl (by simp [Quiet])).cons rfl)
      exact ((hend.cons rfl).cons rfl).cons rfl
    · exact ⟨_, img, [], by rw [List.append_nil]; rfl, .inr ⟨rfl, rfl, hlen, hlost⟩⟩
  · rintro e _ ⟨_, -, hfalse⟩
    exact hfalse

end

/-! ## The call -/

/-- An access of the image failed, or a core could not be resumed. -/
def Detected (len nin : UInt32) (tr : List (Event BusSig)) : Prop :=
  (∃ e ∈ imagePart len nin tr, lost e = true) ∨ GaveUp (corePart len nin tr)

/-- The parts of a call that got past the image. -/
theorem parts_loaded {len nin : UInt32} {ops img : List (Event BusSig)}
    (hops : ops.length = nin.toNat) (himg : img.length = imageAccesses len) (e e' : Event BusSig)
    (core : List (Event BusSig)) :
    imagePart len nin (ops ++ e :: e' :: (img ++ core)) = img ∧
      corePart len nin (ops ++ e :: e' :: (img ++ core)) = core := by
  have hdrop : (ops ++ e :: e' :: (img ++ core)).drop (nin.toNat + 2) = img ++ core := by
    rw [← hops, List.drop_append]
    simp
  constructor
  · rw [imagePart, hdrop, ← himg, List.take_left]
  · rw [corePart, ← List.drop_drop, hdrop, ← himg, List.drop_left]

theorem parts_failed {len nin : UInt32} {ops img : List (Event BusSig)}
    (hops : ops.length = nin.toNat) (himg : img.length ≤ imageAccesses len) (e e' : Event BusSig) :
    imagePart len nin (ops ++ e :: e' :: img) = img := by
  have hdrop : (ops ++ e :: e' :: img).drop (nin.toNat + 2) = img := by
    rw [← hops, List.drop_append]
    simp
  rw [imagePart, hdrop, List.take_of_length_le himg]

/-- How a call goes: -1 if something was detected, and else the words are those the
host took from the polls. -/
structure Went (t : Target) (image : Nat → UInt8) (len : UInt32) (inputs : Nat → UInt32)
    (nin nout : UInt32) (x : Int × (Nat → UInt32)) (tr : List (Event BusSig)) : Prop where
  operands : ∀ i < nin.toNat, ∃ r, tr[i]? = some (operandWrite t inputs i r)
  result : (x.1 = -1 ∧ Detected len nin tr) ∨ (x.1 = 0 ∧ ¬ Detected len nin tr ∧
    (∀ i < len.toNat, ByteWritten t image (imagePart len nin tr) i) ∧
    Told x.2 (corePart len nin tr) nout.toNat)

theorem ppuCall_trace (t : Target) (image : Nat → UInt8) (len : UInt32) (inputs : Nat → UInt32)
    (nin : UInt32) (outputs : Nat → UInt32) (nout : UInt32) :
    (ppuCall t image len inputs nin outputs nout).wp anything
      (fun x tr => Went t image len inputs nin nout x tr) (fun _ _ => False) [] := by
  rw [ppuCall, wp_bind]
  apply wp_mono _ ?_ (fun _ _ h => h) (writeInputs_trace t inputs nin)
  rintro _ ops ⟨hops, hin⟩
  rw [wp_bind, wp_w]
  rintro b _ rfl
  rw [wp_bind]
  have hoperands : ∀ rest, ∀ i < nin.toNat, ∃ r,
      (ops ++ rest)[i]? = some (operandWrite t inputs i r) := by
    intro rest i hi
    rw [List.getElem?_append_left (by omega)]
    exact hin i hi
  have hload := wp_anything_append (ppuLoadRun_trace t image len)
    (ops ++ [⟨.write t.core ⟨CMD_WORD.toUInt64, t.msid⟩ 0, b⟩])
  rw [List.append_nil] at hload
  apply wp_mono _ ?_ ?_ hload
  · rintro rc _ ⟨_, rfl, clock, img, core, rfl, ⟨rfl, hlen, hkept, hbytes, hquiet⟩ |
      ⟨rfl, rfl, hlen, hlost⟩⟩
    · simp only [ne_eq, not_true_eq_false, ↓reduceIte]
      have hstream := wp_anything_append
        (streamResults_trace t outputs nout core (rounds_quiet hquiet))
        (ops ++ [⟨.write t.core ⟨CMD_WORD.toUInt64, t.msid⟩ 0, b⟩] ++ clock :: img)
      simp only [List.append_assoc, List.cons_append, List.nil_append] at hstream ⊢
      apply wp_mono _ ?_ ?_ hstream
      · rintro x _ ⟨core', rfl, hx⟩
        obtain ⟨himage, hcore⟩ := parts_loaded hops hlen
          ⟨.write t.core ⟨CMD_WORD.toUInt64, t.msid⟩ 0, b⟩ clock core'
        refine ⟨hoperands _, ?_⟩
        rw [Detected, himage, hcore]
        obtain ⟨hrc, hgave⟩ | ⟨hrc, hnot, htold⟩ := hx
        · exact .inl ⟨hrc, .inr hgave⟩
        · refine .inr ⟨hrc, ?_, hbytes, htold⟩
          rintro (⟨e, he, hlost⟩ | hgave)
          · rw [hkept e he] at hlost
            cases hlost
          · exact hnot hgave
      · rintro e _ ⟨_, -, hfalse⟩
        exact hfalse
    · have himage := parts_failed hops hlen
        ⟨.write t.core ⟨CMD_WORD.toUInt64, t.msid⟩ 0, b⟩ clock
      simp only [List.append_assoc, List.cons_append, List.nil_append, List.append_nil]
      refine ⟨hoperands _, .inl ⟨rfl, .inl ?_⟩⟩
      rw [himage]
      exact hlost
  · rintro e _ ⟨_, -, hfalse⟩
    exact hfalse

/-! ## What a return value of 0 promises -/

/-- The setup was written, the reset was seen, and the outputs are the core's words. -/
structure Promised (result : UInt32 → UInt32) (t : Target) (image : Nat → UInt8) (len : UInt32)
    (inputs : Nat → UInt32) (nin : UInt32) (outputs : Nat → UInt32) (nout : UInt32)
    (tr : List (Event BusSig)) : Prop where
  image : ∀ i < len.toNat, ByteWritten t image (imagePart len nin tr) i
  inputs : ∀ i < nin.toNat, tr[i]? = some (operandWrite t inputs i true)
  reset : ResetSeen (corePart len nin tr)
  words : ∀ w < nout.toNat, outputs w = result (UInt32.ofNat w)

/-- Two words with the same bits. -/
theorem word_eq_iff (v v' : UInt32) :
    v = v' ↔ ∀ b < 32, v.toNat.testBit b = v'.toNat.testBit b := by
  constructor
  · rintro rfl b _
    rfl
  · intro h
    apply UInt32.toNat_inj.mp
    apply Nat.eq_of_testBit_eq
    intro b
    rcases Nat.lt_or_ge b 32 with hb | hb
    · exact h b hb
    · have hpow : 2 ^ 32 ≤ 2 ^ b := Nat.pow_le_pow_right (by omega) hb
      have hv := v.toNat_lt
      have hv' := v'.toNat_lt
      rw [Nat.testBit_lt_two_pow (by omega), Nat.testBit_lt_two_pow (by omega)]

section
variable {t : Target} {image : Nat → UInt8} {len : UInt32} {inputs : Nat → UInt32}
  {nin nout : UInt32} {outputs : Nat → UInt32} {result : UInt32 → UInt32}
  {tr : List (Event BusSig)}

/-- All operands are written if none of the first accesses failed. -/
theorem operands_iff (h : ∀ i < nin.toNat, ∃ r, tr[i]? = some (operandWrite t inputs i r)) :
    (∀ i < nin.toNat, tr[i]? = some (operandWrite t inputs i true)) ↔
      ∀ e ∈ operandPart nin tr, lost e = false := by
  constructor
  · intro hall e he
    obtain ⟨i, hi⟩ := List.mem_iff_getElem?.mp he
    rw [operandPart, List.getElem?_take] at hi
    split at hi
    · rename_i hlt
      rw [hall i hlt] at hi
      cases hi
      rfl
    · cases hi
  · intro hall i hi
    obtain ⟨r, hr⟩ := h i hi
    have hin : operandWrite t inputs i r ∈ operandPart nin tr := by
      apply List.mem_of_getElem? (i := i)
      rw [operandPart, List.getElem?_take_of_lt hi, hr]
    have hr' : (!r) = false := hall _ hin
    rw [Bool.not_eq_false'] at hr'
    rw [hr, hr']

/-- Where the whole image was written and every poll of the run state fails, the call
returns 0 with zeros, whatever the core has computed. -/
theorem Went.unheard {x : Int × (Nat → UInt32)} (h : Went t image len inputs nin nout x tr)
    (himage : ∀ e ∈ imagePart len nin tr, lost e = false)
    (hpolls : ∀ round ∈ rounds (corePart len nin tr), ∀ r ∈ states round, r = none) :
    x.1 = 0 ∧ ∀ w < nout.toNat, x.2 w = 0 := by
  have hheard : ∀ round ∈ rounds (corePart len nin tr), heard round = false := by
    intro round hround
    rw [heard, List.any_eq_false]
    intro r hr
    rw [hpolls round hround r hr]
    exact Bool.false_ne_true
  have hgave : ¬ GaveUp (corePart len nin tr) := by
    rintro ⟨round, hround, hexh⟩
    have hquiet : (states round).dropWhile (!readsHalted ·) = [] := by
      rw [List.dropWhile_eq_nil_iff]
      intro r hr
      rw [hpolls round hround r hr]
      rfl
    rw [exhausted, pokes, hquiet] at hexh
    cases hexh
  obtain ⟨-, ⟨e, he, hlost⟩ | hgave'⟩ | ⟨hrc, -, -, htold⟩ := h.result
  · rw [himage e he] at hlost
    cases hlost
  · exact absurd hgave' hgave
  · refine ⟨hrc, fun w hw => (word_eq_iff _ _).mpr fun b hb => ?_⟩
    rw [htold w hw b hb, heardAt, UInt32.toNat_zero, Nat.zero_testBit]
    rcases Nat.lt_or_ge (32 * w + b) (rounds (corePart len nin tr)).length with hlt | hge
    · rw [List.getD, List.getElem?_eq_getElem hlt]
      exact hheard _ (List.getElem_mem hlt)
    · rw [List.getD, List.getElem?_eq_none hge]
      rfl

end

/-- Where nothing fails and the core reacts in time, only the reset is in doubt. -/
theorem reliable_promised_iff (scratch : UInt32 → UInt32) (t : Target) {image : Nat → UInt8}
    {len : UInt32} (hclear : CommandClear image len) (inputs : Nat → UInt32) (nin : UInt32)
    (outputs : Nat → UInt32) {nout : UInt32} (hout : nout.toNat ≤ 256) (s s' : Board)
    (x : Except Abort (Int × (Nat → UInt32))) (tr : List (Event BusSig))
    (hrun : Runs (recorded (board scratch)) (ppuCall t image len inputs nin outputs nout)
      (s, []) x (s', tr)) :
    ∃ outputs', x = .ok (0, outputs') ∧
      (Promised (resultWord scratch) t image len inputs nin outputs' nout tr ↔
        ResetSeen (corePart len nin tr)) := by
  obtain ⟨hok, herr⟩ := hrun.forget.sound _ (ppuCall_board t hclear inputs nin outputs hout s)
  have hkept := ((asks_anything (ppuCall t image len inputs nin outputs nout)).invariant
    (E := recorded (board scratch)) (fun y => ∀ e ∈ y.2, lost e = false) ?_
    (s := (s, [])) (by simp))
  · cases x with
    | error e => exact (herr e rfl).elim
    | ok x =>
      obtain ⟨outputs', hx, hwords⟩ := (hok x rfl).returned
      obtain rfl := Except.ok.inj hx
      have hwent := (hrun.trace.sound _ (ppuCall_trace t image len inputs nin outputs nout)).1 _ rfl
      have hall := ((hrun.sound _ hkept).1 _ rfl).2
      refine ⟨outputs', rfl, fun h => h.reset, fun hreset => ?_⟩
      obtain ⟨hrc, -⟩ | ⟨-, -, hbytes, -⟩ := hwent.result
      · cases hrc
      · refine ⟨hbytes, (operands_iff hwent.operands).mpr fun e he => ?_, hreset, hwords⟩
        exact hall e (List.mem_of_mem_take he)
  · rintro y o r y' - hy ⟨hE, hy'⟩ e he
    rw [hy'] at he
    obtain he | he := List.mem_append.mp he
    · exact hy e he
    · rw [List.mem_singleton.mp he]
      obtain ⟨s₁, -, hE⟩ := hE
      cases o with
      | read c a =>
        simp only [Board.access] at hE
        split at hE
        · obtain ⟨-, ⟨v, rfl, -⟩, -⟩ := hE
          rfl
        · obtain ⟨⟨v, rfl, -⟩, -⟩ := hE
          rfl
      | write c a v =>
        obtain ⟨rfl, -⟩ := hE
        rfl

end OpenTricore.Ppu
