import OpenTricore.Registers
import OpenTricore.Turns

/-! Accesses that fail. A memory packet passes the failure on, a register that cannot be
read is shown as zero, and a register that cannot be written ends the stub.

* `reported_iff`: what one packet reports;
* `failures_reported`: what the stub reports in a whole session. -/

namespace OpenTricore.Failures
open OpenTricore Lib Lib.Prog Registers Turns

/-! ## What is asked -/

def Failed : Event BusSig → Prop
  | ⟨.read _ _, r⟩ => (r : Option UInt32) = none
  | ⟨.write _ _ _, r⟩ => (r : Bool) = false

abbrev Unfailing (tr : List (Event BusSig)) : Prop := ∀ e ∈ tr, ¬ Failed e

/-- A read of the selected core failed at this address. -/
def FailedRead (s : Stub) (tr : List (Event BusSig)) (a : McdAddr) : Prop :=
  (⟨.read s.active.target.core a, (none : Option UInt32)⟩ : Event BusSig) ∈ tr

/-- The reply shows a value in its field `k` of `w` digits. An error has three letters. -/
def Presents (w k : Nat) (reply : List UInt8) : Prop :=
  reply.length % w = 0 ∧ DigitsFor w (reply.drop (k * w))

/-- The reply hides no failure. -/
structure Honest (s : Stub) (buf : List UInt8) (tr : List (Event BusSig)) (reply : List UInt8) :
    Prop where
  block : buf.getD 0 0 = 103 → ∀ i : Fin NREG, ∀ a, s.active.reg i = some a → FailedRead s tr a →
    ¬ Presents 8 i reply
  register : buf.getD 0 0 = 112 → ∀ i, regAt s (strtoull (buf.drop 1)).toUInt32 = some i →
    FailedRead s tr (s.active.rega i) → ¬ Presents 8 0 reply
  memory : buf.getD 0 0 = 109 → ∀ j a, FailedRead s tr ⟨a, s.active.target.msid⟩ →
    a.toNat ≤ (requestAddr buf + UInt64.ofNat j).toNat →
    (requestAddr buf + UInt64.ofNat j).toNat < a.toNat + 4 → ¬ Presents 2 j reply
  write : buf.getD 0 0 ∈ [71, 80, 77] → ¬ Unfailing tr → reply ≠ bytes "OK"

/-- The stub waits for the next packet, and has answered this one honestly. -/
def Reported (s : Stub) (buf : List UInt8) (x : Except Abort (Option Stub))
    (tr : List (Event BusSig)) (replies : List (List UInt8)) : Prop :=
  x = .ok (some s) ∧ ∃ reply, replies = [reply] ∧ Honest s buf tr reply

theorem unfailing_nil : Unfailing [] := fun _ h => by cases h

theorem unfailing_snoc {tr : List (Event BusSig)} {e : Event BusSig} (h : Unfailing tr)
    (he : ¬ Failed e) : Unfailing (tr ++ [e]) := by
  intro x hx
  rcases List.mem_append.mp hx with hx | hx
  · exact h x hx
  · rw [List.mem_singleton.mp hx]
    exact he

theorem not_unfailing_snoc {tr : List (Event BusSig)} {e : Event BusSig} (he : Failed e) :
    ¬ Unfailing (tr ++ [e]) :=
  fun h => h e (List.mem_append_right _ (List.mem_singleton_self e)) he

/-! ## Single accesses -/

section programs
variable {s : Stub} {tr : List (Event BusSig)} {out : List (List UInt8)}
  {X : Abort → List (Event BusSig) × List (List UInt8) → Prop}

theorem wp_getReg_trace (a : McdAddr) :
    (getReg s a).wp (replying anything) (fun _ y => y.2 = out ∧
      ∃ r : Option UInt32, y.1 = tr ++ [⟨.read s.active.target.core a, r⟩]) X (tr, out) := by
  unfold getReg
  rintro r ⟨tr', out'⟩ ⟨htr, hout⟩
  cases r with
  | none => exact ⟨hout, _, htr⟩
  | some v => exact ⟨hout, _, htr⟩

theorem wp_setReg_trace (a : McdAddr) (v : UInt32) :
    (setReg s a v).wp (replying anything)
      (fun _ y => y = (tr ++ [⟨.write s.active.target.core a v, true⟩], out))
      (fun e y => e = .die "set reg" ∧ y = (tr ++ [⟨.write s.active.target.core a v, false⟩], out))
      (tr, out) := by
  unfold setReg
  rintro r ⟨tr', out'⟩ ⟨htr, hout⟩
  cases r with
  | true => exact Prod.ext htr hout
  | false => exact ⟨rfl, Prod.ext htr hout⟩

/-! ## Registers -/

theorem regText_trace (i : Fin NREG) :
    (regText s i).wp (replying anything) (fun text y => y.2 = out ∧ text.length = 8 ∧
      (s.active.regok i = true → ∀ c ∈ text, (digit16 c).isSome) ∧
      ∃ es, y.1 = tr ++ es ∧
        ∀ e ∈ es, ∃ a r, s.active.reg i = some a ∧ e = ⟨.read s.active.target.core a, r⟩) X
      (tr, out) := by
  rw [regText]
  cases hok : s.active.regok i with
  | false =>
    refine ⟨rfl, rfl, fun h => absurd h Bool.false_ne_true, [], (List.append_nil tr).symm, ?_⟩
    intro e he
    cases he
  | true =>
    simp only [↓reduceIte, wp_bind]
    apply wp_mono _ ?_ (fun _ _ h => h) (wp_getReg_trace (s.active.rega i))
    rintro v ⟨tr', out'⟩ ⟨hout, r, htr⟩
    refine ⟨hout, length_putU32Le v, fun _ => digits_putU32Le v, _, htr, ?_⟩
    intro e he
    exact ⟨_, r, reg_some.mpr ⟨hok, rfl⟩, List.mem_singleton.mp he⟩

/-- The text of each register that is available is eight digits, and only these are read. -/
theorem regTexts_trace (is : List (Fin NREG)) :
    (regTexts s is).wp (replying anything) (fun text y => y.2 = out ∧ text.length = is.length * 8 ∧
      (∀ k, ∀ hk : k < is.length, s.active.regok is[k] = true → DigitsFor 8 (text.drop (k * 8))) ∧
      ∃ es, y.1 = tr ++ es ∧
        ∀ e ∈ es, ∃ i a r, s.active.reg i = some a ∧ e = ⟨.read s.active.target.core a, r⟩) X
      (tr, out) := by
  induction is generalizing tr with
  | nil =>
    refine ⟨rfl, rfl, fun k hk => absurd hk (Nat.not_lt_zero k), [], (List.append_nil tr).symm, ?_⟩
    intro e he
    cases he
  | cons i is ih =>
    simp only [regTexts, wp_bind]
    apply wp_mono _ ?_ (fun _ _ h => h) (regText_trace i)
    rintro text ⟨_, _⟩ ⟨rfl, hlen, hdigits, es, rfl, hes⟩
    rw [wp_bind]
    apply wp_mono _ ?_ (fun _ _ h => h) ih
    rintro rest ⟨_, _⟩ ⟨rfl, hlen', hdigits', es', rfl, hes'⟩
    refine ⟨rfl, ?_, ?_, es ++ es', List.append_assoc _ _ _, ?_⟩
    · rw [List.length_append, hlen, hlen', List.length_cons]
      omega
    · intro k hk hok
      cases k with
      | zero =>
        refine ⟨by simp [hlen], ?_⟩
        simp only [Nat.zero_mul, List.drop_zero, ← hlen, List.take_left']
        exact hdigits hok
      | succ k =>
        rw [show (k + 1) * 8 = text.length + k * 8 by omega, List.drop_append,
          List.drop_eq_nil_of_le (Nat.le_add_right _ _), List.nil_append, Nat.add_sub_cancel_left]
        exact hdigits' k (Nat.lt_of_succ_lt_succ hk) hok
    · intro e he
      rcases List.mem_append.mp he with he | he
      · exact ⟨i, hes e he⟩
      · exact hes' e he

/-- Registers that were written one after the other, up to the first that failed. -/
theorem setRegs_trace (p : List UInt8) (is : List (Fin NREG)) (htr : Unfailing tr) :
    (setRegs s p is).wp (replying anything) (fun _ y => y.2 = out ∧ Unfailing y.1)
      (fun _ y => ¬ Unfailing y.1) (tr, out) := by
  induction is generalizing tr with
  | nil => exact ⟨rfl, htr⟩
  | cons i is ih =>
    rw [setRegs]
    refine wp_ite _ (fun _ => ?_) fun _ => ih htr
    rw [wp_bind]
    refine wp_mono _ ?_ ?_ (wp_setReg_trace _ _)
    · rintro _ _ rfl
      exact ih (unfailing_snoc htr (by simp [Failed]))
    · rintro e _ ⟨-, rfl⟩
      exact not_unfailing_snoc rfl

end programs

/-! ## Packets -/

section packets
variable {polls : Nat} {s : Stub} {buf : List UInt8} {n : Int}

/-- What is known of a handler that keeps the stub. -/
theorem wp_stays {h : StubProg Unit} {Q : List (Event BusSig) × List (List UInt8) → Prop}
    {X : Abort → List (Event BusSig) × List (List UInt8) → Prop}
    {y : List (Event BusSig) × List (List UInt8)} (hh : h.wp (replying anything) (fun _ => Q) X y) :
    (h >>= fun _ => (return some s : StubProg (Option Stub))).wp (replying anything)
      (fun r y => r = some s ∧ Q y) X y := by
  rw [wp_bind]
  exact wp_mono _ (fun _ _ hq => ⟨rfl, hq⟩) (fun _ _ hx => hx) hh

/-- A write packet is answered if nothing fails, and ends the stub else. -/
theorem dispatch_write (hw : buf.getD 0 0 = 71 ∨ buf.getD 0 0 = 80) :
    (dispatch polls s buf n).wp (replying anything)
      (fun r y => r = some s ∧ (∃ reply, y.2 = [reply]) ∧ Unfailing y.1)
      (fun _ y => ¬ Unfailing y.1) ([], []) := by
  rcases hw with hw | hw
  · have hG : dispatch polls s buf n = (handle_G s (buf.drop 1) >>= fun _ => return some s) := by
      simp only [dispatch, hw]
      rfl
    rw [hG]
    apply wp_stays
    refine wp_ite _ (fun _ => (wp_putPacket_replying _ _).mpr ⟨⟨_, rfl⟩, unfailing_nil⟩) fun _ => ?_
    rw [wp_bind]
    refine wp_mono _ ?_ (fun _ _ h => h) (setRegs_trace _ _ unfailing_nil)
    rintro _ ⟨tr, _⟩ ⟨rfl, htr⟩
    exact (wp_putPacket_replying _ _).mpr ⟨⟨_, rfl⟩, htr⟩
  · rw [dispatch_P polls s buf n hw]
    apply wp_stays
    unfold handle_P
    split
    · exact (wp_putPacket_replying _ _).mpr ⟨⟨_, rfl⟩, unfailing_nil⟩
    · split
      · rw [wp_bind]
        refine wp_mono _ ?_ ?_ (wp_setReg_trace _ _)
        · rintro _ _ rfl
          exact (wp_putPacket_replying _ _).mpr
            ⟨⟨_, rfl⟩, unfailing_snoc unfailing_nil (by simp [Failed])⟩
        · rintro e _ ⟨-, rfl⟩
          exact not_unfailing_snoc rfl
      · exact (wp_putPacket_replying _ _).mpr ⟨⟨_, rfl⟩, unfailing_nil⟩

/-- A `g` packet shows every register that is available, and reads no others. -/
theorem dispatch_block (hg : buf.getD 0 0 = 103) :
    (dispatch polls s buf n).wp (replying anything)
    (fun r y => r = some s ∧ ∃ reply, y.2 = [reply] ∧
      (∀ i : Fin NREG, s.active.regok i = true → Presents 8 i reply) ∧
      ∀ e ∈ y.1, ∃ i a r, s.active.reg i = some a ∧ e = ⟨.read s.active.target.core a, r⟩)
      (fun _ _ => False) ([], []) := by
  have hd : dispatch polls s buf n = (handle_g s >>= fun _ => return some s) := by
    simp only [dispatch, hg]
    rfl
  rw [hd]
  apply wp_stays
  rw [handle_g, wp_bind]
  apply wp_mono _ ?_ (fun _ _ h => h) (regTexts_trace regIndices)
  rintro text ⟨_, _⟩ ⟨rfl, hlen, hdigits, es, rfl, hes⟩
  refine (wp_putPacket_replying _ _).mpr ⟨text, rfl, fun i hok => ⟨?_, ?_⟩, hes⟩
  · rw [hlen]
    exact Nat.mul_mod_left _ _
  · exact hdigits i (by simp [regIndices]) (by simpa [regIndices] using hok)

theorem dispatch_single (hp : buf.getD 0 0 = 112) :
    (dispatch polls s buf n).wp (replying anything)
    (fun r y => r = some s ∧ ∃ reply, y.2 = [reply] ∧
      ∀ e ∈ y.1, ∃ i r, regAt s (strtoull (buf.drop 1)).toUInt32 = some i ∧
        e = ⟨.read s.active.target.core (s.active.rega i), r⟩ ∧ Presents 8 0 reply)
      (fun _ _ => False) ([], []) := by
  have hd : dispatch polls s buf n = (handle_p s buf >>= fun _ => return some s) := by
    simp only [dispatch, hp]
    rfl
  rw [hd]
  apply wp_stays
  unfold handle_p
  split
  · rename_i i hi
    rw [wp_bind]
    apply wp_mono _ ?_ (fun _ _ h => h) (wp_getReg_trace _)
    rintro v ⟨_, _⟩ ⟨rfl, r, rfl⟩
    refine (wp_putPacket_replying _ _).mpr ⟨_, rfl, fun e he => ⟨i, r, hi, ?_, ?_, ?_⟩⟩
    · exact List.mem_singleton.mp he
    · rw [length_putU32Le]
    · exact ⟨Nat.le_refl 8, digits_putU32Le v⟩
  · refine (wp_putPacket_replying _ _).mpr ⟨_, rfl, fun e he => ?_⟩
    cases he

/-! ## Memory -/

theorem tcmcdRead_trace (t : Target) (addr : UInt64) (mb : Nat → UInt8) (len : UInt32) :
    (tcmcdRead t addr mb len).wp anything (fun x tr => x.1 = 0 → Unfailing tr)
      (fun _ _ => False) [] := by
  have hpartial : (tcmcdRead t addr mb len).wp anything (fun x tr => x.1 = 0 → Unfailing tr)
      (fun _ _ => True) [] := by
    refine wp_loop_partial _ (fun _ => Unfailing) _ _ ?_ (fun _ _ _ => trivial) _ _ _ unfailing_nil
    rintro ⟨a, mb⟩ tr htr
    refine wp_ite _ (fun _ => ?_) fun _ _ => htr
    rw [wp_bind]
    rintro r _ rfl
    cases r with
    | none => exact fun h => by cases h
    | some w => exact unfailing_snoc htr (by simp [Failed])
  exact wp_mono _ (fun _ _ h => h.1) (fun _ _ h => h.2)
    (wp_and _ hpartial ((tcmcdRead_returns t addr mb len).wp anything []))

theorem tcmcdWrite_trace (t : Target) (addr : UInt64) (mb : Nat → UInt8) (len : UInt32) :
    (tcmcdWrite t addr mb len).wp anything (fun rc tr => rc = 0 → Unfailing tr)
      (fun _ _ => False) [] := by
  have hpartial : (tcmcdWrite t addr mb len).wp anything (fun rc tr => rc = 0 → Unfailing tr)
      (fun _ _ => True) [] := by
    refine wp_loop_partial _ (fun _ => Unfailing) _ _ ?_ (fun _ _ _ => trivial) _ _ _ unfailing_nil
    intro a tr htr
    refine wp_ite _ (fun _ => ?_) fun _ _ => htr
    have hold : (oldWord t addr len a).wp anything (fun w tr' => w.isSome → Unfailing tr')
        (fun _ _ => True) tr := by
      refine wp_ite _ (fun _ _ => htr) fun _ => ?_
      rintro r _ rfl
      cases r with
      | none => exact fun h => by cases h
      | some w => exact fun _ => unfailing_snoc htr (by simp [Failed])
    rw [wp_bind]
    refine wp_mono _ ?_ (fun _ _ h => h) hold
    intro w tr' htr'
    cases w with
    | none => exact fun h => by cases h
    | some w =>
      dsimp only
      rw [wp_bind]
      rintro ok _ rfl
      cases ok with
      | true => exact unfailing_snoc (htr' rfl) (by simp [Failed])
      | false => exact fun h => by cases h
  exact wp_mono _ (fun _ _ h => h.1) (fun _ _ h => h.2)
    (wp_and _ hpartial ((tcmcdWrite_returns t addr mb len).wp anything []))

/-- A memory packet is always answered, and by `E01` if anything failed. -/
theorem dispatch_memory (hm : buf.getD 0 0 = 109 ∨ buf.getD 0 0 = 77) :
    (dispatch polls s buf n).wp (replying anything)
    (fun r y => r = some s ∧ ∃ reply, y.2 = [reply] ∧
      (Unfailing y.1 ∨ reply = bytes "E01")) (fun _ _ => False) ([], []) := by
  rcases hm with hm | hm
  · rw [dispatch_m polls s buf n hm, handle_m_eq]
    apply wp_stays
    refine wp_ite _ (fun _ => ?_) fun _ => ?_
    · exact (wp_putPacket_replying _ _).mpr ⟨_, rfl, .inl unfailing_nil⟩
    · rw [wp_bind, wp_malloc_replying]
      intro mb
      rw [wp_bind]
      apply wp_mono _ ?_ (fun _ _ h => h.1)
        (wp_onBus_replying [] (tcmcdRead_trace s.active.target _ mb _))
      rintro ⟨rc, mb⟩ ⟨tr, _⟩ ⟨htr, rfl⟩
      refine (wp_putPacket_replying _ _).mpr ⟨_, rfl, ?_⟩
      by_cases hrc : rc = 0
      · exact .inl (htr hrc)
      · exact .inr (if_pos hrc)
  · rw [dispatch_M polls s buf n hm]
    apply wp_stays
    unfold handle_M
    split
    · dsimp only
      split
      · exact (wp_putPacket_replying _ _).mpr ⟨_, rfl, .inl unfailing_nil⟩
      · rw [wp_bind]
        apply wp_mono _ ?_ (fun _ _ h => h.1)
          (wp_onBus_replying [] (tcmcdWrite_trace s.active.target _ _ _))
        rintro rc ⟨tr, _⟩ ⟨htr, rfl⟩
        refine (wp_putPacket_replying _ _).mpr ⟨_, rfl, ?_⟩
        by_cases hrc : rc = 0
        · exact .inl (htr hrc)
        · exact .inr (if_pos hrc)
    · exact (wp_putPacket_replying _ _).mpr ⟨_, rfl, .inl unfailing_nil⟩

/-! ## One packet -/

theorem honest_of_unfailing {tr : List (Event BusSig)} (h : Unfailing tr) (reply : List UInt8) :
    Honest s buf tr reply where
  block := fun _ _ _ _ hf => absurd rfl (h _ hf)
  register := fun _ _ _ hf => absurd rfl (h _ hf)
  memory := fun _ _ _ hf => absurd rfl (h _ hf)
  write := fun _ hf => absurd h hf

theorem not_presents_error {w k : Nat} (hw : w = 2 ∨ w = 8) : ¬ Presents w k (bytes "E01") := by
  rintro ⟨hlen, -⟩
  rcases hw with rfl | rfl <;> exact absurd hlen (by decide)

/-- An error code hides nothing. -/
theorem honest_error (tr : List (Event BusSig)) : Honest s buf tr (bytes "E01") where
  block := fun _ _ _ _ _ => not_presents_error (.inr rfl)
  register := fun _ _ _ _ => not_presents_error (.inr rfl)
  memory := fun _ _ _ _ _ _ => not_presents_error (.inl rfl)
  write := fun _ _ => by decide

/-- The packets that read or write registers or memory. -/
abbrev IsAccess (buf : List UInt8) : Prop := buf.getD 0 0 ∈ [103, 71, 112, 80, 109, 77]

variable {x : Except Abort (Option Stub)} {tr : List (Event BusSig)} {out : List (List UInt8)}

/-- A register that could not be read is shown all the same. -/
theorem reported_read (hg : buf.getD 0 0 = 103 ∨ buf.getD 0 0 = 112)
    (hr : Runs (replying anything) (dispatch polls s buf n) ([], []) x (tr, out)) :
    Reported s buf x tr out ↔ Unfailing tr := by
  rcases hg with hg | hg
  · obtain ⟨hok, herror⟩ := hr.sound _ (dispatch_block hg)
    cases x with
    | error e => exact (herror e rfl).elim
    | ok r =>
      obtain ⟨rfl, reply, hout, hshown, hreads⟩ := hok r rfl
      refine ⟨?_, fun h => ⟨rfl, reply, hout, honest_of_unfailing h reply⟩⟩
      rintro ⟨-, reply', hout', hhonest⟩ e he hfail
      obtain rfl : reply = reply' := List.singleton_inj.mp (hout.symm.trans hout')
      obtain ⟨i, a, r, hi, rfl⟩ := hreads e he
      obtain rfl : r = none := hfail
      exact hhonest.block hg i a hi he (hshown i (reg_some.mp hi).1)
  · obtain ⟨hok, herror⟩ := hr.sound _ (dispatch_single hg)
    cases x with
    | error e => exact (herror e rfl).elim
    | ok r =>
      obtain ⟨rfl, reply, hout, hreads⟩ := hok r rfl
      refine ⟨?_, fun h => ⟨rfl, reply, hout, honest_of_unfailing h reply⟩⟩
      rintro ⟨-, reply', hout', hhonest⟩ e he hfail
      obtain rfl : reply = reply' := List.singleton_inj.mp (hout.symm.trans hout')
      obtain ⟨i, r, hi, rfl, hshown⟩ := hreads e he
      obtain rfl : r = none := hfail
      exact hhonest.register hg i hi he hshown

/-- A register that could not be written ends the stub. -/
theorem reported_write (hw : buf.getD 0 0 = 71 ∨ buf.getD 0 0 = 80)
    (hr : Runs (replying anything) (dispatch polls s buf n) ([], []) x (tr, out)) :
    Reported s buf x tr out ↔ Unfailing tr := by
  obtain ⟨hok, herror⟩ := hr.sound _ (dispatch_write hw)
  cases x with
  | error e =>
    refine ⟨fun h => ?_, fun h => absurd h (herror e rfl)⟩
    cases h.1
  | ok r =>
    obtain ⟨rfl, ⟨reply, hout⟩, htr⟩ := hok r rfl
    exact ⟨fun _ => htr, fun _ => ⟨rfl, reply, hout, honest_of_unfailing htr reply⟩⟩

theorem reported_memory (hm : buf.getD 0 0 = 109 ∨ buf.getD 0 0 = 77)
    (hr : Runs (replying anything) (dispatch polls s buf n) ([], []) x (tr, out)) :
    Reported s buf x tr out := by
  obtain ⟨hok, herror⟩ := hr.sound _ (dispatch_memory hm)
  cases x with
  | error e => exact (herror e rfl).elim
  | ok r =>
    obtain ⟨rfl, reply, hout, htr⟩ := hok r rfl
    refine ⟨rfl, reply, hout, ?_⟩
    rcases htr with htr | rfl
    · exact honest_of_unfailing htr reply
    · exact honest_error tr

/-- The packets whose failures are passed on: memory, or nothing failed. -/
theorem reported_iff (hbuf : IsAccess buf)
    (hr : Runs (replying anything) (dispatch polls s buf n) ([], []) x (tr, out)) :
    Reported s buf x tr out ↔ (buf.getD 0 0 = 109 ∨ buf.getD 0 0 = 77) ∨ Unfailing tr := by
  by_cases hm : buf.getD 0 0 = 109 ∨ buf.getD 0 0 = 77
  · exact iff_of_true (reported_memory hm hr) (.inl hm)
  · simp only [hm, false_or]
    by_cases hg : buf.getD 0 0 = 103 ∨ buf.getD 0 0 = 112
    · exact reported_read hg hr
    · apply reported_write _ hr
      simp only [IsAccess, List.mem_cons, List.not_mem_nil, or_false] at hbuf
      grind

end packets

/-! ## Sessions -/

/-- An access packet was received. -/
def Accesses (t : Turn) : Prop := t.Command ∧ IsAccess t.buf

/-- Whatever failed, the stub answered each access packet honestly, did not die, and went
on until it was told to stop. -/
structure AllReported (log : List Turn) (x : Except Abort Unit) : Prop where
  answered : ∀ t ∈ log, Accesses t → Reported t.stub t.buf t.result t.accesses t.replies
  lives : ∀ msg, x ≠ .error (.die msg)
  farewell : x = .ok () → ∃ t, log.getLast? = some t ∧ t.Farewell

/-- No access of a register packet fails; those of a memory packet may. -/
def Spared (t : Turn) : Prop :=
  (t.buf.getD 0 0 = 109 ∨ t.buf.getD 0 0 = 77) ∨ Unfailing t.accesses

theorem isAccess_write {buf : List UInt8} (h : buf.getD 0 0 = 71 ∨ buf.getD 0 0 = 80) :
    IsAccess buf := by
  rcases h with h | h <;> rw [IsAccess, h] <;> decide

theorem failures_reported {polls : Nat} {s : Stub} {log : List Turn} {x : Except Abort Unit}
    (h : Session polls s log x) :
    AllReported log x ↔ ∀ t ∈ log, Accesses t → Spared t := by
  have hturn : ∀ t ∈ log, Accesses t →
      (Reported t.stub t.buf t.result t.accesses t.replies ↔ Spared t) := fun t ht hacc =>
    reported_iff hacc.2 ((h.occurs t ht).command hacc.1)
  constructor
  · exact fun hall t ht hacc => (hturn t ht hacc).mp (hall.answered t ht hacc)
  · intro hspared
    refine ⟨fun t ht hacc => (hturn t ht hacc).mpr (hspared t ht hacc), ?_, ?_⟩
    · rintro msg rfl
      obtain ⟨t, ht, hdied, hc, hw⟩ := h.died
      have hacc : Accesses t := ⟨hc, isAccess_write hw⟩
      have hreported := (hturn t ht hacc).mpr (hspared t ht hacc)
      cases hdied.symm.trans hreported.1
    · rintro rfl
      exact h.farewell

/-- A round in which each access is answered in one fixed way. -/
def turnBy (answer : (o : BusOp) → BusSig.Res o) (polls : Nat) (s : Stub) (p : Packet) : Turn :=
  let r := (respond polls s p.buf p.payload.length).exec
    (replyingBy fun tr o => (answer o, tr ++ [(⟨o, answer o⟩ : Event BusSig)])) ([], [])
  ⟨s, p.payload.length, p.buf, r.1, r.2.1, r.2.2⟩

theorem turnBy_occurs (answer : (o : BusOp) → BusSig.Res o) (polls : Nat) (s : Stub) (p : Packet) :
    (turnBy answer polls s p).Occurs polls :=
  runs_replyingBy (fun tr o => (answer o, tr ++ [(⟨o, answer o⟩ : Event BusSig)]))
    (fun _ _ => rfl) _ _

/-- The target accepts writes, and every read fails. -/
def writeOnly : (o : BusOp) → BusSig.Res o
  | .read .. => (none : Option UInt32)
  | .write .. => true

def memoryTurn : Turn := turnBy writeOnly 1 Stub.lone ⟨bytes "m0,4", []⟩

def registerTurn : Turn := turnBy writeOnly 1 Stub.lone ⟨bytes "p0", []⟩

theorem failures_reported_memory :
    Session 1 Stub.lone [memoryTurn] (.error .unfinished) ∧
      AllReported [memoryTurn] (.error .unfinished) := by
  have hsession : Session 1 Stub.lone [memoryTurn] (.error .unfinished) :=
    .next memoryTurn Stub.lone [] _ (turnBy_occurs _ _ _ _) rfl (.unfinished _)
  refine ⟨hsession, (failures_reported hsession).mpr fun t ht _ => ?_⟩
  obtain rfl := List.mem_singleton.mp ht
  exact .inl (.inl rfl)

/-- A register that cannot be read is shown as zero. -/
theorem unread_register_shown : ¬ ∀ polls s log x, Session polls s log x → AllReported log x := by
  intro h
  have hsession : Session 1 Stub.lone [registerTurn] (.error .unfinished) :=
    .next registerTurn Stub.lone [] _ (turnBy_occurs _ _ _ _) rfl (.unfinished _)
  have hacc : Accesses registerTurn := ⟨⟨by decide, by decide⟩, by decide⟩
  obtain ⟨-, reply, hreply, hhonest⟩ :=
    (h 1 Stub.lone _ _ hsession).answered registerTurn (List.mem_singleton_self _) hacc
  have hzero : [bytes "00000000"] = [reply] := hreply
  obtain rfl := List.singleton_inj.mp hzero
  refine hhonest.register rfl ⟨0, by decide⟩ rfl (List.mem_singleton_self _) ?_
  exact ⟨rfl, Nat.le_refl 8, List.all_eq_true.mp rfl⟩

end OpenTricore.Failures
