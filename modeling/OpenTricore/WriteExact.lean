import OpenTricore.MemoryAccess

/-! `tcmcd_write` against a memory whose accesses may fail in any pattern: the
range is written exactly or up to the word that failed, nothing else changes, and
what was written reads back. -/

namespace OpenTricore
open Lib Lib.Prog

/-- What a call of `tcmcd_write` that ends with `x` has done to the memory `m`. -/
structure WriteOutcome (t : Target) (addr : UInt64) (buf : Nat → UInt8) (len : UInt32) (m : Mem)
    (x : Except Abort Int) (s : Faulty) : Prop where
  returned : x = .ok 0 ∧ s.failed = none ∨ x = .ok (-1) ∧ ∃ a, s.failed = some a
  whole : x = .ok 0 → ∀ i < len.toNat, s.mem (addr.toNat + i) = buf i
  frame : ∀ b, b < addr.toNat ∨ addr.toNat + len.toNat ≤ b → s.mem b = m b
  cut : ∀ a, s.failed = some a → a.toNat % 4 = 0 ∧ addr.toNat < a.toNat + 4 ∧
    a.toNat < addr.toNat + len.toNat ∧
    ∀ i < len.toNat, s.mem (addr.toNat + i) =
      if addr.toNat + i < a.toNat then buf i else m (addr.toNat + i)
  readBack : x = .ok 0 → ∀ old y m', Runs readableMemory (tcmcdRead t addr old len) s.mem y m' →
    ∃ out, y = .ok (0, out) ∧ ∀ i < len.toNat, out i = buf i

section
variable {t : Target} {addr : UInt64} {buf : Nat → UInt8} {len : UInt32} {m : Mem}

theorem writtenBelow_inside (a i : Nat) (hi : i < len.toNat) :
    writtenBelow m addr len buf a (addr.toNat + i) =
      if addr.toNat + i < a then buf i else m (addr.toNat + i) := by
  rw [writtenBelow, storeRange_apply, Nat.add_sub_cancel_left]
  congr 1
  simp only [eq_iff_iff]
  omega

theorem writtenBelow_outside (a : Nat) {b : Nat}
    (hb : b < addr.toNat ∨ addr.toNat + len.toNat ≤ b) :
    writtenBelow m addr len buf a b = m b := by
  rw [writtenBelow, storeRange_apply, if_neg (by omega)]

/-- A range that was stored reads back, if the reads succeed. -/
theorem read_stored (hr : WordRange addr len) (old : Nat → UInt8) :
    (tcmcdRead t addr old len).wp readableMemory (fun x _ => x.1 = 0 ∧
      ∀ i < len.toNat, x.2 i = buf i) (fun _ _ => False)
      (storeRange m addr.toNat len.toNat buf) := by
  have hread := wp_and _ (tcmcdRead_readable t addr old len hr _)
    (wp_env_mono memory_of_readable
      (tcmcdRead_spec t addr old len hr (storeRange m addr.toNat len.toNat buf)))
  apply wp_mono _ ?_ (fun _ _ h => h.1) hread
  rintro x m' ⟨hok, -, hfail | ⟨-, hbytes⟩⟩
  · rw [hok] at hfail
    cases hfail
  · refine ⟨hok, fun i hi => ?_⟩
    rw [hbytes i hi, storeRange_apply, if_pos (by omega), Nat.add_sub_cancel_left]

theorem outcome_stored (hr : WordRange addr len) :
    WriteOutcome t addr buf len m (.ok 0) ⟨storeRange m addr.toNat len.toNat buf, none⟩ where
  returned := .inl ⟨rfl, rfl⟩
  whole _ i hi := by
    dsimp only
    rw [storeRange_apply, if_pos (by omega), Nat.add_sub_cancel_left]
  frame b hb := by
    dsimp only
    rw [storeRange_apply, if_neg (by omega)]
  cut a ha := by cases ha
  readBack _ old y m' hrun := by
    obtain ⟨hok, herr⟩ := hrun.sound _ (read_stored hr old)
    cases y with
    | ok y =>
      obtain ⟨rc, out⟩ := y
      obtain ⟨rfl, hout⟩ := hok _ rfl
      exact ⟨out, rfl, hout⟩
    | error e => exact (herr e rfl).elim

theorem outcome_cut {a : UInt64} (ha : AtWord addr len a)
    (hhigh : a.toNat + 4 ≤ (addr.toNat + len.toNat + 3) / 4 * 4) :
    WriteOutcome t addr buf len m (.ok (-1)) ⟨writtenBelow m addr len buf a.toNat, some a⟩ where
  returned := .inr ⟨rfl, a, rfl⟩
  whole h := by cases h
  frame b hb := writtenBelow_outside a.toNat hb
  cut a' ha' := by
    obtain rfl : a = a' := Option.some.inj ha'
    have := ha.low
    exact ⟨ha.aligned, by omega, by omega, fun i hi => writtenBelow_inside a.toNat i hi⟩
  readBack h := by cases h

end

/-- `tcmcd_write` is exact, touches nothing but its range, and stops at a word. -/
theorem write_exact (t : Target) (addr : UInt64) (buf : Nat → UInt8) (len : UInt32)
    (h : addr.toNat + len.toNat + 3 < 2 ^ 64) (m : Mem) (x : Except Abort Int) (s : Faulty)
    (hrun : Runs faultyMemory (tcmcdWrite t addr buf len) ⟨m, none⟩ x s) :
    WriteOutcome t addr buf len m x s := by
  have hr : WordRange addr len := ⟨h⟩
  obtain ⟨hok, herr⟩ := hrun.sound _ (tcmcdWrite_faulty t addr buf len hr m)
  cases x with
  | error e => exact (herr e rfl).elim
  | ok rc =>
    rcases hok rc rfl with ⟨rfl, rfl⟩ | ⟨rfl, a, ha, hhigh, rfl⟩
    · exact outcome_stored hr
    · exact outcome_cut ha hhigh

/-- The memory when the accesses to the word at `bad` fail, and no others. -/
def failingAt (bad : UInt64) (s : Faulty) : (o : BusOp) → BusSig.Res o × Faulty
  | .read _ a =>
    if a.address = bad then ((none : Option UInt32), { s with failed := some a.address })
    else ((some (loadWord s.mem a.address.toNat) : Option UInt32), s)
  | .write _ a v =>
    if a.address = bad then (false, { s with failed := some a.address })
    else (true, { s with mem := storeWord s.mem a.address.toNat v })

theorem faulty_failingAt (bad : UInt64) (s : Faulty) (o : BusOp) :
    faultyMemory s o (failingAt bad s o).1 (failingAt bad s o).2 := by
  cases o with
  | read c a =>
    rw [failingAt]
    split
    · exact .inr ⟨rfl, rfl⟩
    · exact .inl ⟨rfl, rfl⟩
  | write c a v =>
    rw [failingAt]
    split
    · exact .inr ⟨rfl, rfl⟩
    · exact .inl ⟨rfl, rfl⟩

/-- Bytes 2 to 6, with the second word failing. -/
theorem write_exact_failing :
    ∃ x s, Runs faultyMemory (tcmcdWrite ⟨0, 0⟩ 2 (fun i => UInt8.ofNat i) 5)
      ⟨fun _ => 7, none⟩ x s ∧
      WriteOutcome ⟨0, 0⟩ 2 (fun i => UInt8.ofNat i) 5 (fun _ => 7) x s := by
  have hrun := runs_exec faultyMemory (failingAt 4) (faulty_failingAt 4)
    (tcmcdWrite ⟨0, 0⟩ 2 (fun i => UInt8.ofNat i) 5) ⟨fun _ => 7, none⟩
  exact ⟨_, _, hrun, write_exact _ _ _ _ (by decide) _ _ _ hrun⟩

end OpenTricore
