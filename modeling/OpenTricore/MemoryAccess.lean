import OpenTricore.Tcmcd

/-! `tcmcd_read` and `tcmcd_write` on a memory of plain bytes behind aligned
32-bit accesses that may fail. A range is written exactly, word by word, and
nothing else is touched, and a range that reads without a fault reads back as
it is stored. -/

namespace OpenTricore
open Lib Lib.Prog

/-- Any access may fail, without an effect. A read that succeeds answers the
word in memory, a write that succeeds stores its word. -/
def memory : Env BusSig Mem
  | m, .read _ a, r, m' => m' = m ∧ ∀ w, r = some w → w = loadWord m a.address.toNat
  | m, .write _ a v, r, m' =>
    (r = true ∧ m' = storeWord m a.address.toNat v) ∨ (r = false ∧ m' = m)

/-- The memory, and the word at which an access failed last. -/
structure Faulty where
  mem : Mem
  failed : Option UInt64

/-- The same memory, which remembers where an access fails. -/
def faultyMemory : Env BusSig Faulty
  | s, .read _ a, r, s' =>
    (r = some (loadWord s.mem a.address.toNat) ∧ s' = s) ∨
      (r = none ∧ s' = { s with failed := some a.address })
  | s, .write _ a v, r, s' =>
    (r = true ∧ s' = { s with mem := storeWord s.mem a.address.toNat v }) ∨
      (r = false ∧ s' = { s with failed := some a.address })

/-- Every way of failing is one of `faultyMemory`. -/
theorem faulty_of_memory (s : Faulty) (m : Mem) (o : BusOp) (r : BusSig.Res o) (m' : Mem)
    (hs : s.mem = m) (h : memory m o r m') : ∃ s', faultyMemory s o r s' ∧ s'.mem = m' := by
  subst hs
  cases o with
  | read c a =>
    obtain ⟨rfl, hr⟩ := h
    cases r with
    | none => exact ⟨_, .inr ⟨rfl, rfl⟩, rfl⟩
    | some w =>
      rw [hr w rfl]
      exact ⟨s, .inl ⟨rfl, rfl⟩, rfl⟩
  | write c a v =>
    rcases h with ⟨rfl, rfl⟩ | ⟨rfl, rfl⟩
    · exact ⟨_, .inl ⟨rfl, rfl⟩, rfl⟩
    · exact ⟨_, .inr ⟨rfl, rfl⟩, rfl⟩

/-- The same memory when no read fails. -/
def readableMemory : Env BusSig Mem
  | m, .read _ a, r, m' => m' = m ∧ r = some (loadWord m a.address.toNat)
  | m, .write c a v, r, m' => memory m (.write c a v) r m'

theorem memory_of_readable (m : Mem) (o : BusOp) (r : BusSig.Res o) (m' : Mem)
    (h : readableMemory m o r m') : memory m o r m' := by
  cases o with
  | read c a =>
    obtain ⟨rfl, rfl⟩ := h
    exact ⟨rfl, fun w hw => (Option.some.inj hw).symm⟩
  | write c a v => exact h

/-! ## The words of a range -/

/-- A range that does not come near the end of the address space, as C sees it:
`a0` is its first word and `a1` the end of its last. -/
structure WordRange (addr : UInt64) (len : UInt32) : Prop where
  bound : addr.toNat + len.toNat + 3 < 2 ^ 64

section
variable {addr : UInt64} {len : UInt32}

theorem toNat_first (addr : UInt64) : (addr &&& ~~~3).toNat = addr.toNat / 4 * 4 :=
  toNat_and_not addr 3 2 (by omega) rfl

theorem WordRange.toNat_end (h : WordRange addr len) :
    (addr + len.toUInt64).toNat = addr.toNat + len.toNat := by
  have := h.bound
  rw [UInt64.toNat_add, UInt32.toNat_toUInt64]
  omega

theorem WordRange.toNat_last (h : WordRange addr len) :
    ((addr + len.toUInt64 + 3) &&& ~~~3).toNat = (addr.toNat + len.toNat + 3) / 4 * 4 := by
  have := h.bound
  rw [toNat_first, UInt64.toNat_add, h.toNat_end, show (3 : UInt64).toNat = 3 from rfl]
  omega

/-- The loops visit the words of the range in ascending order. -/
structure AtWord (addr : UInt64) (len : UInt32) (a : UInt64) : Prop where
  aligned : a.toNat % 4 = 0
  low : addr.toNat / 4 * 4 ≤ a.toNat
  high : a.toNat ≤ (addr.toNat + len.toNat + 3) / 4 * 4

theorem atWord_first : AtWord addr len (addr &&& ~~~3) := by
  have h := toNat_first addr
  exact ⟨by omega, by omega, by omega⟩

theorem AtWord.next {a : UInt64} (hr : WordRange addr len) (h : AtWord addr len a)
    (hlt : a < (addr + len.toUInt64 + 3) &&& ~~~3) :
    AtWord addr len (a + 4) ∧ (a + 4).toNat = a.toNat + 4 ∧
      a.toNat + 4 ≤ (addr.toNat + len.toNat + 3) / 4 * 4 := by
  have hlt' := UInt64.lt_iff_toNat_lt.mp hlt
  rw [hr.toNat_last] at hlt'
  have := hr.bound
  have := h.aligned
  have := h.low
  have h4 : (a + 4).toNat = a.toNat + 4 := by
    rw [UInt64.toNat_add, show (4 : UInt64).toNat = 4 from rfl]; omega
  exact ⟨⟨by omega, by omega, by omega⟩, h4, by omega⟩

/-- The test for a byte of the word at `a` to lie in the range. -/
theorem AtWord.inRange_iff {a : UInt64} (hr : WordRange addr len)
    (hlt : a.toNat + 4 ≤ (addr.toNat + len.toNat + 3) / 4 * 4) (b : Nat) (hb : b < 4) :
    (a + UInt64.ofNat b ≥ addr ∧ a + UInt64.ofNat b < addr + len.toUInt64 ↔
      addr.toNat ≤ a.toNat + b ∧ a.toNat + b < addr.toNat + len.toNat) ∧
    (addr.toNat ≤ a.toNat + b → (a + UInt64.ofNat b - addr).toNat = a.toNat + b - addr.toNat) := by
  have := hr.bound
  have hcur : (a + UInt64.ofNat b).toNat = a.toNat + b := by
    rw [UInt64.toNat_add, UInt64.toNat_ofNat']
    omega
  refine ⟨?_, fun hle => ?_⟩
  · rw [ge_iff_le, UInt64.le_iff_toNat_le, UInt64.lt_iff_toNat_lt, hcur, hr.toNat_end]
  · rw [UInt64.toNat_sub_of_le _ _ (UInt64.le_iff_toNat_le.mpr (by omega)), hcur]

end

/-! ## Merging and extracting the bytes of one word -/

theorem byteOf_mergeWord {addr : UInt64} {len : UInt32} {a : UInt64} (hr : WordRange addr len)
    (hlt : a.toNat + 4 ≤ (addr.toNat + len.toNat + 3) / 4 * 4) (buf : Nat → UInt8)
    (w : UInt32) (c : Nat) (hc : c < 4) :
    byteOf (mergeWord addr buf len a w) c =
      if addr.toNat ≤ a.toNat + c ∧ a.toNat + c < addr.toNat + len.toNat
      then buf (a.toNat + c - addr.toNat) else byteOf w c := by
  -- after the first `n` rounds the bytes below `n` are merged
  suffices h : ∀ n ≤ 4, byteOf ((List.range n).foldl (fun w b =>
      let cur := a + UInt64.ofNat b
      if cur ≥ addr ∧ cur < addr + len.toUInt64 then setByte w b (buf (cur - addr).toNat)
      else w) w) c =
      if c < n ∧ addr.toNat ≤ a.toNat + c ∧ a.toNat + c < addr.toNat + len.toNat
      then buf (a.toNat + c - addr.toNat) else byteOf w c by
    have := h 4 (by omega)
    simpa [mergeWord, hc] using this
  intro n hn
  induction n with
  | zero => simp
  | succ n ih =>
    obtain ⟨hin, hsub⟩ := AtWord.inRange_iff hr hlt n (by omega)
    rw [List.range_succ, List.foldl_append]
    simp only [List.foldl_cons, List.foldl_nil, hin]
    split
    · rename_i hcond
      rw [byteOf_setByte _ _ _ _ (by omega) hc, ih (by omega), hsub hcond.1]
      by_cases hcn : c = n
      · subst hcn
        rw [if_pos rfl, if_pos ⟨by omega, hcond⟩]
      · rw [if_neg hcn]
        congr 1
        simp only [eq_iff_iff]
        constructor <;> rintro ⟨h1, h2⟩ <;> exact ⟨by omega, h2⟩
    · rename_i hcond
      rw [ih (by omega)]
      congr 1
      simp only [eq_iff_iff]
      constructor
      · rintro ⟨h1, h2⟩; exact ⟨by omega, h2⟩
      · rintro ⟨h1, h2⟩
        refine ⟨?_, h2⟩
        by_contra hcn
        have : c = n := by omega
        subst this
        exact hcond h2

theorem readWordInto_apply {addr : UInt64} {len : UInt32} {a : UInt64} (hr : WordRange addr len)
    (hlt : a.toNat + 4 ≤ (addr.toNat + len.toNat + 3) / 4 * 4) (w : UInt32) (buf : Nat → UInt8)
    (i : Nat) (hi : i < len.toNat) :
    readWordInto addr len a w buf i =
      if a.toNat ≤ addr.toNat + i ∧ addr.toNat + i < a.toNat + 4
      then byteOf w (addr.toNat + i - a.toNat) else buf i := by
  suffices h : ∀ n ≤ 4, (List.range n).foldl (fun buf b =>
      let cur := a + UInt64.ofNat b
      if cur ≥ addr ∧ cur < addr + len.toUInt64 then
        fun i => if i = (cur - addr).toNat then byteOf w b else buf i
      else buf) buf i =
      if a.toNat ≤ addr.toNat + i ∧ addr.toNat + i < a.toNat + n
      then byteOf w (addr.toNat + i - a.toNat) else buf i by
    exact h 4 (by omega)
  intro n hn
  induction n with
  | zero => rw [if_neg (by omega)]; rfl
  | succ n ih =>
    obtain ⟨hin, hsub⟩ := AtWord.inRange_iff hr hlt n (by omega)
    rw [List.range_succ, List.foldl_append]
    simp only [List.foldl_cons, List.foldl_nil, hin]
    split
    · rename_i hcond
      rw [hsub hcond.1]
      beta_reduce
      by_cases hin' : i = a.toNat + n - addr.toNat
      · rw [if_pos hin', if_pos (by omega), show addr.toNat + i - a.toNat = n by omega]
      · rw [if_neg hin', ih (by omega)]
        congr 1
        simp only [eq_iff_iff]
        omega
    · rw [ih (by omega)]
      congr 1
      simp only [eq_iff_iff]
      omega

/-- The memory after the words of the range below `a` are written. -/
def writtenBelow (m : Mem) (addr : UInt64) (len : UInt32) (buf : Nat → UInt8) (a : Nat) : Mem :=
  storeRange m addr.toNat (min a (addr.toNat + len.toNat) - addr.toNat) buf

/-- Storing the merged word at `a` writes the part of the range in that word. -/
theorem storeWord_mergeWord {addr : UInt64} {len : UInt32} {a : UInt64} (hr : WordRange addr len)
    (hlt : a.toNat + 4 ≤ (addr.toNat + len.toNat + 3) / 4 * 4) (m : Mem) (buf : Nat → UInt8)
    (w : UInt32)
    (hw : (a ≥ addr ∧ a + 4 ≤ addr + len.toUInt64) ∨
      w = loadWord (writtenBelow m addr len buf a.toNat) a.toNat) :
    storeWord (writtenBelow m addr len buf a.toNat) a.toNat (mergeWord addr buf len a w) =
      writtenBelow m addr len buf (a.toNat + 4) := by
  have h4 : (a + 4).toNat = a.toNat + 4 := by
    have := hr.bound
    rw [UInt64.toNat_add, show (4 : UInt64).toNat = 4 from rfl]; omega
  funext x
  rw [storeWord_apply]
  simp only [writtenBelow]
  by_cases hx : a.toNat ≤ x ∧ x < a.toNat + 4
  · rw [if_pos hx, byteOf_mergeWord hr hlt buf w _ (by omega), storeRange_apply]
    by_cases hin : addr.toNat ≤ x ∧ x < addr.toNat + len.toNat
    · rw [if_pos (by omega), if_pos (by omega)]
      congr 1
      omega
    · rw [if_neg (by omega), if_neg (by omega)]
      rcases hw with hfull | rfl
      · -- a full word lies in the range
        rw [ge_iff_le, UInt64.le_iff_toNat_le, UInt64.le_iff_toNat_le, h4, hr.toNat_end] at hfull
        omega
      · rw [byteOf_loadWord _ _ _ (by omega), writtenBelow, storeRange_apply, if_neg (by omega)]
        congr 1
        omega
  · rw [if_neg hx, storeRange_apply, storeRange_apply]
    congr 1
    simp only [eq_iff_iff]
    omega

/-! ## The loops -/

/-- The old word is read only where some of it must be kept. -/
theorem oldWord_faulty (t : Target) (addr : UInt64) (len : UInt32) (a : UInt64) (m : Mem) :
    (oldWord t addr len a).wp faultyMemory (fun w s => match w with
      | some v => s = ⟨m, none⟩ ∧
        ((a ≥ addr ∧ a + 4 ≤ addr + len.toUInt64) ∨ v = loadWord m a.toNat)
      | none => s = ⟨m, some a⟩) (fun _ _ => False) ⟨m, none⟩ := by
  simp only [oldWord]
  split
  · rename_i hfull
    exact ⟨rfl, .inl hfull⟩
  · simp only [rd32Try, wp_xferR]
    rintro r _ (⟨rfl, rfl⟩ | ⟨rfl, rfl⟩)
    · exact ⟨rfl, .inr rfl⟩
    · rfl

/-- How `tcmcd_write` leaves the memory: all of the range is written, or everything
before the word at which an access failed and nothing from it on. -/
theorem tcmcdWrite_faulty (t : Target) (addr : UInt64) (buf : Nat → UInt8) (len : UInt32)
    (hr : WordRange addr len) (m : Mem) :
    (tcmcdWrite t addr buf len).wp faultyMemory (fun rc s =>
      (rc = 0 ∧ s = ⟨storeRange m addr.toNat len.toNat buf, none⟩) ∨
      (rc = -1 ∧ ∃ a : UInt64, AtWord addr len a ∧
        a.toNat + 4 ≤ (addr.toNat + len.toNat + 3) / 4 * 4 ∧
        s = ⟨writtenBelow m addr len buf a.toNat, some a⟩))
      (fun _ _ => False) ⟨m, none⟩ := by
  have hbound := hr.bound
  refine wp_loop _ (fun a s => AtWord addr len a ∧
      s = ⟨writtenBelow m addr len buf a.toNat, none⟩)
    (fun a => ((addr.toNat + len.toNat + 3) / 4 * 4 - a.toNat) / 4) _ _ ?_ _ _ _
      ⟨atWord_first, ?_⟩ ?_
  · rintro a _ ⟨ha, rfl⟩
    split
    · rename_i hlt
      obtain ⟨hnext, h4, hhigh⟩ := ha.next hr hlt
      rw [wp_bind]
      refine wp_mono _ ?_ (fun _ _ h => h) (oldWord_faulty t addr len a _)
      intro w s hs
      cases w with
      | none => exact .inr ⟨rfl, a, ha, hhigh, hs⟩
      | some w =>
        obtain ⟨rfl, hw⟩ := hs
        simp only [wp_bind, wp_xferW]
        rintro r _ (⟨rfl, rfl⟩ | ⟨rfl, rfl⟩)
        · simp only [↓reduceIte, pure_eq, wp_ret]
          refine ⟨⟨hnext, ?_⟩, by omega⟩
          rw [storeWord_mergeWord hr hhigh m buf w hw, h4]
        · exact .inr ⟨rfl, a, ha, hhigh, rfl⟩
    · rename_i hge
      rw [UInt64.lt_iff_toNat_lt, hr.toNat_last] at hge
      refine .inl ⟨rfl, ?_⟩
      rw [writtenBelow, show min a.toNat _ - addr.toNat = len.toNat by omega]
  · rw [writtenBelow, toNat_first, show min _ _ - addr.toNat = 0 by omega, storeRange_zero]
  · omega

theorem tcmcdWrite_spec (t : Target) (addr : UInt64) (buf : Nat → UInt8) (len : UInt32)
    (hr : WordRange addr len) (m : Mem) :
    (tcmcdWrite t addr buf len).wp memory (fun rc m' =>
      (rc = 0 ∧ m' = storeRange m addr.toNat len.toNat buf) ∨
      (rc = -1 ∧ ∃ a : UInt64, AtWord addr len a ∧ m' = writtenBelow m addr len buf a.toNat))
      (fun _ _ => False) m := by
  have hsim : (tcmcdWrite t addr buf len).wp memory _ _ m :=
    wp_sim (fun (s : Faulty) (m : Mem) => s.mem = m)
    (fun s m o r m' hs h => faulty_of_memory s m o r m' hs h) rfl
    (tcmcdWrite_faulty t addr buf len hr m)
  apply wp_mono _ ?_ ?_ hsim
  · rintro rc _ ⟨s, rfl, ⟨rfl, rfl⟩ | ⟨rfl, a, ha, -, rfl⟩⟩
    · exact .inl ⟨rfl, rfl⟩
    · exact .inr ⟨rfl, a, ha, rfl⟩
  · rintro e _ ⟨s, -, hfalse⟩
    exact hfalse

theorem tcmcdRead_spec (t : Target) (addr : UInt64) (buf : Nat → UInt8) (len : UInt32)
    (hr : WordRange addr len) (m : Mem) :
    (tcmcdRead t addr buf len).wp memory (fun x m' =>
      m' = m ∧ (x.1 = -1 ∨ x.1 = 0 ∧ ∀ i < len.toNat, x.2 i = m (addr.toNat + i)))
      (fun _ _ => False) m := by
  have hbound := hr.bound
  refine wp_loop _ (fun b m' => m' = m ∧ AtWord addr len b.1 ∧
      ∀ i < len.toNat, addr.toNat + i < b.1.toNat → b.2 i = m (addr.toNat + i))
    (fun b => ((addr.toNat + len.toNat + 3) / 4 * 4 - b.1.toNat) / 4) _ _ ?_ _ _ _
    ⟨rfl, atWord_first, ?_⟩ ?_
  · rintro ⟨a, buf⟩ _ ⟨rfl, ha, hbuf⟩
    simp only at ha hbuf ⊢
    split
    · rename_i hlt
      obtain ⟨hnext, h4, hhigh⟩ := ha.next hr hlt
      simp only [rd32Try, wp_bind, wp_xferR]
      rintro r _ ⟨rfl, hword⟩
      cases r with
      | none => exact ⟨rfl, .inl rfl⟩
      | some w =>
        refine ⟨⟨rfl, hnext, fun i hi hlow => ?_⟩, by dsimp only; omega⟩
        dsimp only at hlow ⊢
        rw [readWordInto_apply hr hhigh w buf i hi]
        split
        · rw [hword w rfl, byteOf_loadWord _ _ _ (by omega)]
          congr 1
          dsimp only
          omega
        · exact hbuf i hi (by omega)
    · rename_i hge
      rw [UInt64.lt_iff_toNat_lt, hr.toNat_last] at hge
      exact ⟨rfl, .inr ⟨rfl, fun i hi => hbuf i hi (by omega)⟩⟩
  · intro i _ hlow
    rw [toNat_first] at hlow
    omega
  · simp only
    omega

/-- If no read fails, the range is read. -/
theorem tcmcdRead_readable (t : Target) (addr : UInt64) (buf : Nat → UInt8) (len : UInt32)
    (hr : WordRange addr len) (m : Mem) :
    (tcmcdRead t addr buf len).wp readableMemory (fun x _ => x.1 = 0) (fun _ _ => False) m := by
  have hbound := hr.bound
  refine wp_loop _ (fun b _ => AtWord addr len b.1)
    (fun b => ((addr.toNat + len.toNat + 3) / 4 * 4 - b.1.toNat) / 4) _ _ ?_ _ _ _ atWord_first ?_
  · rintro ⟨a, buf⟩ m ha
    simp only at ha ⊢
    split
    · rename_i hlt
      obtain ⟨hnext, h4, hhigh⟩ := ha.next hr hlt
      simp only [rd32Try, wp_bind, wp_xferR]
      rintro r _ ⟨-, rfl⟩
      exact ⟨hnext, by dsimp only; omega⟩
    · rfl
  · simp only
    omega

/-! ## Every range -/

/-- The words below an aligned end are visited one by one, also where the end has
wrapped. -/
theorem word_next {a a1 : UInt64} (ha : a.toNat % 4 = 0) (ha1 : a1.toNat % 4 = 0) (hlt : a < a1) :
    (a + 4).toNat = a.toNat + 4 ∧ a.toNat + 4 ≤ a1.toNat := by
  rw [UInt64.lt_iff_toNat_lt] at hlt
  have := a1.toNat_lt
  rw [UInt64.toNat_add, show (4 : UInt64).toNat = 4 from rfl]
  omega

/-- Both functions return for every address and length. -/
theorem tcmcdRead_returns (t : Target) (addr : UInt64) (buf : Nat → UInt8) (len : UInt32) :
    (tcmcdRead t addr buf len).Returns := by
  have ha1 := toNat_first (addr + len.toUInt64 + 3)
  have hlt1 := ((addr + len.toUInt64 + 3) &&& ~~~3).toNat_lt
  have ha0 := toNat_first addr
  refine returns_loop (fun b => b.1.toNat % 4 = 0)
    (fun b => (((addr + len.toUInt64 + 3) &&& ~~~3).toNat - b.1.toNat) / 4) _ _ ?_ _ _ ?_ ?_
  · rintro ⟨a, buf⟩ ha
    dsimp only at ha ⊢
    split
    · rename_i hlt
      obtain ⟨h4, hhigh⟩ := word_next ha (by omega) hlt
      simp only [rd32Try, wp_bind, wp_xferR]
      intro r _ _
      cases r with
      | none => trivial
      | some w => exact ⟨by dsimp only; omega, by dsimp only; omega⟩
    · trivial
  · dsimp only
    omega
  · dsimp only
    omega

theorem tcmcdWrite_returns (t : Target) (addr : UInt64) (buf : Nat → UInt8) (len : UInt32) :
    (tcmcdWrite t addr buf len).Returns := by
  have ha1 := toNat_first (addr + len.toUInt64 + 3)
  have hlt1 := ((addr + len.toUInt64 + 3) &&& ~~~3).toNat_lt
  have ha0 := toNat_first addr
  refine returns_loop (fun a => a.toNat % 4 = 0)
    (fun a => (((addr + len.toUInt64 + 3) &&& ~~~3).toNat - a.toNat) / 4) _ _ ?_ _ _ ?_ ?_
  · intro a ha
    split
    · rename_i hlt
      obtain ⟨h4, hhigh⟩ := word_next ha (by omega) hlt
      have hold : (oldWord t addr len a).Returns := by
        simp only [oldWord]
        split
        · exact failsIn_ret _
        · exact failsIn_perform _
      rw [wp_bind]
      refine wp_mono _ ?_ (fun _ _ h => h) hold
      intro w _ _
      cases w with
      | none => trivial
      | some w =>
        simp only [wp_bind, wp_xferW]
        intro r _ _
        cases r with
        | true => exact ⟨by omega, by omega⟩
        | false => trivial
    · trivial
  · omega
  · omega

/-! ## In other surroundings -/

/-- A word that holds part of the range. -/
def TouchesRange (addr : UInt64) (len : UInt32) (o : BusSig.Op) : Prop :=
  addr.toNat / 4 * 4 ≤ (BusOp.address o).toNat ∧
    (BusOp.address o).toNat + 4 ≤ (addr.toNat + len.toNat + 3) / 4 * 4

/-- `tcmcd_write` accesses nothing but the words of its range. -/
theorem tcmcdWrite_asks (t : Target) (addr : UInt64) (buf : Nat → UInt8) (len : UInt32)
    (hr : WordRange addr len) :
    (tcmcdWrite t addr buf len).Asks (TouchesRange addr len) fun _ => True := by
  apply asks_loop (AtWord addr len) _ _ _ _ _ atWord_first
  intro a ha
  split
  · rename_i hlt
    obtain ⟨hnext, -, hhigh⟩ := ha.next hr hlt
    have hold : (oldWord t addr len a).Asks (TouchesRange addr len) fun _ => True := by
      simp only [oldWord]
      split
      · trivial
      · simp only [rd32Try, asks_xferR]
        exact ⟨⟨ha.low, hhigh⟩, fun _ => trivial⟩
    rw [asks_bind]
    apply Asks.mono hold
    intro x _
    cases x with
    | none => trivial
    | some v =>
      simp only [asks_bind, asks_xferW]
      refine ⟨⟨ha.low, hhigh⟩, fun b => ?_⟩
      cases b with
      | true => exact hnext
      | false => trivial
  · trivial

/-- No access fails. -/
structure Succeeds {σ : Type} (E : Env BusSig σ) : Prop where
  read : ∀ s c a (v : Option UInt32) s', E s (.read c a) v s' → ∃ x, v = some x
  write : ∀ s c a v (b : Bool) s', E s (.write c a v) b s' → b = true

theorem tcmcdWrite_succeeds {σ : Type} {E : Env BusSig σ} (hE : Succeeds E) (t : Target)
    (addr : UInt64) (buf : Nat → UInt8) (len : UInt32) (s : σ) :
    (tcmcdWrite t addr buf len).wp E (fun rc _ => rc = 0) (fun _ _ => False) s := by
  have ha1 := toNat_first (addr + len.toUInt64 + 3)
  have hlt1 := ((addr + len.toUInt64 + 3) &&& ~~~3).toNat_lt
  have ha0 := toNat_first addr
  apply wp_loop E (fun a _ => a.toNat % 4 = 0)
    (fun a => (((addr + len.toUInt64 + 3) &&& ~~~3).toNat - a.toNat) / 4)
  · intro a s ha
    split
    · rename_i hlt
      obtain ⟨h4, hhigh⟩ := word_next ha (by omega) hlt
      have hold : (oldWord t addr len a).wp E (fun v _ => ∃ x, v = some x)
          (fun _ _ => False) s := by
        simp only [oldWord]
        split
        · exact ⟨0, rfl⟩
        · simp only [rd32Try, wp_xferR]
          exact fun v s' h => hE.read _ _ _ _ _ h
      rw [wp_bind]
      apply wp_mono E ?_ (fun _ _ h => h) hold
      rintro _ s ⟨x, rfl⟩
      simp only [wp_bind, wp_xferW]
      intro b s' hb
      rw [hE.write _ _ _ _ _ _ hb]
      exact ⟨by omega, by omega⟩
    · rfl
  · omega
  · omega

end OpenTricore
