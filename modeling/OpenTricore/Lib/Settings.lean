import Mathlib.Data.List.Dedup
import Mathlib.Data.List.Perm.Lattice

/-! Settings that overwrite each other. A call sets what belongs to its kind, so of
several calls only the last of each kind counts. On words, what a call sets is a
group of bits. -/

namespace OpenTricore.Lib

/-! ## The last call of each kind -/

section kinds
variable {α κ σ : Type} [DecidableEq κ]

/-- Calls of different kinds commute, and a call undoes earlier ones of its kind. -/
structure Independent (kind : α → κ) (act : σ → α → σ) : Prop where
  comm : ∀ a b s, kind a ≠ kind b → act (act s a) b = act (act s b) a
  last : ∀ a b s, kind a = kind b → act (act s a) b = act s b

variable (kind : α → κ)

/-- The last call of kind `k`. -/
def lastOf (k : κ) : List α → Option α
  | [] => none
  | a :: l => (lastOf k l).or (if kind a = k then some a else none)

/-- The calls that no later one undoes. -/
def keepLast (l : List α) : List α := l.pwFilter fun a b => kind a ≠ kind b

variable {kind}

theorem lastOf_eq_none {k : κ} {l : List α} : lastOf kind k l = none ↔ ∀ a ∈ l, kind a ≠ k := by
  induction l with
  | nil => simp [lastOf]
  | cons b l ih => simp [lastOf, ih, and_comm]

theorem mem_keepLast {l : List α} {a : α} : a ∈ keepLast kind l ↔
    lastOf kind (kind a) l = some a := by
  induction l with
  | nil => simp [keepLast, lastOf]
  | cons b l ih =>
    have hkept : (∀ c ∈ keepLast kind l, kind b ≠ kind c) ↔ lastOf kind (kind b) l = none := by
      rw [lastOf_eq_none, keepLast, List.forall_mem_pwFilter]
      · simp only [ne_comm]
      · intro x y z hxz
        by_contra h
        rw [not_or, not_not, not_not] at h
        exact hxz (h.1.trans h.2)
    rw [lastOf, Option.or_eq_some_iff, ← ih]
    by_cases hb : lastOf kind (kind b) l = none
    · have hcons : keepLast kind (b :: l) = b :: keepLast kind l :=
        List.pwFilter_cons_of_pos (hkept.mpr hb)
      rw [hcons, List.mem_cons, or_comm]
      refine or_congr_right ⟨?_, ?_⟩
      · rintro rfl
        exact ⟨hb, if_pos rfl⟩
      · rintro ⟨-, h⟩
        split at h
        · cases h
          rfl
        · cases h
    · have hcons : keepLast kind (b :: l) = keepLast kind l :=
        List.pwFilter_cons_of_neg (mt hkept.mp hb)
      rw [hcons]
      refine ⟨.inl, ?_⟩
      rintro (h | ⟨hnone, h⟩)
      · exact h
      · split at h
        · rename_i hkind
          exact absurd (hkind ▸ hnone) hb
        · cases h

variable {act : σ → α → σ}

/-- A call that a later one undoes makes no difference. -/
theorem Independent.foldl_later (h : Independent kind act) {a : α} {l : List α}
    (hl : ∃ b ∈ l, kind a = kind b) (s : σ) : l.foldl act (act s a) = l.foldl act s := by
  induction l generalizing s with
  | nil => simp at hl
  | cons b l ih =>
    rw [List.foldl_cons, List.foldl_cons]
    by_cases hab : kind a = kind b
    · rw [h.last a b s hab]
    · rw [h.comm a b s hab]
      obtain ⟨c, hc, hac⟩ := hl
      rcases List.mem_cons.mp hc with rfl | hc
      · exact absurd hac hab
      · exact ih ⟨c, hc, hac⟩ (act s b)

theorem Independent.foldl_keepLast (h : Independent kind act) (l : List α) (s : σ) :
    (keepLast kind l).foldl act s = l.foldl act s := by
  induction l generalizing s with
  | nil => rfl
  | cons a l ih =>
    by_cases hkept : ∀ b ∈ keepLast kind l, kind a ≠ kind b
    · have hcons : keepLast kind (a :: l) = a :: keepLast kind l := List.pwFilter_cons_of_pos hkept
      rw [hcons, List.foldl_cons, List.foldl_cons, ih]
    · have hcons : keepLast kind (a :: l) = keepLast kind l := List.pwFilter_cons_of_neg hkept
      simp only [not_forall, not_not] at hkept
      obtain ⟨b, hb, hab⟩ := hkept
      rw [hcons, ih, List.foldl_cons, h.foldl_later ⟨b, List.pwFilter_subset l hb, hab⟩]

/-- The outcome depends on the last call of each kind only. -/
theorem Independent.foldl_eq (h : Independent kind act) {l l' : List α}
    (hlast : ∀ k, lastOf kind k l = lastOf kind k l') (s : σ) :
    l.foldl act s = l'.foldl act s := by
  have hnodup : ∀ l : List α, (keepLast kind l).Nodup := fun l =>
    (List.pairwise_pwFilter l).imp fun hne heq => hne (congrArg kind heq)
  have hperm : (keepLast kind l).Perm (keepLast kind l') := by
    rw [List.perm_ext_iff_of_nodup (hnodup l) (hnodup l')]
    intro a
    rw [mem_keepLast, mem_keepLast, hlast]
  rw [← h.foldl_keepLast l, ← h.foldl_keepLast l']
  apply hperm.foldl_eq'
  intro a ha b hb z
  by_cases hab : kind a = kind b
  · have hlast := (mem_keepLast.mp ha).symm.trans (hab ▸ mem_keepLast.mp hb)
    rw [Option.some.inj hlast]
  · exact h.comm a b z hab

end kinds

/-! ## Values that are set one after the other -/

section values
variable {α β : Type} [DecidableEq α]

/-- `w` after the assignments. -/
def assignAll (ws : List (α × β)) (w : α → β) : α → β :=
  ws.foldl (fun w x => Function.update w x.1 x.2) w

theorem assignAll_of_not_mem {ws : List (α × β)} {a : α} (h : ∀ x ∈ ws, x.1 ≠ a) (w : α → β) :
    assignAll ws w a = w a := by
  induction ws generalizing w with
  | nil => rfl
  | cons x ws ih =>
    have hrest := ih (fun y hy => h y (List.mem_cons_of_mem _ hy)) (Function.update w x.1 x.2)
    exact hrest.trans (Function.update_of_ne (h x List.mem_cons_self).symm ..)

/-- What all assignments to `a` agree on. -/
theorem assignAll_of_agree {ws : List (α × β)} {a : α} {v : β} (hex : ∃ x ∈ ws, x.1 = a)
    (hagree : ∀ x ∈ ws, x.1 = a → x.2 = v) (w : α → β) : assignAll ws w a = v := by
  induction ws generalizing w with
  | nil => simp at hex
  | cons y ws ih =>
    have hrest : ∀ x ∈ ws, x.1 = a → x.2 = v := fun x hx => hagree x (List.mem_cons_of_mem _ hx)
    by_cases hlater : ∃ x ∈ ws, x.1 = a
    · exact ih hlater hrest _
    · have hlast : ∀ x ∈ ws, x.1 ≠ a := fun x hx heq => hlater ⟨x, hx, heq⟩
      obtain ⟨x, hx, heq⟩ := hex
      rcases List.mem_cons.mp hx with rfl | hx
      · have hset : assignAll ws (Function.update w x.1 x.2) a = Function.update w x.1 x.2 a :=
          assignAll_of_not_mem hlast _
        rw [← hagree x List.mem_cons_self heq]
        refine hset.trans ?_
        rw [← heq]
        exact Function.update_self ..
      · exact absurd heq (hlast x hx)

/-- An assignment that no later one undoes. -/
theorem assignAll_of_mem {ws : List (α × β)} (hnodup : (ws.map Prod.fst).Nodup) {x : α × β}
    (hx : x ∈ ws) (w : α → β) : assignAll ws w x.1 = x.2 := by
  apply assignAll_of_agree ⟨x, hx, rfl⟩
  intro y hy heq
  rw [List.inj_on_of_nodup_map hnodup hy hx heq]

end values

/-! ## Fields of a word -/

/-- The bits of `mask` set to those of `value`, which has no others. -/
structure Setting where
  mask : UInt32
  value : UInt32
  fits : value &&& mask = value

/-- A masked word within a mask. -/
theorem and_within {w k m : UInt32} (h : k &&& m = k) : w &&& k &&& m = w &&& k := by
  rw [UInt32.and_assoc, h]

theorem or_within {v u m : UInt32} (hv : v &&& m = v) (hu : u &&& m = u) :
    (v ||| u) &&& m = v ||| u := by
  have hdistrib : (v ||| u) &&& m = (v &&& m) ||| (u &&& m) := by
    rw [← UInt32.toBitVec_inj]
    exact BitVec.and_or_distrib_right
  rw [hdistrib, hv, hu]

namespace Setting

/-- `(w & ~mask) | value`. -/
def apply (f : Setting) (w : UInt32) : UInt32 := (w &&& ~~~f.mask) ||| f.value

/-- A bit of a word. -/
def bitOf (w : UInt32) (i : Nat) : Bool := w.toBitVec.getLsbD i

theorem word_eq_of_bits {w w' : UInt32} (h : ∀ i < 32, bitOf w i = bitOf w' i) : w = w' :=
  UInt32.toBitVec_inj.mp (BitVec.eq_of_getLsbD_eq h)

@[simp] theorem bitOf_and (w w' : UInt32) (i : Nat) :
    bitOf (w &&& w') i = (bitOf w i && bitOf w' i) := by simp [bitOf]

@[simp] theorem bitOf_or (w w' : UInt32) (i : Nat) :
    bitOf (w ||| w') i = (bitOf w i || bitOf w' i) := by simp [bitOf]

theorem bitOf_not (w : UInt32) {i : Nat} (hi : i < 32) : bitOf (~~~w) i = !bitOf w i := by
  simp [bitOf, hi]

@[simp] theorem bitOf_zero (i : Nat) : bitOf 0 i = false := by simp [bitOf]

/-- The bits of `1u << k`. -/
theorem bitOf_one_shift {k : UInt32} (hk : k.toNat < 32) {n : Nat} (hn : n < 32) :
    bitOf (1 <<< k) n = decide (n = k.toNat) := by
  have hbit : bitOf (1 <<< k) n = (1 <<< k : UInt32).toNat.testBit n := rfl
  rw [hbit, UInt32.toNat_shiftLeft, Nat.mod_eq_of_lt hk, Nat.testBit_mod_two_pow,
    show (1 : UInt32).toNat = 1 from rfl, Nat.one_shiftLeft, Nat.testBit_two_pow]
  simp [hn, eq_comm]

/-- `w & (1u << k)` tests bit `k`. -/
theorem and_one_shift_ne_zero (w : UInt32) {k : UInt32} (hk : k.toNat < 32) :
    w &&& (1 <<< k) ≠ 0 ↔ bitOf w k.toNat = true := by
  constructor
  · intro hne
    by_contra hbit
    apply hne
    apply word_eq_of_bits
    intro i hi
    rw [bitOf_and, bitOf_one_shift hk hi]
    by_cases hik : i = k.toNat
    · subst hik
      rw [Bool.eq_false_iff.mpr hbit, Bool.false_and, bitOf_zero]
    · rw [decide_eq_false hik, Bool.and_false, bitOf_zero]
  · intro hbit hzero
    have hand := congrArg (bitOf · k.toNat) hzero
    simp [bitOf_one_shift hk hk, hbit] at hand

theorem and_not_or (w m m' : UInt32) : w &&& ~~~(m ||| m') = w &&& ~~~m &&& ~~~m' := by
  apply word_eq_of_bits
  intro i hi
  simp [bitOf_not _ hi, Bool.and_assoc]

/-- Bits that are set need not be cleared before. -/
theorem and_not_or_or (w m v u : UInt32) :
    (w &&& ~~~m) ||| v ||| u = (w &&& ~~~(m ||| u)) ||| (v ||| u) := by
  apply word_eq_of_bits
  intro i hi
  simp only [bitOf_or, bitOf_and, bitOf_not _ hi]
  cases bitOf u i <;> simp

variable (f g : Setting)

theorem bitOf_value {i : Nat} (h : bitOf f.value i = true) : bitOf f.mask i = true := by
  rw [← f.fits, bitOf_and, Bool.and_eq_true] at h
  exact h.2

/-- A bit of the mask is set as asked, and any other is kept. -/
theorem bitOf_apply (w : UInt32) {i : Nat} (hi : i < 32) :
    bitOf (f.apply w) i = if bitOf f.mask i then bitOf f.value i else bitOf w i := by
  rw [apply, bitOf_or, bitOf_and, bitOf_not _ hi]
  cases hm : bitOf f.mask i with
  | true => simp
  | false =>
    cases hv : bitOf f.value i with
    | true => rw [f.bitOf_value hv] at hm; cases hm
    | false => simp

/-- Nothing is set without a mask. -/
theorem apply_of_no_mask (h : f.mask = 0) (w : UInt32) : f.apply w = w := by
  apply word_eq_of_bits
  intro i hi
  rw [f.bitOf_apply w hi, h]
  simp [bitOf]

/-- Setting all bits of the mask. -/
theorem apply_ones (h : f.value = f.mask) (w : UInt32) : f.apply w = w ||| f.mask := by
  apply word_eq_of_bits
  intro i hi
  rw [f.bitOf_apply w hi, bitOf_or, h]
  cases bitOf f.mask i <;> simp

/-- The bits outside of the mask are kept. -/
theorem apply_outside (w : UInt32) : f.apply w &&& ~~~f.mask = w &&& ~~~f.mask := by
  apply word_eq_of_bits
  intro i hi
  rw [bitOf_and, bitOf_and, f.bitOf_apply w hi, bitOf_not _ hi]
  cases bitOf f.mask i <;> simp

/-- A later setting of the same bits undoes an earlier one. -/
theorem apply_last (h : f.mask = g.mask) (w : UInt32) : g.apply (f.apply w) = g.apply w := by
  apply word_eq_of_bits
  intro i hi
  rw [g.bitOf_apply _ hi, g.bitOf_apply _ hi, f.bitOf_apply _ hi, h]
  split <;> rfl

/-- Settings that agree where they overlap commute. -/
theorem apply_comm (h : f.value &&& g.mask = g.value &&& f.mask) (w : UInt32) :
    g.apply (f.apply w) = f.apply (g.apply w) := by
  apply word_eq_of_bits
  intro i hi
  have hbit := congrArg (bitOf · i) h
  simp only [bitOf_and] at hbit
  simp only [bitOf_apply _ _ hi]
  cases hf : bitOf f.mask i <;> cases hg : bitOf g.mask i <;> simp_all

end Setting

end OpenTricore.Lib
