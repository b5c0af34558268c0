import Mathlib.Algebra.Group.Nat.Defs
import Mathlib.Data.Nat.Basic
import Mathlib.Data.List.Basic

/-! Bytes inside 32-bit little-endian words, byte memories reached through such
words, and masks of 64-bit addresses. -/

namespace OpenTricore.Lib

/-! ## The four bytes of a word -/

/-- `(uint8_t)(w >> (b * 8))`. -/
def byteOf (w : UInt32) (b : Nat) : UInt8 := (w >>> (b * 8).toUInt32).toUInt8

/-- `(w & ~(0xFFu << (b * 8))) | ((uint32_t)v << (b * 8))`. -/
def setByte (w : UInt32) (b : Nat) (v : UInt8) : UInt32 :=
  (w &&& ~~~((0xFF : UInt32) <<< (b * 8).toUInt32)) ||| (v.toUInt32 <<< (b * 8).toUInt32)

/-- `b[0] | (b[1] << 8) | (b[2] << 16) | (b[3] << 24)`. -/
def packBytes (b : Nat → UInt8) : UInt32 :=
  (b 0).toUInt32 ||| ((b 1).toUInt32 <<< 8) ||| ((b 2).toUInt32 <<< 16) |||
    ((b 3).toUInt32 <<< 24)

private theorem getElem_ff (i : Nat) (h : i < 32) : (255#32)[i] = decide (i < 8) := by
  have ff : (255#32) = (BitVec.allOnes 8).setWidth 32 := rfl
  rw [ff, BitVec.getElem_setWidth, BitVec.getLsbD_allOnes]

private theorem shift_amount (b : Nat) (hb : b < 4) : b * 8 % 4294967296 % 32 = b * 8 := by
  omega

private theorem no_bit (v : UInt8) (j : Nat) (hj : 8 ≤ j) : v.toBitVec.getLsbD j = false :=
  BitVec.getLsbD_of_ge _ _ hj

theorem byteOf_setByte (w : UInt32) (b c : Nat) (v : UInt8) (hb : b < 4) (hc : c < 4) :
    byteOf (setByte w b v) c = if c = b then v else byteOf w c := by
  apply UInt8.toBitVec_inj.mp
  ext i hi
  have hlt : c * 8 + i < 32 := by omega
  by_cases hcb : c = b
  · subst hcb
    simp [byteOf, setByte, BitVec.toNat_umod, shift_amount c hc, getElem_ff, hlt, hi,
      show i < 32 by omega, show ¬ c * 8 + i < c * 8 by omega, BitVec.getLsbD_eq_getElem]
  · by_cases hb' : c * 8 + i < b * 8
    · simp [byteOf, setByte, BitVec.toNat_umod, shift_amount b hb, shift_amount c hc, hcb, hb', hlt]
    · simp [byteOf, setByte, BitVec.toNat_umod, shift_amount b hb, shift_amount c hc, getElem_ff,
        hcb, hb', hlt, show 8 ≤ c * 8 + i - b * 8 by omega]

/-- A byte or-ed into a word. -/
theorem byteOf_or_shift (w : UInt32) (v : UInt8) {b c : Nat} (hb : b < 4) (hc : c < 4) :
    byteOf (w ||| (v.toUInt32 <<< (b * 8).toUInt32)) c = byteOf w c ||| if c = b then v else 0 := by
  apply UInt8.toBitVec_inj.mp
  ext i hi
  have hlt : c * 8 + i < 32 := by omega
  by_cases hcb : c = b
  · subst hcb
    simp [byteOf, BitVec.toNat_umod, shift_amount c hc, hlt, hi,
      show i < 32 by omega, show ¬ c * 8 + i < c * 8 by omega, BitVec.getLsbD_eq_getElem]
  · by_cases hb' : c * 8 + i < b * 8
    · simp [byteOf, BitVec.toNat_umod, shift_amount b hb, shift_amount c hc, hcb, hb', hlt]
    · simp [byteOf, BitVec.toNat_umod, shift_amount b hb, shift_amount c hc,
        hcb, hb', hlt, no_bit v (c * 8 + i - b * 8) (by omega)]

theorem byteOf_packBytes (f : Nat → UInt8) (b : Nat) (hb : b < 4) :
    byteOf (packBytes f) b = f b := by
  apply UInt8.toBitVec_inj.mp
  ext i hi
  have hb' : b = 0 ∨ b = 1 ∨ b = 2 ∨ b = 3 := by omega
  rcases hb' with rfl | rfl | rfl | rfl
  · simp [byteOf, packBytes]
  · simp [byteOf, packBytes, show 8 + i < 16 by omega,
      show 8 + i < 24 by omega, show 8 + i < 32 by omega, show i < 32 by omega, hi,
      BitVec.getLsbD_eq_getElem]
  · simp [byteOf, packBytes, no_bit (f 0) (16 + i) (by omega),
      no_bit (f 1) (16 + i - 8) (by omega), show 16 + i < 24 by omega, show 16 + i < 32 by omega,
      show ¬ 16 + i < 16 by omega, show i < 32 by omega, hi, BitVec.getLsbD_eq_getElem]
  · simp [byteOf, packBytes, no_bit (f 0) (24 + i) (by omega),
      no_bit (f 1) (24 + i - 8) (by omega), no_bit (f 2) (24 + i - 16) (by omega),
      show 24 + i < 32 by omega, show ¬ 24 + i < 24 by omega, show i < 32 by omega, hi,
      BitVec.getLsbD_eq_getElem]

theorem word_ext {w w' : UInt32} (h : ∀ b < 4, byteOf w b = byteOf w' b) : w = w' := by
  apply UInt32.toBitVec_inj.mp
  ext i hi
  have hb := congrArg (fun v => v.toBitVec.getLsbD (i % 8)) (h (i / 8) (by omega))
  have hi' : i / 8 * 8 + i % 8 = i := by omega
  simpa [byteOf, BitVec.toNat_umod, shift_amount (i / 8) (by omega), hi',
    show i % 8 < 8 by omega, hi, BitVec.getLsbD_eq_getElem] using hb

/-! ## Fields of a word -/

theorem and_mask_toNat {v m : UInt32} {k : Nat} (hm : m.toNat = 2 ^ k - 1) :
    (v &&& m).toNat = v.toNat % 2 ^ k := by
  rw [UInt32.toNat_and, hm, Nat.and_two_pow_sub_one_eq_mod]

/-- A value that fits a field of `k` bits at `n`, written there and read back. -/
theorem field_shifted {v n m : UInt32} {k : Nat} (hn : n.toNat + k ≤ 32) (hk : 0 < k)
    (hm : m.toNat = 2 ^ k - 1) (hv : v.toNat < 2 ^ k) : ((v <<< n) >>> n) &&& m = v := by
  have hn' : n.toNat % 32 = n.toNat := Nat.mod_eq_of_lt (by omega)
  have hfit : v.toNat * 2 ^ n.toNat < 2 ^ 32 :=
    calc v.toNat * 2 ^ n.toNat < 2 ^ k * 2 ^ n.toNat :=
          Nat.mul_lt_mul_of_pos_right hv (Nat.two_pow_pos _)
      _ = 2 ^ (n.toNat + k) := by rw [← Nat.pow_add, Nat.add_comm]
      _ ≤ 2 ^ 32 := Nat.pow_le_pow_right (by omega) hn
  apply UInt32.toNat_inj.mp
  rw [UInt32.toNat_and, UInt32.toNat_shiftRight, UInt32.toNat_shiftLeft, hn', hm,
    Nat.and_two_pow_sub_one_eq_mod, Nat.shiftLeft_eq, Nat.mod_eq_of_lt hfit,
    Nat.shiftRight_eq_div_pow, Nat.mul_div_cancel _ (Nat.two_pow_pos _), Nat.mod_eq_of_lt hv]

/-! ## Byte memories -/

abbrev Mem := Nat → UInt8

def loadWord (m : Mem) (a : Nat) : UInt32 := packBytes fun b => m (a + b)

def storeWord (m : Mem) (a : Nat) (w : UInt32) : Mem :=
  fun x => if a ≤ x ∧ x < a + 4 then byteOf w (x - a) else m x

/-- The memory with the first `n` bytes of `f` stored at `a`. -/
def storeRange (m : Mem) (a n : Nat) (f : Nat → UInt8) : Mem :=
  fun x => if a ≤ x ∧ x < a + n then f (x - a) else m x

theorem byteOf_loadWord (m : Mem) (a b : Nat) (hb : b < 4) : byteOf (loadWord m a) b = m (a + b) :=
  byteOf_packBytes _ b hb

theorem loadWord_storeWord (m : Mem) (a : Nat) (w : UInt32) : loadWord (storeWord m a w) a = w := by
  apply word_ext
  intro b hb
  rw [byteOf_loadWord _ _ _ hb]
  simp [storeWord, hb]

theorem storeWord_apply (m : Mem) (a : Nat) (w : UInt32) (x : Nat) :
    storeWord m a w x = if a ≤ x ∧ x < a + 4 then byteOf w (x - a) else m x := rfl

theorem storeRange_apply (m : Mem) (a n : Nat) (f : Nat → UInt8) (x : Nat) :
    storeRange m a n f x = if a ≤ x ∧ x < a + n then f (x - a) else m x := rfl

@[simp] theorem storeRange_zero (m : Mem) (a : Nat) (f : Nat → UInt8) :
    storeRange m a 0 f = m := by
  funext x
  rw [storeRange_apply, if_neg (by omega)]

theorem storeRange_congr (m : Mem) (a n : Nat) {f g : Nat → UInt8} (h : ∀ i < n, f i = g i) :
    storeRange m a n f = storeRange m a n g := by
  funext x
  simp only [storeRange_apply]
  split
  · exact h (x - a) (by omega)
  · rfl

/-- Stores one behind the other. -/
theorem storeRange_append (m : Mem) (a n k : Nat) (f : Nat → UInt8) :
    storeRange (storeRange m a n f) (a + n) k (fun i => f (n + i)) = storeRange m a (n + k) f := by
  funext x
  simp only [storeRange_apply]
  by_cases hlow : x < a + n
  · rw [if_neg (by omega)]
    exact if_congr (by omega) rfl rfl
  · by_cases hhigh : x < a + n + k
    · rw [if_pos (by omega), if_pos (by omega), show n + (x - (a + n)) = x - a by omega]
    · rw [if_neg (by omega), if_neg (by omega), if_neg (by omega)]

/-- A word depends on its own four bytes only. -/
theorem loadWord_congr {m m' : Mem} {a : Nat} (h : ∀ b < 4, m (a + b) = m' (a + b)) :
    loadWord m a = loadWord m' a := by
  apply word_ext
  intro b hb
  rw [byteOf_loadWord _ _ _ hb, byteOf_loadWord _ _ _ hb]
  exact h b hb

theorem storeWord_of_disjoint (m : Mem) {a x : Nat} (v : UInt32) (h : x < a ∨ a + 4 ≤ x) :
    storeWord m a v x = m x := by
  rw [storeWord_apply, if_neg (by omega)]

theorem loadWord_storeWord_of_disjoint (m : Mem) {a c : Nat} (v : UInt32)
    (h : c + 4 ≤ a ∨ a + 4 ≤ c) : loadWord (storeWord m a v) c = loadWord m c := by
  apply loadWord_congr
  intro b hb
  exact storeWord_of_disjoint m v (by omega)

theorem loadWord_storeRange_of_disjoint (m : Mem) {a n c : Nat} (f : Nat → UInt8)
    (h : c + 4 ≤ a ∨ a + n ≤ c) : loadWord (storeRange m a n f) c = loadWord m c := by
  apply loadWord_congr
  intro b hb
  rw [storeRange_apply, if_neg (by omega)]

/-- The four bytes in the order of a little-endian memory. -/
def wordBytes (v : UInt32) : List UInt8 := (List.range 4).map (byteOf v)

@[simp] theorem length_wordBytes (v : UInt32) : (wordBytes v).length = 4 := by simp [wordBytes]

/-! ## Vectors of words -/

/-- The addresses of a vector from `base` on. -/
def slot (base : UInt32) (i : Nat) : UInt32 := base + UInt32.ofNat i * 4

theorem toNat_slot {base : UInt32} {i : Nat} (h : base.toNat + 4 * i < 2 ^ 32) :
    (slot base i).toNat = base.toNat + 4 * i := by
  have h4 : (4 : UInt32).toNat = 4 := rfl
  rw [slot, UInt32.toNat_add, UInt32.toNat_mul, h4,
    UInt32.toNat_ofNat_of_lt' (show i < 2 ^ 32 by omega)]
  omega

theorem slot_succ (base : UInt32) (i : Nat) : slot base i + 4 = slot base (i + 1) := by
  rw [slot, slot, UInt32.ofNat_add, UInt32.add_mul, UInt32.add_assoc]
  rfl

/-! ## Rounding addresses down -/

/-- `a & ~(2^k - 1)` is `a` rounded down to a multiple of `2^k`. -/
theorem toNat_and_not (a m : UInt64) (k : Nat) (hk : k < 64) (hm : m.toNat = 2 ^ k - 1) :
    (a &&& ~~~m).toNat = a.toNat / 2 ^ k * 2 ^ k := by
  have hp : 2 ^ k < 2 ^ 64 := Nat.pow_lt_pow_right (by omega) hk
  have h1 : (a &&& ~~~m).toNat = a.toNat &&& (2 ^ 64 - ((2 ^ k - 1) + 1)) := by
    simp [hm]
  rw [h1, ← Nat.shiftLeft_eq, ← Nat.shiftRight_eq_div_pow]
  apply Nat.eq_of_testBit_eq
  intro i
  rw [Nat.testBit_and, Nat.testBit_two_pow_sub_succ (by omega)]
  by_cases hi : i < 64
  · by_cases hki : k ≤ i
    · simp [hi, hki, show ¬ i < k by omega]
    · simp [hi, hki, show i < k by omega]
  · have ha : a.toNat.testBit i = false :=
      Nat.testBit_lt_two_pow
        (Nat.lt_of_lt_of_le a.toNat_lt (Nat.pow_le_pow_right (by omega) (by omega)))
    by_cases hki : k ≤ i <;> simp [hi, hki, ha]

/-- `a & (2^k - 1)` is the remainder. -/
theorem toNat_and_mask (a m : UInt64) (k : Nat) (hm : m.toNat = 2 ^ k - 1) :
    (a &&& m).toNat = a.toNat % 2 ^ k := by
  rw [UInt64.toNat_and, hm, Nat.and_two_pow_sub_one_eq_mod]

end OpenTricore.Lib
