import Mathlib.Algebra.Group.Int.Defs
import Mathlib.Algebra.Group.Nat.Defs
import Mathlib.Data.List.Basic

/-! NUL-terminated strings in a byte buffer. A `const char *` is the list of the
bytes from the pointer to the end of the buffer, so `p + k` is `p.drop k` and
what a function may see behind the terminator is part of its argument. Every
function here is shown to stop at the terminator: its result on `s ++ 0 :: t`
does not depend on `t`. -/

namespace OpenTricore.Lib

/-- The bytes of a string literal, without its terminator. -/
def bytes (s : String) : List UInt8 := s.toList.map fun c => c.toNat.toUInt8

theorem bytes_append (s t : String) : bytes (s ++ t) = bytes s ++ bytes t := by
  simp [bytes]

/-! ## Searching and comparing -/

def strchr (c : UInt8) : List UInt8 → Option (List UInt8)
  | [] => none
  | b :: p => if b = c then some (b :: p) else if b = 0 then none else strchr c p

theorem strchr_length {c : UInt8} {p s : List UInt8} (h : strchr c p = some s) :
    s.length ≤ p.length := by
  induction p with
  | nil => cases h
  | cons b p ih =>
    rw [strchr] at h
    split at h
    · cases h
      exact Nat.le_refl _
    · split at h
      · cases h
      · exact Nat.le_succ_of_le (ih h)

/-- The last occurrence, found by searching again behind each one. -/
def strrchr (c : UInt8) : List UInt8 → Option (List UInt8)
  | [] => none
  | b :: p =>
    if b = 0 then none
    else match strrchr c p with
      | some q => some q
      | none => if b = c then some (b :: p) else none

def strlen : List UInt8 → Nat
  | [] => 0
  | b :: p => if b = 0 then 0 else strlen p + 1

/-- `!strncmp(p, lit, strlen(lit))`. -/
def strncmpEq (p lit : List UInt8) : Bool := lit.isPrefixOf p

/-- `!strcmp(p, lit)`. -/
def strcmpEq (p lit : List UInt8) : Bool := (lit ++ [0]).isPrefixOf p

/-- In the C locale. -/
def tolower (c : UInt8) : UInt8 := if 65 ≤ c ∧ c ≤ 90 then c + 32 else c

/-- `!strcasecmp(p, lit)`. -/
def strcasecmpEq (p lit : List UInt8) : Bool := strcmpEq (p.map tolower) (lit.map tolower)

theorem strlen_local (s t : List UInt8) : strlen (s ++ 0 :: t) = strlen (s ++ [0]) := by
  induction s with
  | nil => simp [strlen]
  | cons b s ih => by_cases h : b = 0 <;> simp [strlen, h, ih]

theorem strlen_le (s t : List UInt8) : strlen (s ++ 0 :: t) ≤ s.length := by
  induction s with
  | nil => simp [strlen]
  | cons b s ih =>
    by_cases h : b = 0
    · simp [strlen, h]
    · simpa [strlen, h] using ih

theorem strncmpEq_local (lit : List UInt8) (hl : (0 : UInt8) ∉ lit) (s t : List UInt8) :
    strncmpEq (s ++ 0 :: t) lit = strncmpEq (s ++ [0]) lit := by
  unfold strncmpEq
  induction lit generalizing s with
  | nil => rfl
  | cons c lit ih =>
    have hc : c ≠ 0 := fun h => hl (by simp [h])
    cases s with
    | nil => simp [List.isPrefixOf, beq_eq_false_iff_ne.mpr hc]
    | cons b s =>
      simp only [List.cons_append, List.isPrefixOf]
      rw [ih (fun h => hl (List.mem_cons_of_mem _ h))]

theorem strcmpEq_local (lit : List UInt8) (hl : (0 : UInt8) ∉ lit) (s t : List UInt8) :
    strcmpEq (s ++ 0 :: t) lit = strcmpEq (s ++ [0]) lit := by
  unfold strcmpEq
  induction lit generalizing s with
  | nil => cases s <;> simp [List.isPrefixOf]
  | cons c lit ih =>
    have hc : c ≠ 0 := fun h => hl (by simp [h])
    cases s with
    | nil => simp [List.isPrefixOf, beq_eq_false_iff_ne.mpr hc]
    | cons b s =>
      simp only [List.cons_append, List.isPrefixOf]
      rw [ih (fun h => hl (List.mem_cons_of_mem _ h))]

/-- A string is one literal at most. -/
theorem strcmpEq_unique {p lit lit' : List UInt8} (h : strcmpEq p lit = true)
    (h' : strcmpEq p lit' = true) (hl : (0 : UInt8) ∉ lit) (hl' : (0 : UInt8) ∉ lit') :
    lit = lit' := by
  unfold strcmpEq at h h'
  induction lit generalizing p lit' with
  | nil =>
    cases lit' with
    | nil => rfl
    | cons c lit' =>
      cases p with
      | nil => simp at h
      | cons b p =>
        simp at h h' hl'
        exact absurd (h.trans h'.1.symm) hl'.1
  | cons c lit ih =>
    cases p with
    | nil => simp at h
    | cons b p =>
      cases lit' with
      | nil =>
        simp at h h' hl
        exact absurd (h'.trans h.1.symm) hl.1
      | cons c' lit' =>
        simp only [List.cons_append, List.isPrefixOf, Bool.and_eq_true, beq_iff_eq] at h h'
        rw [h.1, h'.1, ih h.2 h'.2 (fun hc => hl (List.mem_cons_of_mem _ hc))
          (fun hc => hl' (List.mem_cons_of_mem _ hc))]

/-- `strchr` finds the first occurrence. -/
theorem strchr_first (c : UInt8) (s t : List UInt8) (hs : c ∉ s) (h0 : (0 : UInt8) ∉ s) :
    strchr c (s ++ c :: t) = some (c :: t) := by
  induction s with
  | nil => simp [strchr]
  | cons b s ih =>
    have hb : b ≠ c := fun h => hs (by simp [h])
    have hz : b ≠ 0 := fun h => h0 (by simp [h])
    simp only [List.cons_append, strchr, hb, hz, ↓reduceIte]
    exact ih (fun h => hs (List.mem_cons_of_mem _ h)) (fun h => h0 (List.mem_cons_of_mem _ h))

theorem strchr_absent (c : UInt8) (hc : c ≠ 0) (s t : List UInt8) (hs : c ∉ s) :
    strchr c (s ++ 0 :: t) = none := by
  induction s with
  | nil => simp [strchr, hc.symm]
  | cons b s ih =>
    have hb : b ≠ c := fun h => hs (by simp [h])
    simp only [List.cons_append, strchr, hb, ↓reduceIte]
    split
    · rfl
    · exact ih (fun h => hs (List.mem_cons_of_mem _ h))

/-- Either there is none before the terminator, or the first one is found and
the rest of the string follows it. -/
theorem strchr_cases (c : UInt8) (hc : c ≠ 0) (s : List UInt8) :
    (∀ t, strchr c (s ++ 0 :: t) = none) ∨
      ∃ pre post, s = pre ++ c :: post ∧ c ∉ pre ∧ 0 ∉ pre ∧
        ∀ t, strchr c (s ++ 0 :: t) = some (c :: post ++ 0 :: t) := by
  induction s with
  | nil => exact .inl fun t => strchr_absent c hc [] t (by simp)
  | cons b s ih =>
    by_cases hb : b = c
    · subst hb
      exact .inr ⟨[], s, rfl, by simp, by simp, fun t => by simp [strchr]⟩
    · by_cases h0 : b = 0
      · subst h0
        exact .inl fun t => by simp [strchr, hb]
      · rcases ih with h | ⟨pre, post, rfl, hp, hp0, h⟩
        · exact .inl fun t => by simpa [strchr, hb, h0] using h t
        · refine .inr ⟨b :: pre, post, rfl, ?_, ?_, fun t => by simpa [strchr, hb, h0] using h t⟩
          · simpa [Ne.symm hb] using hp
          · simpa [Ne.symm h0] using hp0

theorem strrchr_cases (c : UInt8) (s : List UInt8) :
    (∀ t, strrchr c (s ++ 0 :: t) = none) ∨
      ∃ post, ∀ t, strrchr c (s ++ 0 :: t) = some (c :: post ++ 0 :: t) := by
  induction s with
  | nil => exact .inl fun t => by simp [strrchr]
  | cons b s ih =>
    by_cases h0 : b = 0
    · exact .inl fun t => by simp [strrchr, h0]
    · rcases ih with h | ⟨post, h⟩
      · by_cases hb : b = c
        · subst hb
          exact .inr ⟨s, fun t => by simp [strrchr, h0, h t]⟩
        · exact .inl fun t => by simp [strrchr, h0, hb, h t]
      · exact .inr ⟨post, fun t => by simp [strrchr, h0, h t]⟩

/-- Reading up to the terminator. -/
theorem getD_local (s t : List UInt8) (i : Nat) (hi : i ≤ s.length) :
    (s ++ 0 :: t).getD i 0 = s.getD i 0 := by
  rcases Nat.lt_or_eq_of_le hi with h | rfl
  · simp [List.getD, List.getElem?_append_left h]
  · simp [List.getD]

/-- A text that starts with `lit` has its characters. -/
theorem strncmpEq_getD {p lit : List UInt8} (h : strncmpEq p lit = true) (i : Nat)
    (hi : i < lit.length) : p.getD i 0 = lit.getD i 0 := by
  obtain ⟨rest, rfl⟩ := List.isPrefixOf_iff_prefix.mp h
  simp [List.getD, List.getElem?_append_left hi]

theorem strncmpEq_length (lit : List UInt8) (hl : (0 : UInt8) ∉ lit) (s t : List UInt8)
    (h : strncmpEq (s ++ 0 :: t) lit = true) : lit.length ≤ s.length := by
  induction lit generalizing s with
  | nil => simp
  | cons c lit ih =>
    have hc : c ≠ 0 := fun h => hl (by simp [h])
    cases s with
    | nil => simp [strncmpEq, List.isPrefixOf, hc] at h
    | cons b s =>
      simp only [strncmpEq, List.cons_append, List.isPrefixOf, Bool.and_eq_true] at h
      have := ih (fun h => hl (List.mem_cons_of_mem _ h)) s h.2
      simp only [List.length_cons]
      omega

/-! ## Numbers, base 16 -/

def digit16 (b : UInt8) : Option Nat :=
  if 48 ≤ b ∧ b ≤ 57 then some (b.toNat - 48)
  else if 97 ≤ b ∧ b ≤ 102 then some (b.toNat - 87)
  else if 65 ≤ b ∧ b ≤ 70 then some (b.toNat - 55)
  else none

def isspace (b : UInt8) : Bool := b = 32 || (9 ≤ b && b ≤ 13)

def skipSpaces : List UInt8 → List UInt8
  | [] => []
  | b :: p => if isspace b then skipSpaces p else b :: p

/-- The sign, and what follows it. -/
def takeSign : List UInt8 → Bool × List UInt8
  | [] => (false, [])
  | b :: p => if b = 45 then (true, p) else if b = 43 then (false, p) else (false, b :: p)

/-- Skip the optional `0x` of a hexadecimal number. -/
def skip0x : List UInt8 → List UInt8
  | b :: c :: p => if b = 48 ∧ (c = 120 ∨ c = 88) then p else b :: c :: p
  | p => p

def scan16 (acc : Nat) : List UInt8 → Nat
  | [] => acc
  | b :: p => match digit16 b with
    | some d => scan16 (acc * 16 + d) p
    | none => acc

/-- Sign and magnitude of the number at the start of `p`. -/
def number16 (p : List UInt8) : Bool × Nat :=
  let q := takeSign (skipSpaces p)
  (q.1, scan16 0 (skip0x q.2))

/-- `strtoull(p, NULL, 16)`, which is also `strtoul` where `long` has 64 bits:
out of range gives the largest value, a minus sign negates modulo `2^64`. -/
def strtoull (p : List UInt8) : UInt64 :=
  let n := number16 p
  if n.2 < 2 ^ 64 then (if n.1 then -(UInt64.ofNat n.2) else UInt64.ofNat n.2)
  else UInt64.ofNat (2 ^ 64 - 1)

/-- `strtol(p, NULL, 16)` with a 64-bit `long`. -/
def strtol (p : List UInt8) : Int :=
  let n := number16 p
  if n.1 then max (-(n.2 : Int)) (-2 ^ 63) else min (n.2 : Int) (2 ^ 63 - 1)

theorem digit16_zero : digit16 0 = none := by decide

theorem scan16_stop (acc : Nat) (ds : List UInt8) (c : UInt8) (hc : digit16 c = none)
    (t : List UInt8) : scan16 acc (ds ++ c :: t) = scan16 acc ds := by
  induction ds generalizing acc with
  | nil => simp [scan16, hc]
  | cons b ds ih =>
    cases h : digit16 b with
    | none => simp [scan16, h]
    | some d => simp [scan16, h, ih]

private theorem skipSpaces_split (s t : List UInt8) :
    skipSpaces (s ++ 0 :: t) = skipSpaces (s ++ [0]) ++ t := by
  induction s with
  | nil => simp [skipSpaces, isspace]
  | cons b s ih => by_cases h : isspace b <;> simp [skipSpaces, h, ih]

private theorem skipSpaces_keeps (s : List UInt8) : ∃ s', skipSpaces (s ++ [0]) = s' ++ [0] := by
  induction s with
  | nil => exact ⟨[], by simp [skipSpaces, isspace]⟩
  | cons b s ih =>
    by_cases h : isspace b
    · simpa [skipSpaces, h] using ih
    · exact ⟨b :: s, by simp [skipSpaces, h]⟩

private theorem takeSign_split (s t : List UInt8) :
    takeSign (s ++ 0 :: t) = ((takeSign (s ++ [0])).1, (takeSign (s ++ [0])).2 ++ t) := by
  cases s with
  | nil => simp [takeSign]
  | cons b s =>
    by_cases h1 : b = 45
    · simp [takeSign, h1]
    · by_cases h2 : b = 43 <;> simp [takeSign, h1, h2]

private theorem takeSign_keeps (s : List UInt8) : ∃ s', (takeSign (s ++ [0])).2 = s' ++ [0] := by
  cases s with
  | nil => exact ⟨[], by simp [takeSign]⟩
  | cons b s =>
    by_cases h1 : b = 45
    · exact ⟨s, by simp [takeSign, h1]⟩
    · by_cases h2 : b = 43
      · exact ⟨s, by simp [takeSign, h2]⟩
      · exact ⟨b :: s, by simp [takeSign, h1, h2]⟩

private theorem skip0x_split (s t : List UInt8) :
    ∃ s', skip0x (s ++ 0 :: t) = s' ++ 0 :: t ∧ skip0x (s ++ [0]) = s' ++ [0] := by
  rcases s with _ | ⟨b, _ | ⟨c, s⟩⟩
  · refine ⟨[], ?_, rfl⟩
    cases t <;> simp [skip0x]
  · exact ⟨[b], by simp [skip0x], by simp [skip0x]⟩
  · by_cases h : b = 48 ∧ (c = 120 ∨ c = 88)
    · exact ⟨s, by simp [skip0x, h], by simp [skip0x, h]⟩
    · exact ⟨b :: c :: s, by simp [skip0x, h], by simp [skip0x, h]⟩

theorem number16_local (s t : List UInt8) : number16 (s ++ 0 :: t) = number16 (s ++ [0]) := by
  obtain ⟨s₁, h₁⟩ := skipSpaces_keeps s
  obtain ⟨s₂, h₂⟩ := takeSign_keeps s₁
  obtain ⟨s₃, h₃, h₃'⟩ := skip0x_split s₂ t
  have hs : skipSpaces (s ++ 0 :: t) = s₁ ++ 0 :: t := by
    rw [skipSpaces_split, h₁, List.append_assoc]; rfl
  have ht : takeSign (s₁ ++ 0 :: t) = ((takeSign (s₁ ++ [0])).1, s₂ ++ 0 :: t) := by
    rw [takeSign_split, h₂, List.append_assoc]; rfl
  simp only [number16, hs, h₁, ht, h₂, h₃, h₃', scan16_stop _ _ _ digit16_zero]

theorem strtoull_local (s t : List UInt8) : strtoull (s ++ 0 :: t) = strtoull (s ++ [0]) := by
  simp only [strtoull, number16_local]

theorem strtol_local (s t : List UInt8) : strtol (s ++ 0 :: t) = strtol (s ++ [0]) := by
  simp only [strtol, number16_local]

/-! ## Hexadecimal texts -/

/-- A non-empty run of hexadecimal digits in either case. -/
def HexText (ds : List UInt8) : Prop := ds ≠ [] ∧ ∀ d ∈ ds, (digit16 d).isSome

def hexValue (ds : List UInt8) : Nat := scan16 0 ds

instance (ds : List UInt8) : Decidable (HexText ds) :=
  have : Decidable (∀ d ∈ ds, (digit16 d).isSome) := List.decidableBAll _ ds
  inferInstanceAs (Decidable (ds ≠ [] ∧ ∀ d ∈ ds, (digit16 d).isSome))

/-- A digit is none of the characters that end or start a number in a packet. -/
theorem digit16_some {b : UInt8} {d : Nat} (h : digit16 b = some d) :
    d < 16 ∧ b ≠ 0 ∧ b ≠ 43 ∧ b ≠ 44 ∧ b ≠ 45 ∧ b ≠ 58 ∧ b ≠ 61 ∧ b ≠ 120 ∧ b ≠ 88 ∧
      isspace b = false := by
  unfold digit16 at h
  simp only [UInt8.le_iff_toNat_le, ← UInt8.toNat_inj, isspace, ne_eq] at h ⊢
  simp at h ⊢
  split at h
  · simp at h; omega
  · split at h
    · simp at h; omega
    · simp at h; omega

theorem HexText.not_mem {ds : List UInt8} (hd : HexText ds) {c : UInt8} (hc : digit16 c = none) :
    c ∉ ds := fun h => by
  have := hd.2 c h
  simp [hc] at this

theorem scan16_lt (acc : Nat) (ds : List UInt8) :
    scan16 acc ds < (acc + 1) * 16 ^ ds.length := by
  induction ds generalizing acc with
  | nil => simp [scan16]
  | cons b ds ih =>
    cases h : digit16 b with
    | none =>
      have : 0 < 16 ^ (b :: ds).length := Nat.pow_pos (by omega)
      simp only [scan16, h]
      exact Nat.lt_of_lt_of_le (Nat.lt_succ_self acc) (Nat.le_mul_of_pos_right _ this)
    | some d =>
      have hd := (digit16_some h).1
      simp only [scan16, h, List.length_cons]
      calc scan16 (acc * 16 + d) ds < (acc * 16 + d + 1) * 16 ^ ds.length := ih _
        _ ≤ (acc + 1) * 16 * 16 ^ ds.length := Nat.mul_le_mul_right _ (by omega)
        _ = (acc + 1) * 16 ^ (ds.length + 1) := by rw [Nat.pow_succ, Nat.mul_assoc, Nat.mul_comm 16]

theorem hexValue_lt (ds : List UInt8) : hexValue ds < 16 ^ ds.length := by
  have := scan16_lt 0 ds
  simpa [hexValue] using this

/-- A number read from a hexadecimal text stops at the delimiter behind it. -/
theorem number16_hexText (ds : List UInt8) (hd : HexText ds) (c : UInt8) (hc : digit16 c = none)
    (hx : c ≠ 120 ∧ c ≠ 88) (t : List UInt8) :
    number16 (ds ++ c :: t) = (false, hexValue ds) := by
  obtain ⟨hne, hall⟩ := hd
  rcases ds with _ | ⟨b, ds⟩
  · exact absurd rfl hne
  obtain ⟨d, hb⟩ := Option.isSome_iff_exists.mp (hall b (by simp))
  obtain ⟨-, -, hplus, -, hminus, -, -, -, -, hsp⟩ := digit16_some hb
  have h0x : skip0x (b :: (ds ++ c :: t)) = b :: (ds ++ c :: t) := by
    rcases ds with _ | ⟨b', ds⟩
    · simp [skip0x, hx]
    · obtain ⟨d', hb'⟩ := Option.isSome_iff_exists.mp (hall b' (by simp))
      obtain ⟨-, -, -, -, -, -, -, h120, h88, -⟩ := digit16_some hb'
      simp [skip0x, h120, h88]
  have hstop := scan16_stop 0 (b :: ds) c hc t
  simp only [List.cons_append] at hstop
  simp [number16, skipSpaces, hsp, takeSign, hplus, hminus, h0x, hstop, hexValue]

theorem strtoull_hexText (ds : List UInt8) (hd : HexText ds) (c : UInt8) (hc : digit16 c = none)
    (hx : c ≠ 120 ∧ c ≠ 88) (t : List UInt8) (hv : hexValue ds < 2 ^ 64) :
    strtoull (ds ++ c :: t) = UInt64.ofNat (hexValue ds) := by
  rw [strtoull, number16_hexText ds hd c hc hx t]
  exact if_pos hv

end OpenTricore.Lib
