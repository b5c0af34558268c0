import OpenTricore.RegMap
import OpenTricore.Threads
import Mathlib.Data.List.GetD

/-! Registers that are written and read back. -/

namespace OpenTricore.Registers
open OpenTricore Lib Lib.Prog Threads

/-! ## Eight digits and a word -/

/-- The byte that two digits stand for. -/
def pairByte (x y : UInt8) : UInt8 :=
  UInt8.ofInt (hexval x) <<< 4 ||| UInt8.ofInt (hexval y)

theorem hexd_lower {c : UInt8} {d : Nat} (h : digit16 c = some d) : hexd d = tolower c := by
  have key : ∀ n : Fin 256, ∀ d : Fin 16,
      digit16 (UInt8.ofNat n) = some d.val → hexd d = tolower (UInt8.ofNat n) := by
    decide +kernel
  have hc := key ⟨c.toNat, c.toNat_lt⟩ ⟨d, (digit16_some h).1⟩
  rw [UInt8.ofNat_toNat] at hc
  exact hc h

/-- Two digits give a byte, and the byte gives the digits. -/
theorem hexOfByte_pairByte {x y : UInt8} (hx : (digit16 x).isSome) (hy : (digit16 y).isSome) :
    hexOfByte (pairByte x y) = [tolower x, tolower y] := by
  obtain ⟨h, hx⟩ := Option.isSome_iff_exists.mp hx
  obtain ⟨l, hy⟩ := Option.isSome_iff_exists.mp hy
  have key : ∀ h l : Fin 16,
      hexOfByte (UInt8.ofInt (h : Nat) <<< 4 ||| UInt8.ofInt (l : Nat)) = [hexd h, hexd l] := by
    decide +kernel
  rw [pairByte, hexval_some hx, hexval_some hy, ← hexd_lower hx, ← hexd_lower hy]
  exact key ⟨h, (digit16_some hx).1⟩ ⟨l, (digit16_some hy).1⟩

theorem pairByte_hexOfByte (b : UInt8) (z w : UInt8) :
    pairByte ((hexOfByte b).getD 0 z) ((hexOfByte b).getD 1 w) = b := by
  have key : ∀ n : Fin 256,
      pairByte (hexd ((UInt8.ofNat n) >>> 4).toNat) (hexd ((UInt8.ofNat n) &&& 0xF).toNat) =
        UInt8.ofNat n := by
    decide +kernel
  have hb := key ⟨b.toNat, b.toNat_lt⟩
  rw [UInt8.ofNat_toNat] at hb
  exact hb

theorem nibble_byteOf (v : UInt32) (b : Nat) (hb : b < 4) :
    ((v >>> (b * 8 + 4).toUInt32) &&& 0xF).toNat = (byteOf v b >>> 4).toNat ∧
      ((v >>> (b * 8).toUInt32) &&& 0xF).toNat = (byteOf v b &&& 0xF).toNat := by
  have hv := v.toNat_lt
  have hb' : b = 0 ∨ b = 1 ∨ b = 2 ∨ b = 3 := by omega
  have hmask (n : Nat) : n &&& 15 = n % 16 := Nat.and_two_pow_sub_one_eq_mod n 4
  rcases hb' with rfl | rfl | rfl | rfl <;>
    simp [byteOf, hmask, Nat.shiftRight_eq_div_pow] <;> omega

/-- A word is shown byte by byte. -/
theorem putU32Le_eq (v : UInt32) :
    putU32Le v = (List.range 4).flatMap fun b => hexOfByte (byteOf v b) := by
  simp only [putU32Le, List.range, List.range.loop, List.flatMap_cons, List.flatMap_nil, hexOfByte,
    nibble_byteOf v 0 (by omega), nibble_byteOf v 1 (by omega), nibble_byteOf v 2 (by omega),
    nibble_byteOf v 3 (by omega)]

theorem pairBits_digits {x y : UInt8} (hx : (digit16 x).isSome) (hy : (digit16 y).isSome) :
    (UInt32.ofInt (hexval x) <<< 4) ||| UInt32.ofInt (hexval y) = (pairByte x y).toUInt32 := by
  obtain ⟨h, hx⟩ := Option.isSome_iff_exists.mp hx
  obtain ⟨l, hy⟩ := Option.isSome_iff_exists.mp hy
  have key : ∀ h l : Fin 16, (UInt32.ofInt (h : Nat) <<< 4) ||| UInt32.ofInt (l : Nat) =
      (UInt8.ofInt (h : Nat) <<< 4 ||| UInt8.ofInt (l : Nat)).toUInt32 := by
    decide +kernel
  rw [pairByte, hexval_some hx, hexval_some hy]
  exact key ⟨h, (digit16_some hx).1⟩ ⟨l, (digit16_some hy).1⟩

/-- Eight digits are read byte by byte. -/
theorem getU32Le_pack {p : List UInt8} (h : ∀ i < 8, (digit16 (p.getD i 0)).isSome) :
    getU32Le p = packBytes fun b => pairByte (p.getD (b * 2) 0) (p.getD (b * 2 + 1) 0) := by
  have hpair (b : Nat) (hb : b < 4) :=
    pairBits_digits (h (b * 2) (by omega)) (h (b * 2 + 1) (by omega))
  simp only [getU32Le, List.range, List.range.loop, List.foldl_cons, List.foldl_nil,
    hpair 0 (by omega), hpair 1 (by omega), hpair 2 (by omega), hpair 3 (by omega), packBytes]
  simp

/-- The characters of a word that is shown. -/
theorem getD_putU32Le (v : UInt32) (t : List UInt8) (b : Nat) (hb : b < 4) :
    (putU32Le v ++ t).getD (b * 2) 0 = (hexOfByte (byteOf v b)).getD 0 0 ∧
      (putU32Le v ++ t).getD (b * 2 + 1) 0 = (hexOfByte (byteOf v b)).getD 1 0 := by
  have hb' : b = 0 ∨ b = 1 ∨ b = 2 ∨ b = 3 := by omega
  rw [putU32Le_eq]
  rcases hb' with rfl | rfl | rfl | rfl <;> exact ⟨rfl, rfl⟩

theorem length_putU32Le (v : UInt32) : (putU32Le v).length = 8 := rfl

theorem digit_hexOfByte (b : UInt8) :
    (digit16 ((hexOfByte b).getD 0 0)).isSome ∧ (digit16 ((hexOfByte b).getD 1 0)).isSome := by
  have key : ∀ n : Fin 256, (digit16 (hexd ((UInt8.ofNat n) >>> 4).toNat)).isSome ∧
      (digit16 (hexd ((UInt8.ofNat n) &&& 0xF).toNat)).isSome := by
    decide +kernel
  have hb := key ⟨b.toNat, b.toNat_lt⟩
  rw [UInt8.ofNat_toNat] at hb
  exact hb

theorem digits_putU32Le (v : UInt32) : ∀ c ∈ putU32Le v, (digit16 c).isSome := by
  rw [putU32Le_eq]
  simp only [List.mem_flatMap]
  rintro c ⟨b, -, hc⟩
  obtain ⟨hhi, hlo⟩ := digit_hexOfByte (byteOf v b)
  simp only [hexOfByte, List.mem_cons, List.not_mem_nil, or_false] at hc
  rcases hc with rfl | rfl
  · exact hhi
  · exact hlo

/-- What is shown is read back. -/
theorem getU32Le_putU32Le (v : UInt32) (t : List UInt8) : getU32Le (putU32Le v ++ t) = v := by
  have hdigits : ∀ i < 8, (digit16 ((putU32Le v ++ t).getD i 0)).isSome := by
    intro i hi
    obtain ⟨hhi, hlo⟩ := getD_putU32Le v t (i / 2) (by omega)
    obtain ⟨hdhi, hdlo⟩ := digit_hexOfByte (byteOf v (i / 2))
    rcases Nat.mod_two_eq_zero_or_one i with hmod | hmod
    · rw [show i = i / 2 * 2 by omega, hhi]
      exact hdhi
    · rw [show i = i / 2 * 2 + 1 by omega, hlo]
      exact hdlo
  rw [getU32Le_pack hdigits]
  apply word_ext
  intro b hb
  obtain ⟨hhi, hlo⟩ := getD_putU32Le v t b hb
  rw [byteOf_packBytes _ b hb, hhi, hlo, pairByte_hexOfByte]

/-- Digits that are read are shown in lower case. -/
theorem putU32Le_getU32Le {ds : List UInt8} (t : List UInt8) (hlen : ds.length = 8)
    (hd : ∀ d ∈ ds, (digit16 d).isSome) : putU32Le (getU32Le (ds ++ t)) = ds.map tolower := by
  have hget : ∀ i < 8, (ds ++ t).getD i 0 = ds.getD i 0 ∧ (digit16 (ds.getD i 0)).isSome := by
    intro i hi
    have hi : i < ds.length := by omega
    rw [List.getD_append _ _ _ _ hi, List.getD_eq_getElem _ _ hi]
    exact ⟨rfl, hd _ (List.getElem_mem hi)⟩
  have hpack := getU32Le_pack (p := ds ++ t) fun i hi => by
    rw [(hget i hi).1]
    exact (hget i hi).2
  have hbyte : ∀ b < 4, hexOfByte (byteOf (getU32Le (ds ++ t)) b) =
      [tolower (ds.getD (b * 2) 0), tolower (ds.getD (b * 2 + 1) 0)] := by
    intro b hb
    obtain ⟨hx, hdx⟩ := hget (b * 2) (by omega)
    obtain ⟨hy, hdy⟩ := hget (b * 2 + 1) (by omega)
    rw [hpack, byteOf_packBytes _ b hb, hx, hy, hexOfByte_pairByte hdx hdy]
  rw [putU32Le_eq]
  simp only [List.range, List.range.loop, List.flatMap_cons, List.flatMap_nil,
    hbyte 0 (by omega), hbyte 1 (by omega), hbyte 2 (by omega), hbyte 3 (by omega)]
  have hmap : ds.map tolower = (List.range 8).map fun i => tolower (ds.getD i 0) := by
    apply List.ext_getElem
    · simp [hlen]
    · intro i hi _
      simp [List.getElem?_eq_getElem (List.length_map tolower ▸ hi)]
  rw [hmap]
  rfl

/-! ## Register files -/

/-- Every register can be read, and a write may fail where it is `bad`. -/
def onlyWrites (bad : Core → McdAddr → UInt32 → Prop) : BusOp → Prop
  | .read _ _ => False
  | .write c a v => bad c a v

abbrev fileRegs (bad : Core → McdAddr → UInt32 → Prop) : Env BusSig Regs :=
  coreRegs (onlyWrites bad)

/-- The text of a register. -/
def regShown (m : CoreMap) (regs : Regs) (i : Fin NREG) : List UInt8 :=
  match m.reg i with
  | some a => putU32Le (regs m.target.core a)
  | none => unavailable

/-- The text of all registers. -/
def fileText (m : CoreMap) (regs : Regs) : List UInt8 := regIndices.flatMap (regShown m regs)

/-- The registers after those in `is` are written with what stands in `p`. -/
def setAll (m : CoreMap) (p : List UInt8) (is : List (Fin NREG)) (regs : Regs) : Regs :=
  is.foldl (fun regs i => match m.reg i with
    | some a => regs.set m.target.core a (getU32Le (p.drop (i * 8)))
    | none => regs) regs

section programs
variable (s : Stub) (regs : Regs) (out : List (List UInt8))

theorem wp_getReg_file {bad : Core → McdAddr → UInt32 → Prop}
    {X : Abort → Regs × List (List UInt8) → Prop} (a : McdAddr) :
    (getReg s a).wp (replying (fileRegs bad))
      (fun v y => v = regs s.active.target.core a ∧ y = (regs, out)) X (regs, out) := by
  unfold getReg
  rintro r ⟨regs', out'⟩ ⟨⟨hr, hregs⟩, hout⟩
  obtain rfl : regs' = regs := hregs
  obtain rfl : out' = out := hout
  rcases hr with rfl | ⟨-, hfails⟩
  · exact ⟨rfl, rfl⟩
  · exact hfails.elim

theorem wp_regText_file {bad : Core → McdAddr → UInt32 → Prop}
    {X : Abort → Regs × List (List UInt8) → Prop} (i : Fin NREG) :
    (regText s i).wp (replying (fileRegs bad))
      (fun text y => text = regShown s.active regs i ∧ y = (regs, out)) X (regs, out) := by
  rw [regText, regShown, CoreMap.reg]
  cases s.active.regok i with
  | false => exact ⟨rfl, rfl⟩
  | true =>
    simp only [↓reduceIte, wp_bind]
    apply wp_mono _ ?_ (fun _ _ h => h) (wp_getReg_file s regs out (s.active.rega i))
    rintro _ _ ⟨rfl, rfl⟩
    exact ⟨rfl, rfl⟩

theorem wp_regTexts_file {bad : Core → McdAddr → UInt32 → Prop}
    {X : Abort → Regs × List (List UInt8) → Prop} (is : List (Fin NREG)) :
    (regTexts s is).wp (replying (fileRegs bad))
      (fun text y => text = is.flatMap (regShown s.active regs) ∧ y = (regs, out)) X
      (regs, out) := by
  induction is with
  | nil => exact ⟨rfl, rfl⟩
  | cons i is ih =>
    simp only [regTexts, wp_bind]
    apply wp_mono _ ?_ (fun _ _ h => h) (wp_regText_file s regs out i)
    rintro _ _ ⟨rfl, rfl⟩
    rw [wp_bind]
    apply wp_mono _ ?_ (fun _ _ h => h) ih
    rintro _ _ ⟨rfl, rfl⟩
    exact ⟨rfl, rfl⟩

theorem wp_handle_g_file {bad : Core → McdAddr → UInt32 → Prop}
    {X : Abort → Regs × List (List UInt8) → Prop} :
    (handle_g s).wp (replying (fileRegs bad))
      (fun _ y => y = (regs, out ++ [fileText s.active regs])) X (regs, out) := by
  rw [handle_g, wp_bind]
  apply wp_mono _ ?_ (fun _ _ h => h) (wp_regTexts_file s regs out regIndices)
  rintro _ _ ⟨rfl, rfl⟩
  exact (wp_putPacket_replying _ _).mpr rfl

theorem wp_setReg_core {fails : BusOp → Prop} (a : McdAddr) (v : UInt32) :
    (setReg s a v).wp (replying (coreRegs fails))
      (fun _ y => y = (regs.set s.active.target.core a v, out))
      (fun e y => e = .die "set reg" ∧ y = (regs, out)) (regs, out) := by
  unfold setReg
  rintro r ⟨regs', out'⟩ ⟨hr, hout⟩
  obtain rfl : out' = out := hout
  rcases hr with ⟨rfl, hregs⟩ | ⟨rfl, -, hregs⟩
  · obtain rfl : regs' = _ := hregs
    rfl
  · obtain rfl : regs' = regs := hregs
    exact ⟨rfl, rfl⟩

/-- All registers are written in turn, or the stub dies after some. -/
theorem wp_setRegs_core {fails : BusOp → Prop} (p : List UInt8) (is : List (Fin NREG)) :
    (setRegs s p is).wp (replying (coreRegs fails))
      (fun _ y => y = (setAll s.active p is regs, out))
      (fun e y => e = .die "set reg" ∧ ∃ js, js <+: is ∧ y = (setAll s.active p js regs, out))
      (regs, out) := by
  induction is generalizing regs with
  | nil => rfl
  | cons i is ih =>
    simp only [setRegs, setAll, List.foldl_cons]
    cases hok : s.active.regok i with
    | false =>
      have hnone : s.active.reg i = none := reg_none.mpr hok
      simp only [hnone]
      apply wp_mono _ (fun _ _ h => h) ?_ (ih regs)
      rintro e _ ⟨he, js, hjs, rfl⟩
      exact ⟨he, i :: js, by simpa using hjs, by simp [setAll, hnone]⟩
    | true =>
      have hsome : s.active.reg i = some (s.active.rega i) := reg_some.mpr ⟨hok, rfl⟩
      simp only [hsome, ↓reduceIte, wp_bind]
      refine wp_mono _ ?_ ?_ (wp_setReg_core s regs out _ _)
      · rintro _ _ rfl
        apply wp_mono _ (fun _ _ h => h) ?_ (ih _)
        rintro e _ ⟨he, js, hjs, rfl⟩
        exact ⟨he, i :: js, by simpa using hjs, by simp [setAll, hsome]⟩
      · rintro e _ ⟨he, rfl⟩
        exact ⟨he, [], List.nil_prefix, rfl⟩

end programs

/-! ## What a block of registers holds -/

section blocks
variable {m : CoreMap} {p : List UInt8} {is : List (Fin NREG)} {regs : Regs}

theorem setAll_cons (i : Fin NREG) (is : List (Fin NREG)) :
    setAll m p (i :: is) regs = setAll m p is (match m.reg i with
      | some a => regs.set m.target.core a (getU32Le (p.drop (i * 8)))
      | none => regs) := rfl

/-- Everything else is left as it was. -/
theorem setAll_other {c : Core} {a : McdAddr}
    (h : ∀ i ∈ is, m.reg i = some a → c ≠ m.target.core) : setAll m p is regs c a = regs c a := by
  induction is generalizing regs with
  | nil => rfl
  | cons i is ih =>
    rw [setAll_cons, ih fun j hj => h j (List.mem_cons_of_mem _ hj)]
    cases hreg : m.reg i with
    | none => rfl
    | some b =>
      refine if_neg ?_
      rintro ⟨hc, rfl⟩
      exact h i List.mem_cons_self hreg hc

/-- Each register holds what stands at its place, if no two share an address. -/
theorem setAll_at (honce : m.MapsOnce) {i : Fin NREG} (hi : i ∈ is) {a : McdAddr}
    (ha : m.reg i = some a) : setAll m p is regs m.target.core a = getU32Le (p.drop (i * 8)) := by
  induction is generalizing regs with
  | nil => cases hi
  | cons j is ih =>
    rw [setAll_cons]
    by_cases hlater : i ∈ is
    · exact ih hlater
    · rcases List.mem_cons.mp hi with rfl | hi
      · rw [ha, setAll_other]
        · exact if_pos ⟨rfl, rfl⟩
        · intro k hk hsame _
          exact hlater (honce i k a ha hsame ▸ hk)
      · exact absurd hi hlater

/-- Writing what is there changes nothing. -/
theorem setAll_same (h : ∀ i ∈ is, ∀ a, m.reg i = some a →
    getU32Le (p.drop (i * 8)) = regs m.target.core a) : setAll m p is regs = regs := by
  induction is with
  | nil => rfl
  | cons i is ih =>
    rw [setAll_cons]
    cases hreg : m.reg i with
    | none => exact ih fun j hj => h j (List.mem_cons_of_mem _ hj)
    | some a =>
      have hset : regs.set m.target.core a (getU32Le (p.drop (i * 8))) = regs := by
        funext c b
        rw [Regs.set, h i List.mem_cons_self a hreg]
        split
        · rename_i heq
          rw [heq.1, heq.2]
        · rfl
      simp only [hset]
      exact ih fun j hj => h j (List.mem_cons_of_mem _ hj)

end blocks

/-! ## Round trips -/

theorem mem_regIndices (i : Fin NREG) : i ∈ regIndices := List.mem_finRange i

theorem drop_flatMap {f : Fin NREG → List UInt8} (hf : ∀ i, (f i).length = 8)
    (is : List (Fin NREG)) (t : List UInt8) (k : Nat) (hk : k < is.length) :
    ∃ rest, (is.flatMap f ++ t).drop (k * 8) = f is[k] ++ rest := by
  induction is generalizing k with
  | nil => exact absurd hk (Nat.not_lt_zero k)
  | cons i is ih =>
    rw [List.flatMap_cons, List.append_assoc]
    cases k with
    | zero => exact ⟨_, rfl⟩
    | succ k =>
      obtain ⟨rest, hrest⟩ := ih k (by simpa using hk)
      refine ⟨rest, ?_⟩
      rw [show (k + 1) * 8 = (f i).length + k * 8 by rw [hf]; omega, List.drop_append,
        List.getElem_cons_succ, ← hrest]
      simp

theorem length_regShown (m : CoreMap) (regs : Regs) (i : Fin NREG) :
    (regShown m regs i).length = 8 := by
  unfold regShown
  split <;> rfl

/-- What a register is shown as is read back from the text of all. -/
theorem getU32Le_fileText {m : CoreMap} (regs : Regs) (t : List UInt8) {i : Fin NREG} {a : McdAddr}
    (ha : m.reg i = some a) :
    getU32Le ((fileText m regs ++ t).drop (i * 8)) = regs m.target.core a := by
  have hi : i.val < regIndices.length := by simp [regIndices]
  have hget : regIndices[i.val] = i := by simp [regIndices]
  have hshown : regShown m regs i = putU32Le (regs m.target.core a) := by simp only [regShown, ha]
  obtain ⟨rest, hrest⟩ := drop_flatMap (length_regShown m regs) regIndices t i hi
  rw [fileText, hrest, hget, hshown]
  exact getU32Le_putU32Le _ rest

/-- The digits of the available registers in lower case, and the others as they are
always shown. -/
def blockText (m : CoreMap) (digits : List UInt8) : List UInt8 :=
  regIndices.flatMap fun i => match m.reg i with
    | some _ => ((digits.drop (i * 8)).take 8).map tolower
    | none => unavailable

theorem fileText_setAll {m : CoreMap} (honce : m.MapsOnce) {digits : List UInt8}
    (hlen : digits.length = NREG * 8) (hd : ∀ d ∈ digits, (digit16 d).isSome) (t : List UInt8)
    (regs : Regs) :
    fileText m (setAll m (digits ++ t) regIndices regs) = blockText m digits := by
  have hshown : regShown m (setAll m (digits ++ t) regIndices regs) = fun i => match m.reg i with
      | some _ => ((digits.drop (i * 8)).take 8).map tolower
      | none => unavailable := by
    funext i
    have hi : (i + 1) * 8 ≤ digits.length := by
      rw [hlen]
      exact Nat.mul_le_mul_right 8 i.isLt
    unfold regShown
    cases ha : m.reg i with
    | none => rfl
    | some a =>
      have hsplit : (digits ++ t).drop (i * 8) =
          (digits.drop (i * 8)).take 8 ++ ((digits.drop (i * 8)).drop 8 ++ t) := by
        rw [← List.append_assoc, List.take_append_drop, List.drop_append_of_le_length (by omega)]
      dsimp only
      rw [setAll_at honce (mem_regIndices i) ha, hsplit, putU32Le_getU32Le]
      · rw [List.length_take, List.length_drop]
        omega
      · exact fun d hmem => hd d (List.mem_of_mem_drop (List.mem_of_mem_take hmem))
  rw [fileText, hshown, blockText]

/-- A `g` packet returns the text and changes nothing. -/
def Shows (bad : Core → McdAddr → UInt32 → Prop) (polls : Nat) (s : Stub) (regs : Regs)
    (text : List UInt8) : Prop :=
  ∀ p : Packet, p.payload.getD 0 0 = 103 →
    (dispatchPacket polls s p).wp (replying (fileRegs bad))
      (fun r y => r = some s ∧ y = (regs, [text])) (fun _ _ => False) (regs, [])

/-- A `G` packet with the text leaves every register as it is, also if a write fails. -/
def Leaves (bad : Core → McdAddr → UInt32 → Prop) (polls : Nat) (s : Stub) (regs : Regs)
    (text : List UInt8) : Prop :=
  ∀ p : Packet, p.payload = 71 :: text →
    (dispatchPacket polls s p).wp (replying (fileRegs bad)) (fun _ y => y.1 = regs)
      (fun _ y => y.1 = regs) (regs, [])

theorem shows_fileText (bad : Core → McdAddr → UInt32 → Prop) (polls : Nat) (s : Stub)
    (regs : Regs) :
    Shows bad polls s regs (fileText s.active regs) := by
  intro p hp
  have haccess : Accesses p.payload := by
    rw [Accesses, hp]
    decide
  rw [dispatch_regCommand polls s haccess, wp_bind, regCommand, if_pos hp]
  apply wp_mono _ ?_ (fun _ _ h => h) (wp_handle_g_file s regs [])
  rintro _ _ rfl
  exact ⟨rfl, rfl⟩

/-- Registers that are not in the map of the core are as they were. -/
def Outside (m : CoreMap) (regs regs' : Regs) : Prop :=
  ∀ c a, (c = m.target.core → ∀ i, m.reg i ≠ some a) → regs' c a = regs c a

theorem wp_block {fails : BusOp → Prop} (polls : Nat) (s : Stub) (regs : Regs)
    (digits stale : List UInt8) :
    (dispatchPacket polls s ⟨71 :: digits, stale⟩).wp (replying (coreRegs fails))
      (fun r y => r = some s ∧
        ((strlen (digits ++ 0 :: stale) < NREG * 8 ∧ y = (regs, [bytes "E01"])) ∨
        y = (setAll s.active (digits ++ 0 :: stale) regIndices regs, [bytes "OK"])))
      (fun _ y => ∃ js, y = (setAll s.active (digits ++ 0 :: stale) js regs, [])) (regs, []) := by
  rw [dispatch_regCommand polls s (by simp [Accesses]), wp_bind]
  change (handle_G s (digits ++ 0 :: stale)).wp _ _ _ _
  refine wp_ite _ (fun hshort => ?_) fun _ => ?_
  · exact (wp_putPacket_replying _ _).mpr ⟨rfl, .inl ⟨hshort, rfl⟩⟩
  · rw [wp_bind]
    refine wp_mono _ ?_ ?_ (wp_setRegs_core s regs [] (digits ++ 0 :: stale) regIndices)
    · rintro _ _ rfl
      exact (wp_putPacket_replying _ _).mpr ⟨rfl, .inr rfl⟩
    · rintro _ _ ⟨-, js, -, rfl⟩
      exact ⟨js, rfl⟩

section round_trip
variable {bad : Core → McdAddr → UInt32 → Prop} {polls : Nat} {s s' : Stub} {regs regs' : Regs}

theorem block_written (honce : s.active.MapsOnce) {digits stale : List UInt8}
    (hlen : digits.length = NREG * 8) (hd : ∀ d ∈ digits, (digit16 d).isSome)
    (hstep : Step (fileRegs bad) polls s regs ⟨⟨71 :: digits, stale⟩, [bytes "OK"]⟩ s' regs') :
    s' = s ∧ Outside s.active regs regs' ∧
      Shows bad polls s' regs' (blockText s.active digits) := by
  obtain ⟨hs, hend⟩ := (hstep.sound _ (wp_block polls s regs digits stale)).1 _ rfl
  obtain rfl := Option.some.inj hs
  rcases hend with ⟨-, hno⟩ | hset
  · have hreply : [bytes "OK"] = [bytes "E01"] := congrArg Prod.snd hno
    exact absurd hreply (by decide)
  · obtain rfl : regs' = _ := congrArg Prod.fst hset
    refine ⟨rfl, ?_, ?_⟩
    · intro c a hout
      exact setAll_other fun i _ ha hc => hout hc i ha
    · rw [← fileText_setAll honce hlen hd (0 :: stale) regs]
      exact shows_fileText bad polls s' _

theorem block_sent_back {p : Packet} (hp : p.payload.getD 0 0 = 103) {text : List UInt8}
    (hstep : Step (fileRegs bad) polls s regs ⟨p, [text]⟩ s' regs') :
    s' = s ∧ regs' = regs ∧ Leaves bad polls s' regs' text := by
  obtain ⟨hs, hend⟩ := (hstep.sound _ (shows_fileText bad polls s regs p hp)).1 _ rfl
  obtain rfl := Option.some.inj hs
  obtain rfl : regs' = regs := congrArg Prod.fst hend
  obtain rfl : text = fileText s'.active regs' := List.singleton_inj.mp (congrArg Prod.snd hend)
  refine ⟨rfl, rfl, ?_⟩
  rintro ⟨_, stale⟩ rfl
  have hsame : ∀ js, setAll s'.active (fileText s'.active regs' ++ 0 :: stale) js regs' = regs' :=
    fun js => setAll_same fun i _ a ha => getU32Le_fileText regs' (0 :: stale) ha
  refine wp_mono _ ?_ ?_ (wp_block polls s' regs' _ stale)
  · rintro r y ⟨-, ⟨-, rfl⟩ | rfl⟩
    · rfl
    · exact hsame _
  · rintro e y ⟨js, rfl⟩
    exact hsame js

end round_trip

/-- However MCD groups and names its registers, no register is mapped twice, a block that is
written reads back as it was sent, and a block that is read can be sent back. -/
theorem block_round_trip (bad : Core → McdAddr → UInt32 → Prop) (polls : Nat) (s : Stub)
    (target : Nat → Target) (groups : Nat → List (List RegInfo))
    (hbuilt : ∀ c, s.all c = buildRegmap (target c) (groups c))
    (hdistinct : ∀ c, ((groups c).flatten.map (·.addr)).Nodup) :
    s.active.MapsOnce ∧
    (∀ regs digits stale, digits.length = NREG * 8 → (∀ d ∈ digits, (digit16 d).isSome) →
      ∀ s' regs', Step (fileRegs bad) polls s regs ⟨⟨71 :: digits, stale⟩, [bytes "OK"]⟩ s' regs' →
        s' = s ∧ Outside s.active regs regs' ∧
          Shows bad polls s' regs' (blockText s.active digits)) ∧
    (∀ regs p text s' regs', p.payload.getD 0 0 = 103 →
      Step (fileRegs bad) polls s regs ⟨p, [text]⟩ s' regs' →
        s' = s ∧ regs' = regs ∧ Leaves bad polls s' regs' text) := by
  have honce : s.active.MapsOnce := by
    rw [s.active_eq, hbuilt]
    exact build_maps_once _ _ (hdistinct _)
  refine ⟨honce, ?_, ?_⟩
  · exact fun regs digits stale hlen hd s' regs' => block_written honce hlen hd
  · exact fun regs p text s' regs' hp => block_sent_back hp

/-! ## A core with two registers -/

/-- The second group has a name in upper case, and one that the first group has. -/
def smallGroups : List (List RegInfo) :=
  [[⟨bytes "d0" ++ [0], ⟨0x10, 1⟩⟩, ⟨bytes "foo" ++ [0], ⟨0x14, 1⟩⟩],
    [⟨bytes "PCXI" ++ [0], ⟨0x18, 1⟩⟩, ⟨bytes "D0" ++ [0], ⟨0x1c, 1⟩⟩]]

def smallStub : Stub := .start 1 (fun c => buildRegmap ⟨c, 1⟩ smallGroups) one_core

/-- The digit 7 for every register. -/
def sevens : List UInt8 := List.replicate (NREG * 8) 55

def writtenRegs : Regs := setAll smallStub.active (sevens ++ [0]) regIndices zeros

set_option maxRecDepth 20000 in
theorem step_sevens : Step (fileRegs fun _ _ _ => True) 0 smallStub zeros
    ⟨⟨71 :: sevens, []⟩, [bytes "OK"]⟩ smallStub writtenRegs :=
  step_regsBy rfl

set_option maxRecDepth 20000 in
theorem step_shown : Step (fileRegs fun _ _ _ => True) 0 smallStub zeros
    ⟨⟨bytes "g", []⟩, [fileText smallStub.active zeros]⟩ smallStub zeros :=
  step_regsBy rfl

/-- The block of sevens is accepted and reads back, and the block of the start can be sent
back. -/
theorem block_round_trip_small :
    smallStub.active.MapsOnce ∧
      Step (fileRegs fun _ _ _ => True) 0 smallStub zeros ⟨⟨71 :: sevens, []⟩, [bytes "OK"]⟩
        smallStub writtenRegs ∧
      Outside smallStub.active zeros writtenRegs ∧
      Shows (fun _ _ _ => True) 0 smallStub writtenRegs (blockText smallStub.active sevens) ∧
      Step (fileRegs fun _ _ _ => True) 0 smallStub zeros
        ⟨⟨bytes "g", []⟩, [fileText smallStub.active zeros]⟩ smallStub zeros ∧
      Leaves (fun _ _ _ => True) 0 smallStub zeros (fileText smallStub.active zeros) := by
  obtain ⟨honce, hwrite, hback⟩ := block_round_trip (fun _ _ _ => True) 0 smallStub
    (fun c => ⟨c, 1⟩) (fun _ => smallGroups) (fun _ => by rw [smallStub, Stub.start])
    (fun _ => by simp [smallGroups])
  have hdigits : ∀ d ∈ sevens, (digit16 d).isSome := by
    intro d hd
    rw [List.eq_of_mem_replicate hd]
    decide
  obtain ⟨-, hout, hshows⟩ := hwrite zeros sevens [] List.length_replicate hdigits smallStub
    writtenRegs step_sevens
  obtain ⟨-, -, hsame⟩ := hback zeros ⟨bytes "g", []⟩ (fileText smallStub.active zeros)
    smallStub zeros (by decide) step_shown
  exact ⟨honce, step_sevens, hout, hshows, step_shown, hsame⟩

end OpenTricore.Registers
