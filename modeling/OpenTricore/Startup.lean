import Mathlib.Data.Nat.Bitwise
import OpenTricore.Lib.Words

/-! The C startup of a core, `bsp/tc4d7/crt0.c` and `core_cstart` of `smp.c`, up to the
first call: the watchdogs, the list of context save areas, `.data` and `.bss`. The list
is proved link by link, and everything the code stores is accounted for. -/

namespace OpenTricore.Startup
open Lib

/-! ## The core -/

/-- `mem` is everything a core addresses, device registers included: each of these is
read once, before it is written, so `mem` has what the read finds. `csfr` are the special
function registers. `stores` is ours: the addresses of the words written, in order. -/
structure Core where
  mem : Mem
  csfr : UInt32 → UInt32
  stores : List Nat

def Core.load (c : Core) (a : UInt32) : UInt32 := loadWord c.mem a.toNat

def Core.store (c : Core) (a v : UInt32) : Core :=
  { c with mem := storeWord c.mem a.toNat v, stores := c.stores ++ [a.toNat] }

def Core.mtcr (c : Core) (id v : UInt32) : Core :=
  { c with csfr := fun r => if r = id then v else c.csfr r }

def CPU_CORE_ID : UInt32 := 0xFE1C
def CPU_FCX : UInt32 := 0xFE38
def CPU_LCX : UInt32 := 0xFE3C

def WDTCPU0_CTRLA : UInt32 := 0xF000003C
def WDTCPU0_CTRLB : UInt32 := 0xF0000040
def WDTSYS_CTRLA : UInt32 := 0xF00001A8
def WDTSYS_CTRLB : UInt32 := 0xF00001AC

/-! ## The code -/

/-- Unlock with the password, request the disable, lock again. -/
def wdtOff (ctrla ctrlb : UInt32) (c : Core) : Core :=
  let a := c.load ctrla
  let pw := ((a >>> 1) &&& 0x7FFF) ^^^ 0x007F
  let a := (a &&& ~~~(1 : UInt32) &&& ~~~((0x7FFF : UInt32) <<< 1)) ||| (pw <<< 1)
  let c := c.store ctrla a
  let c := c.store ctrlb (c.load ctrlb ||| 1)
  c.store ctrla (a ||| 1)

/-- The segment of an address, and its bits 21 to 6. -/
def linkWord (nxt : UInt32) : UInt32 :=
  ((nxt &&& ((0xF : UInt32) <<< 28)) >>> 12) ||| ((nxt &&& ((0xFFFF : UInt32) <<< 6)) >>> 6)

/-- The `for` loop with the rounds that are left. Returns `prv`. -/
def csaLoop (num : UInt32) : Nat → UInt32 → UInt32 → UInt32 → Core → UInt32 × Core
  | 0, _, prv, _, c => (prv, c)
  | n + 1, k, prv, nxt, c =>
    let lv := linkWord nxt
    let c := if k = 0 then c.mtcr CPU_FCX lv else c.store prv lv
    let c := if k = num - 3 then c.mtcr CPU_LCX lv else c
    csaLoop num n (k + 1) nxt (nxt + 64) c

/-- Both startups have it inlined. -/
def buildCsa (b e : UInt32) (c : Core) : Core :=
  let num := (e - b) / 64
  let (prv, c) := csaLoop num num.toNat 0 0 b c
  c.store prv 0

/-- `while (d < __data_end) *d++ = *s++;`. `none` is a loop that goes on. -/
def copyData (stop : UInt32) : Nat → UInt32 → UInt32 → Core → Option Core
  | 0, _, _, _ => none
  | n + 1, s, d, c =>
    if d < stop then copyData stop n (s + 4) (d + 4) (c.store d (c.load s)) else some c

/-- `while (z < __bss_end) *z++ = 0;`. -/
def clearBss (stop : UInt32) : Nat → UInt32 → Core → Option Core
  | 0, _, _ => none
  | n + 1, z, c => if z < stop then clearBss stop n (z + 4) (c.store z 0) else some c

/-- The symbols of the linker script. -/
structure Layout where
  csaBegin : UInt32
  csaEnd : UInt32
  dataLoad : UInt32
  dataStart : UInt32
  dataEnd : UInt32
  bssStart : UInt32
  bssEnd : UInt32

/-- `_cstart` up to the call of `main`. -/
def cstart (fuel : Nat) (l : Layout) (c : Core) : Option Core := do
  let c := wdtOff WDTCPU0_CTRLA WDTCPU0_CTRLB c
  let c := wdtOff WDTSYS_CTRLA WDTSYS_CTRLB c
  let c := buildCsa l.csaBegin l.csaEnd c
  let c ← copyData l.dataEnd fuel l.dataLoad l.dataStart c
  clearBss l.bssEnd fuel l.bssStart c

def SEC_CSA_BEGIN : UInt32 := 0xD0000100
def SEC_CSA_END : UInt32 := 0xD0000D00

/-- `core_cstart` up to the first call, with what it calls. `entries` is the address of
`g_core_entry`. -/
def coreCstart (entries : UInt32) (c : Core) : Option UInt32 × Core :=
  let c := buildCsa SEC_CSA_BEGIN SEC_CSA_END c
  let id := c.csfr CPU_CORE_ID &&& 0x7
  let entry := c.load (entries + 4 * id)
  (if entry ≠ 0 then some entry else none, c)

/-! ## Link words -/

/-- Bits 19 to 16 are bits 31 to 28 of the address, and bits 15 to 0 its bits 21 to 6. -/
def linkAddr (w : UInt32) : Nat :=
  w.toNat / 2 ^ 16 % 2 ^ 4 * 2 ^ 28 + w.toNat % 2 ^ 16 * 2 ^ 6

/-- An address that a link word can name. -/
def Linkable (a : Nat) : Prop := a < 2 ^ 32 ∧ a % 64 = 0 ∧ a % 2 ^ 28 < 2 ^ 22

theorem segment_bits {n : Nat} (h : n < 2 ^ 32) :
    (n &&& 0xF0000000) >>> 12 = n / 2 ^ 28 * 2 ^ 16 := by
  have hmask : n &&& 0xF0000000 = n / 2 ^ 28 * 2 ^ 28 := by
    have hdiv := Nat.and_div_two_pow (a := n) (b := 0xF0000000) (n := 28)
    have hmod := Nat.and_mod_two_pow (a := n) (b := 0xF0000000) (n := 28)
    have hall := Nat.and_two_pow_sub_one_eq_mod (n / 2 ^ 28) 4
    simp at hdiv hmod hall
    omega
  rw [hmask, Nat.shiftRight_eq_div_pow]
  omega

theorem offset_bits (n : Nat) : (n &&& 0x3FFFC0) >>> 6 = n % 2 ^ 22 / 64 := by
  have hall := Nat.and_two_pow_sub_one_eq_mod (n / 64) 16
  rw [Nat.shiftRight_and_distrib]
  simp [Nat.shiftRight_eq_div_pow] at hall ⊢
  omega

theorem linkWord_toNat (a : UInt32) :
    (linkWord a).toNat = a.toNat / 2 ^ 28 * 2 ^ 16 + a.toNat % 2 ^ 22 / 64 := by
  have hseg := segment_bits a.toNat_lt
  have hoff := offset_bits a.toNat
  have hor := Nat.shiftLeft_add_eq_or_of_lt (b := a.toNat % 2 ^ 22 / 64) (i := 16) (by omega)
    (a.toNat / 2 ^ 28)
  rw [Nat.shiftLeft_eq] at hor
  simp only [linkWord, UInt32.toNat_or, UInt32.toNat_shiftRight, UInt32.toNat_and] at *
  rw [hor, ← hseg, ← hoff]
  rfl

theorem linkAddr_linkWord {a : UInt32} (h : Linkable a.toNat) :
    linkAddr (linkWord a) = a.toNat := by
  obtain ⟨hlt, halign, hseg⟩ := h
  rw [linkAddr, linkWord_toNat]
  omega

theorem linkWord_ne_zero {a : UInt32} (h : Linkable a.toNat) (h0 : 0 < a.toNat) :
    linkWord a ≠ 0 := by
  intro hzero
  have haddr := linkAddr_linkWord h
  rw [hzero] at haddr
  have : linkAddr 0 = 0 := rfl
  omega

/-- Following the links from `w` visits `l`, and ends at 0. -/
def Follows (m : Mem) : UInt32 → List Nat → Prop
  | w, [] => w = 0
  | w, a :: l => w ≠ 0 ∧ linkAddr w = a ∧ Follows m (loadWord m a) l

/-- The link word of the area at `a`. -/
abbrev areaWord (a : Nat) : UInt32 := linkWord (UInt32.ofNat a)

theorem follows_areas (m : Mem) (n a : Nat)
    (harea : ∀ i ≤ n, 0 < a + 64 * i ∧ Linkable (a + 64 * i))
    (hlink : ∀ i < n, loadWord m (a + 64 * i) = areaWord (a + 64 * (i + 1)))
    (hlast : loadWord m (a + 64 * n) = 0) :
    Follows m (areaWord a) (List.range' a (n + 1) 64) := by
  have hname : ∀ i ≤ n, areaWord (a + 64 * i) ≠ 0 ∧
      linkAddr (areaWord (a + 64 * i)) = a + 64 * i := by
    intro i hi
    obtain ⟨hpos, hable⟩ := harea i hi
    have hnat : (UInt32.ofNat (a + 64 * i)).toNat = a + 64 * i :=
      UInt32.toNat_ofNat_of_lt' hable.1
    rw [← hnat] at hpos hable
    exact ⟨linkWord_ne_zero hable hpos, (linkAddr_linkWord hable).trans hnat⟩
  induction n generalizing a with
  | zero =>
    obtain ⟨hne, haddr⟩ := hname 0 (Nat.le_refl 0)
    exact ⟨hne, haddr, hlast⟩
  | succ n ih =>
    obtain ⟨hne, haddr⟩ := hname 0 (Nat.zero_le _)
    rw [List.range'_succ]
    refine ⟨hne, haddr, ?_⟩
    have hshift : ∀ i, a + 64 + 64 * i = a + 64 * (i + 1) := by omega
    rw [show loadWord m a = areaWord (a + 64) from hlink 0 (Nat.succ_pos n)]
    apply ih
    · intro i hi
      rw [hshift]
      exact harea (i + 1) (Nat.succ_le_succ hi)
    · intro i hi
      rw [hshift, hshift]
      exact hlink (i + 1) (Nat.succ_lt_succ hi)
    · rw [hshift]
      exact hlast
    · intro i hi
      rw [hshift]
      exact hname (i + 1) (Nat.succ_le_succ hi)

/-! ## What is written -/

/-- Between two states only words at addresses in `P` were stored. -/
structure Wrote (P : Nat → Prop) (c c' : Core) : Prop where
  stores : ∃ l, c'.stores = c.stores ++ l ∧ ∀ a ∈ l, P a
  mem : ∀ x, (∀ a, P a → x < a ∨ a + 4 ≤ x) → c'.mem x = c.mem x

theorem Wrote.refl (P : Nat → Prop) (c : Core) : Wrote P c c :=
  ⟨⟨[], (List.append_nil _).symm, fun _ h => by cases h⟩, fun _ _ => rfl⟩

theorem Wrote.trans {P : Nat → Prop} {a b c : Core} (h : Wrote P a b) (h' : Wrote P b c) :
    Wrote P a c := by
  obtain ⟨⟨l, hl, hP⟩, hmem⟩ := h
  obtain ⟨⟨l', hl', hP'⟩, hmem'⟩ := h'
  refine ⟨⟨l ++ l', by rw [hl', hl, List.append_assoc], fun x hx => ?_⟩, fun x hx => ?_⟩
  · rcases List.mem_append.mp hx with hx | hx
    · exact hP x hx
    · exact hP' x hx
  · rw [hmem' x hx, hmem x hx]

theorem Wrote.mono {P Q : Nat → Prop} {c c' : Core} (hPQ : ∀ a, P a → Q a) (h : Wrote P c c') :
    Wrote Q c c' := by
  obtain ⟨⟨l, hl, hP⟩, hmem⟩ := h
  exact ⟨⟨l, hl, fun a ha => hPQ a (hP a ha)⟩, fun x hx => hmem x fun a ha => hx a (hPQ a ha)⟩

theorem Wrote.store {P : Nat → Prop} {c : Core} {a v : UInt32} (h : P a.toNat) :
    Wrote P c (c.store a v) := by
  refine ⟨⟨[a.toNat], rfl, fun x hx => ?_⟩, fun x hx => ?_⟩
  · rw [List.mem_singleton.mp hx]
    exact h
  · exact storeWord_of_disjoint c.mem v (hx _ h)

theorem Wrote.mtcr (P : Nat → Prop) (c : Core) (id v : UInt32) : Wrote P c (c.mtcr id v) :=
  ⟨⟨[], (List.append_nil _).symm, fun _ h => by cases h⟩, fun _ _ => rfl⟩

/-- A word apart from all that was written. -/
theorem Wrote.word {P : Nat → Prop} {c c' : Core} (h : Wrote P c c') {x : Nat}
    (hx : ∀ a, P a → x + 4 ≤ a ∨ a + 4 ≤ x) : loadWord c'.mem x = loadWord c.mem x := by
  apply loadWord_congr
  intro b hb
  apply h.mem
  intro a ha
  have := hx a ha
  omega

theorem load_store (c : Core) (a v : UInt32) : loadWord (c.store a v).mem a.toNat = v :=
  loadWord_storeWord c.mem a.toNat v

/-- The `n` words from `lo` on, `step` bytes apart. -/
def WordsFrom (lo n step : Nat) (a : Nat) : Prop := ∃ k < n, a = lo + step * k

theorem wordsFrom_first (lo n step : Nat) : WordsFrom lo (n + 1) step lo :=
  ⟨0, Nat.succ_pos n, rfl⟩

theorem wordsFrom_succ {lo n step a : Nat} (h : WordsFrom (lo + step) n step a) :
    WordsFrom lo (n + 1) step a := by
  obtain ⟨k, hk, rfl⟩ := h
  exact ⟨k + 1, Nat.succ_lt_succ hk, by rw [Nat.mul_succ]; omega⟩

theorem wordsFrom_later {lo n a : Nat} (h : WordsFrom (lo + 4) n 4 a) : lo + 4 ≤ a := by
  obtain ⟨k, -, rfl⟩ := h
  exact Nat.le_add_right ..

theorem add_four {x : UInt32} (h : x.toNat + 4 < 2 ^ 32) : (x + 4).toNat = x.toNat + 4 := by
  rw [UInt32.toNat_add]
  exact Nat.mod_eq_of_lt h

/-! ## Copying and clearing -/

/-- `n` words are left. The words read stay as they are, so each arrives as it was at
the start of the loop. -/
theorem copyData_run (stop : UInt32) (n : Nat) (s d : UInt32) (c : Core)
    (hd : d.toNat + 4 * n = stop.toNat) (hs : s.toNat + 4 * n ≤ 2 ^ 32)
    (hapart : ∀ x, d.toNat ≤ x → x < stop.toNat → s.toNat ≤ x → s.toNat + 4 * n ≤ x) :
    ∃ c', (∀ fuel, n < fuel → copyData stop fuel s d c = some c') ∧ c'.csfr = c.csfr ∧
      Wrote (WordsFrom d.toNat n 4) c c' ∧
      ∀ k < n, loadWord c'.mem (d.toNat + 4 * k) = loadWord c.mem (s.toNat + 4 * k) := by
  induction n generalizing s d c with
  | zero =>
    have hstop : ¬ d < stop := by
      rw [UInt32.lt_iff_toNat_lt]
      omega
    refine ⟨c, fun fuel hfuel => ?_, rfl, .refl _ c, fun k hk => absurd hk (Nat.not_lt_zero k)⟩
    obtain ⟨fuel, rfl⟩ := Nat.exists_eq_add_one.mpr hfuel
    rw [copyData, if_neg hstop]
  | succ n ih =>
    have hgo : d < stop := by
      rw [UInt32.lt_iff_toNat_lt]
      omega
    have hstop := stop.toNat_lt
    have hwrap := (s + 4).toNat_lt
    have hd4 : (d + 4).toNat = d.toNat + 4 := add_four (by omega)
    -- past the last word, `s` may be back at 0
    have hs4 : n = 0 ∨ (s + 4).toNat = s.toNat + 4 := by
      rcases Nat.eq_zero_or_pos n with hn | hn
      · exact .inl hn
      · exact .inr (add_four (by omega))
    have hrest : ∀ x, (d + 4).toNat ≤ x → x < stop.toNat → (s + 4).toNat ≤ x →
        (s + 4).toNat + 4 * n ≤ x := by
      intro x hdx hx hsx
      have := hapart x
      omega
    obtain ⟨c', hrun, hcsfr, hwrote, hcopied⟩ :=
      ih (s + 4) (d + 4) (c.store d (c.load s)) (by omega) (by omega) hrest
    rw [hd4] at hwrote hcopied
    refine ⟨c', fun fuel hfuel => ?_, hcsfr, ?_, fun k hk => ?_⟩
    · obtain ⟨fuel, rfl⟩ := Nat.exists_eq_add_one.mpr (Nat.zero_lt_of_lt hfuel)
      rw [copyData, if_pos hgo]
      exact hrun fuel (Nat.lt_of_succ_lt_succ hfuel)
    · exact (Wrote.store (wordsFrom_first d.toNat n 4)).trans (hwrote.mono fun _ => wordsFrom_succ)
    · cases k with
      | zero =>
        rw [Nat.mul_zero, Nat.add_zero, hwrote.word fun a ha => .inl (wordsFrom_later ha),
          load_store]
        rfl
      | succ k =>
        have hnext := hcopied k (Nat.lt_of_succ_lt_succ hk)
        have hafter : (s + 4).toNat + 4 * k = s.toNat + 4 * (k + 1) := by omega
        have hsource : loadWord (c.store d (c.load s)).mem (s.toNat + 4 * (k + 1)) =
            loadWord c.mem (s.toNat + 4 * (k + 1)) := by
          apply loadWord_storeWord_of_disjoint
          have hlow := hapart d.toNat
          have hhigh := hapart (s.toNat + 4 * (k + 1))
          omega
        rw [hafter, hsource] at hnext
        rw [← hnext, Nat.mul_succ, Nat.add_assoc d.toNat, Nat.add_comm 4]

theorem clearBss_run (stop : UInt32) (n : Nat) (z : UInt32) (c : Core)
    (hz : z.toNat + 4 * n = stop.toNat) :
    ∃ c', (∀ fuel, n < fuel → clearBss stop fuel z c = some c') ∧ c'.csfr = c.csfr ∧
      Wrote (WordsFrom z.toNat n 4) c c' ∧ ∀ k < n, loadWord c'.mem (z.toNat + 4 * k) = 0 := by
  induction n generalizing z c with
  | zero =>
    have hstop : ¬ z < stop := by
      rw [UInt32.lt_iff_toNat_lt]
      omega
    refine ⟨c, fun fuel hfuel => ?_, rfl, .refl _ c, fun k hk => absurd hk (Nat.not_lt_zero k)⟩
    obtain ⟨fuel, rfl⟩ := Nat.exists_eq_add_one.mpr hfuel
    rw [clearBss, if_neg hstop]
  | succ n ih =>
    have hgo : z < stop := by
      rw [UInt32.lt_iff_toNat_lt]
      omega
    have hstop := stop.toNat_lt
    have hz4 : (z + 4).toNat = z.toNat + 4 := add_four (by omega)
    obtain ⟨c', hrun, hcsfr, hwrote, hzero⟩ := ih (z + 4) (c.store z 0) (by omega)
    rw [hz4] at hwrote hzero
    refine ⟨c', fun fuel hfuel => ?_, hcsfr, ?_, fun k hk => ?_⟩
    · obtain ⟨fuel, rfl⟩ := Nat.exists_eq_add_one.mpr (Nat.zero_lt_of_lt hfuel)
      rw [clearBss, if_pos hgo]
      exact hrun fuel (Nat.lt_of_succ_lt_succ hfuel)
    · exact (Wrote.store (wordsFrom_first z.toNat n 4)).trans (hwrote.mono fun _ => wordsFrom_succ)
    · cases k with
      | zero =>
        rw [Nat.mul_zero, Nat.add_zero, hwrote.word fun a ha => .inl (wordsFrom_later ha),
          load_store]
      | succ k =>
        have hnext := hzero k (Nat.lt_of_succ_lt_succ hk)
        rwa [Nat.add_assoc, Nat.add_comm 4] at hnext

/-! ## The list of areas -/

/-- After `j` rounds of the loop. The last area has no link yet. -/
structure Chained (b num j : Nat) (c₀ : Core) (prv nxt : UInt32) (c : Core) : Prop where
  nxt : nxt.toNat = b + 64 * j
  prv : 0 < j → prv.toNat + 64 = b + 64 * j
  links : ∀ i, i + 1 < j → loadWord c.mem (b + 64 * i) = areaWord (b + 64 * (i + 1))
  fcx : 0 < j → c.csfr CPU_FCX = areaWord b
  lcx : num - 3 < j → c.csfr CPU_LCX = areaWord (b + 64 * (num - 3))
  others : ∀ id, id ≠ CPU_FCX → id ≠ CPU_LCX → c.csfr id = c₀.csfr id
  wrote : Wrote (WordsFrom b num 64) c₀ c

theorem mtcr_same (c : Core) (id v : UInt32) : (c.mtcr id v).csfr id = v :=
  if_pos rfl

theorem mtcr_other {id id' : UInt32} (h : id' ≠ id) (c : Core) (v : UInt32) :
    (c.mtcr id v).csfr id' = c.csfr id' :=
  if_neg h

section
variable {b num j : Nat} {c₀ c : Core} {prv nxt k : UInt32}

/-- The first half of a round: the link to the area goes into FCX or into the area before it. -/
theorem chained_link (h : Chained b num j c₀ prv nxt c) (hj : j < num) (hk : k.toNat = j) :
    let c' := if k = 0 then c.mtcr CPU_FCX (linkWord nxt) else c.store prv (linkWord nxt)
    (∀ i, i < j → loadWord c'.mem (b + 64 * i) = areaWord (b + 64 * (i + 1))) ∧
      c'.csfr CPU_FCX = areaWord b ∧ (∀ id, id ≠ CPU_FCX → c'.csfr id = c.csfr id) ∧
      Wrote (WordsFrom b num 64) c c' := by
  have hnxt : linkWord nxt = areaWord (b + 64 * j) := by rw [areaWord, ← h.nxt, UInt32.ofNat_toNat]
  dsimp only
  rcases Nat.eq_zero_or_pos j with rfl | hpos
  · have hk0 : k = 0 := UInt32.toNat_inj.mp hk
    rw [if_pos hk0]
    refine ⟨fun i hi => absurd hi (Nat.not_lt_zero i), ?_, fun id hid => mtcr_other hid c _,
      .mtcr _ c _ _⟩
    rw [mtcr_same, hnxt, Nat.mul_zero, Nat.add_zero]
  · have hk0 : k ≠ 0 := by
      rintro rfl
      exact absurd hk (Nat.ne_of_lt hpos)
    have hprv := h.prv hpos
    rw [if_neg hk0]
    refine ⟨fun i hi => ?_, h.fcx hpos, fun _ _ => rfl, .store ⟨j - 1, by omega, by omega⟩⟩
    rcases Nat.lt_or_ge (i + 1) j with hold | hlast
    · rw [← h.links i hold]
      exact loadWord_storeWord_of_disjoint c.mem _ (by omega)
    · have hi : b + 64 * i = prv.toNat := by omega
      rw [hi, load_store, hnxt, show i + 1 = j by omega]

/-- One round. -/
theorem chained_step {numw : UInt32} (hnumw : numw.toNat = num) (hnum : 3 ≤ num)
    (hroom : b + 64 * num < 2 ^ 32) (h : Chained b num j c₀ prv nxt c) (hj : j < num)
    (hk : k.toNat = j) :
    Chained b num (j + 1) c₀ nxt (nxt + 64)
      (let c := if k = 0 then c.mtcr CPU_FCX (linkWord nxt) else c.store prv (linkWord nxt)
       if k = numw - 3 then c.mtcr CPU_LCX (linkWord nxt) else c) := by
  have hnxt : linkWord nxt = areaWord (b + 64 * j) := by rw [areaWord, ← h.nxt, UInt32.ofNat_toNat]
  have hstep : (nxt + 64).toNat = b + 64 * (j + 1) := by
    have := h.nxt
    rw [UInt32.toNat_add, Nat.mod_eq_of_lt] <;> simp <;> omega
  have hthird : k = numw - 3 ↔ j = num - 3 := by
    rw [← UInt32.toNat_inj, UInt32.toNat_sub_of_le numw 3 (by
      rw [UInt32.le_iff_toNat_le, hnumw]
      exact hnum), hk, hnumw]
    rfl
  obtain ⟨hlinks, hfcx, hothers, hwrote⟩ := chained_link h hj hk
  dsimp only at hlinks hfcx hothers hwrote ⊢
  generalize (if k = 0 then c.mtcr CPU_FCX (linkWord nxt) else c.store prv (linkWord nxt)) = c₁ at *
  have hlcx := hothers CPU_LCX (by decide)
  by_cases hlast : k = numw - 3
  · have hjlast := hthird.mp hlast
    rw [if_pos hlast]
    refine ⟨hstep, fun _ => by rw [h.nxt]; omega, fun i hi => hlinks i (Nat.lt_of_succ_lt_succ hi),
      fun _ => ?_, fun _ => ?_, fun id hid hid' => ?_, h.wrote.trans (hwrote.trans (.mtcr _ _ _ _))⟩
    · rw [mtcr_other (by decide), hfcx]
    · rw [mtcr_same, hnxt, hjlast]
    · rw [mtcr_other hid', hothers id hid, h.others id hid hid']
  · have hjlast : j ≠ num - 3 := fun heq => hlast (hthird.mpr heq)
    rw [if_neg hlast]
    refine ⟨hstep, fun _ => by rw [h.nxt]; omega, fun i hi => hlinks i (Nat.lt_of_succ_lt_succ hi),
      fun _ => hfcx, fun hlt => ?_, fun id hid hid' => ?_, h.wrote.trans hwrote⟩
    · rw [hlcx]
      exact h.lcx (by omega)
    · rw [hothers id hid, h.others id hid hid']

theorem csaLoop_run {numw : UInt32} (hnumw : numw.toNat = num) (hnum : 3 ≤ num)
    (hroom : b + 64 * num < 2 ^ 32) (n : Nat) (h : Chained b num j c₀ prv nxt c)
    (hj : j + n = num) (hk : k.toNat = j) :
    ∃ nxt', Chained b num num c₀ (csaLoop numw n k prv nxt c).1 nxt'
      (csaLoop numw n k prv nxt c).2 := by
  induction n generalizing j prv nxt k c with
  | zero =>
    obtain rfl : j = num := hj
    exact ⟨nxt, h⟩
  | succ n ih =>
    have hk' : (k + 1).toNat = j + 1 := by
      rw [UInt32.toNat_add, Nat.mod_eq_of_lt] <;> simp <;> omega
    exact ih (chained_step hnumw hnum hroom h (by omega) hk) (by omega) hk'

end

/-- The links of `num` areas from `b` on, and the registers at both ends. -/
structure Linked (b num : Nat) (c : Core) : Prop where
  links : ∀ i < num - 1, loadWord c.mem (b + 64 * i) = areaWord (b + 64 * (i + 1))
  last : loadWord c.mem (b + 64 * (num - 1)) = 0
  fcx : c.csfr CPU_FCX = areaWord b
  lcx : c.csfr CPU_LCX = areaWord (b + 64 * (num - 3))

/-- What `num` is. -/
def areas (b e : UInt32) : Nat := (e.toNat - b.toNat) / 64

theorem buildCsa_run {b e : UInt32} (hroom : b.toNat + 64 * 3 ≤ e.toNat) (c : Core) :
    Linked b.toNat (areas b e) (buildCsa b e c) ∧
      (∀ id, id ≠ CPU_FCX → id ≠ CPU_LCX → (buildCsa b e c).csfr id = c.csfr id) ∧
      Wrote (WordsFrom b.toNat (areas b e) 64) c (buildCsa b e c) := by
  have hnumw : ((e - b) / 64).toNat = areas b e := by
    rw [UInt32.toNat_div, UInt32.toNat_sub_of_le e b (by rw [UInt32.le_iff_toNat_le]; omega)]
    rfl
  have he := e.toNat_lt
  have hnum : 3 ≤ areas b e := by
    rw [areas]
    omega
  have hspace : b.toNat + 64 * areas b e < 2 ^ 32 := by
    rw [areas]
    omega
  have hstart : Chained b.toNat (areas b e) 0 c 0 b c :=
    ⟨rfl, fun h => absurd h (Nat.lt_irrefl 0), fun i hi => absurd hi (Nat.not_lt_zero _),
      fun h => absurd h (Nat.lt_irrefl 0), fun h => absurd h (Nat.not_lt_zero _),
      fun _ _ _ => rfl, .refl _ c⟩
  obtain ⟨nxt, h⟩ := csaLoop_run (k := 0) hnumw hnum hspace (areas b e) hstart (Nat.zero_add _) rfl
  have hbuild : buildCsa b e c =
      (csaLoop ((e - b) / 64) (areas b e) 0 0 b c).2.store
        (csaLoop ((e - b) / 64) (areas b e) 0 0 b c).1 0 := by
    rw [← hnumw]
    rfl
  rw [hbuild]
  generalize csaLoop ((e - b) / 64) (areas b e) 0 0 b c = r at h
  have hprv := h.prv (by omega)
  have hlast : b.toNat + 64 * (areas b e - 1) = r.1.toNat := by omega
  refine ⟨⟨fun i hi => ?_, ?_, h.fcx (by omega), h.lcx (by omega)⟩, h.others,
    h.wrote.trans (.store ⟨areas b e - 1, by omega, hlast.symm⟩)⟩
  · rw [← h.links i (by omega)]
    exact loadWord_storeWord_of_disjoint r.2.mem 0 (by omega)
  · rw [hlast]
    exact load_store r.2 r.1 0

/-- Writes apart from the areas leave the list as it is. -/
theorem Linked.frame {b num : Nat} {P : Nat → Prop} {c c' : Core} (h : Linked b num c)
    (hw : Wrote P c c') (hcsfr : c'.csfr = c.csfr) (hnum : 0 < num)
    (hP : ∀ a, P a → ∀ x, b ≤ x → x < b + 64 * num → x < a ∨ a + 4 ≤ x) : Linked b num c' := by
  have hword : ∀ i < num, loadWord c'.mem (b + 64 * i) = loadWord c.mem (b + 64 * i) := by
    intro i hi
    apply loadWord_congr
    intro k hk
    exact hw.mem _ fun a ha => hP a ha _ (by omega) (by omega)
  refine ⟨fun i hi => ?_, ?_, by rw [hcsfr]; exact h.fcx, by rw [hcsfr]; exact h.lcx⟩
  · rw [hword i (by omega)]
    exact h.links i hi
  · rw [hword (num - 1) (by omega)]
    exact h.last

/-- The free list of `num` areas from `b` on, and its limit. -/
structure CsaList (b num : Nat) (c : Core) : Prop where
  list : Follows c.mem (c.csfr CPU_FCX) (List.range' b num 64)
  limit : linkAddr (c.csfr CPU_LCX) = b + 64 * (num - 3)

/-- In the first 4 MiB of a segment, and not at address 0, every area has a name. -/
theorem Linked.csaList {b num : Nat} {c : Core} (h : Linked b num c) (hnum : 3 ≤ num)
    (hpos : 0 < b) (halign : b % 64 = 0) (hlt : b < 2 ^ 32)
    (hseg : b % 2 ^ 28 + 64 * num ≤ 2 ^ 22) : CsaList b num c := by
  have harea : ∀ i ≤ num - 1, 0 < b + 64 * i ∧ Linkable (b + 64 * i) := by
    intro i hi
    refine ⟨by omega, ?_, by omega, ?_⟩ <;> omega
  constructor
  · obtain ⟨n, rfl⟩ := Nat.exists_eq_add_one.mpr (show 0 < num by omega)
    rw [h.fcx]
    exact follows_areas c.mem n b harea h.links h.last
  · have hable := (harea (num - 3) (by omega)).2
    have hnat : (UInt32.ofNat (b + 64 * (num - 3))).toNat = b + 64 * (num - 3) :=
      UInt32.toNat_ofNat_of_lt' hable.1
    rw [h.lcx, linkAddr_linkWord (by rw [hnat]; exact hable), hnat]

/-! ## The state at the first call -/

/-- Regions `[lo, hi)` without a common byte. -/
def Apart (lo hi lo' hi' : Nat) : Prop := ∀ x, lo ≤ x → x < hi → lo' ≤ x → hi' ≤ x

/-- Word-aligned `.data` and `.bss`, at least three areas in the first 4 MiB of a segment,
and nothing in two places. -/
structure Layout.Fits (l : Layout) : Prop where
  data : l.dataStart.toNat ≤ l.dataEnd.toNat
  data_aligned : l.dataStart.toNat % 4 = 0 ∧ l.dataEnd.toNat % 4 = 0
  bss : l.bssStart.toNat ≤ l.bssEnd.toNat
  bss_aligned : l.bssStart.toNat % 4 = 0 ∧ l.bssEnd.toNat % 4 = 0
  image : l.dataLoad.toNat + (l.dataEnd.toNat - l.dataStart.toNat) ≤ 2 ^ 32
  csa : l.csaBegin.toNat + 64 * 3 ≤ l.csaEnd.toNat
  csa_aligned : l.csaBegin.toNat % 64 = 0
  csa_segment : l.csaEnd.toNat ≤ l.csaBegin.toNat / 2 ^ 28 * 2 ^ 28 + 2 ^ 22
  data_bss : Apart l.dataStart.toNat l.dataEnd.toNat l.bssStart.toNat l.bssEnd.toNat
  data_csa : Apart l.dataStart.toNat l.dataEnd.toNat l.csaBegin.toNat l.csaEnd.toNat
  bss_csa : Apart l.bssStart.toNat l.bssEnd.toNat l.csaBegin.toNat l.csaEnd.toNat
  image_data : Apart l.dataStart.toNat l.dataEnd.toNat l.dataLoad.toNat
    (l.dataLoad.toNat + (l.dataEnd.toNat - l.dataStart.toNat))
  image_bss : Apart l.bssStart.toNat l.bssEnd.toNat l.dataLoad.toNat
    (l.dataLoad.toNat + (l.dataEnd.toNat - l.dataStart.toNat))
  image_csa : Apart l.csaBegin.toNat l.csaEnd.toNat l.dataLoad.toNat
    (l.dataLoad.toNat + (l.dataEnd.toNat - l.dataStart.toNat))

/-- A word of the one region and a word of the other. -/
theorem Apart.words {lo hi lo' hi' a x : Nat} (h : Apart lo hi lo' hi') (ha : lo ≤ a)
    (ha' : a + 4 ≤ hi) (hx : lo' ≤ x) (hx' : x + 4 ≤ hi') : x + 4 ≤ a ∨ a + 4 ≤ x := by
  have hlow := h a
  have hhigh := h x
  omega

theorem Apart.byte {lo hi lo' hi' a x : Nat} (h : Apart lo hi lo' hi') (ha : lo ≤ a)
    (ha' : a + 4 ≤ hi) (hx : lo' ≤ x) (hx' : x < hi') : x < a ∨ a + 4 ≤ x := by
  have := h x
  omega

theorem wordsFrom_within {lo n a : Nat} (h : WordsFrom lo n 4 a) :
    lo ≤ a ∧ a + 4 ≤ lo + 4 * n := by
  obtain ⟨k, hk, rfl⟩ := h
  omega

def Layout.areas (l : Layout) : Nat := Startup.areas l.csaBegin l.csaEnd

def Layout.dataWords (l : Layout) : Nat := (l.dataEnd.toNat - l.dataStart.toNat) / 4

def Layout.bssWords (l : Layout) : Nat := (l.bssEnd.toNat - l.bssStart.toNat) / 4

/-- A watchdog register. -/
def Watchdog (a : Nat) : Prop :=
  a = WDTCPU0_CTRLA.toNat ∨ a = WDTCPU0_CTRLB.toNat ∨ a = WDTSYS_CTRLA.toNat ∨
    a = WDTSYS_CTRLB.toNat

/-- The words that `_cstart` may write. -/
def Layout.Writable (l : Layout) (a : Nat) : Prop :=
  Watchdog a ∨ WordsFrom l.csaBegin.toNat l.areas 64 a ∨
    WordsFrom l.dataStart.toNat l.dataWords 4 a ∨ WordsFrom l.bssStart.toNat l.bssWords 4 a

/-- The memory of `main`, apart from the list. -/
structure Initialised (l : Layout) (c c' : Core) : Prop where
  data : ∀ k < l.dataWords, loadWord c'.mem (l.dataStart.toNat + 4 * k) =
    loadWord c'.mem (l.dataLoad.toNat + 4 * k)
  bss : ∀ k < l.bssWords, loadWord c'.mem (l.bssStart.toNat + 4 * k) = 0
  image : ∀ x, l.dataLoad.toNat ≤ x → x < l.dataLoad.toNat + 4 * l.dataWords →
    (∀ a, Watchdog a → x < a ∨ a + 4 ≤ x) → c'.mem x = c.mem x
  wrote : Wrote l.Writable c c'
  others : ∀ id, id ≠ CPU_FCX → id ≠ CPU_LCX → c'.csfr id = c.csfr id

theorem wdtOff_wrote {P : Nat → Prop} {ctrla ctrlb : UInt32} (ha : P ctrla.toNat)
    (hb : P ctrlb.toNat) (c : Core) : Wrote P c (wdtOff ctrla ctrlb c) :=
  (Wrote.store ha).trans ((Wrote.store hb).trans (.store ha))

section
variable {l : Layout} (h : l.Fits)
include h

theorem Layout.Fits.data_words : l.dataStart.toNat + 4 * l.dataWords = l.dataEnd.toNat := by
  have hle := h.data
  have halign := h.data_aligned
  rw [Layout.dataWords]
  omega

theorem Layout.Fits.bss_words : l.bssStart.toNat + 4 * l.bssWords = l.bssEnd.toNat := by
  have hle := h.bss
  have halign := h.bss_aligned
  rw [Layout.bssWords]
  omega

theorem Layout.Fits.areas_fit :
    3 ≤ l.areas ∧ l.csaBegin.toNat + 64 * l.areas ≤ l.csaEnd.toNat := by
  have hle := h.csa
  rw [Layout.areas, Startup.areas]
  omega

/-- The load image, in the words of `.data`. -/
theorem Layout.Fits.image_words :
    l.dataEnd.toNat - l.dataStart.toNat = 4 * l.dataWords := by
  have hwords := h.data_words
  omega

/-- What is written is apart from the load image, the watchdogs excepted. -/
theorem Layout.Fits.image_kept {a x : Nat} (ha : l.Writable a) (hx : l.dataLoad.toNat ≤ x)
    (hx' : x < l.dataLoad.toNat + 4 * l.dataWords) : Watchdog a ∨ x < a ∨ a + 4 ≤ x := by
  have himage := h.image_words
  rcases ha with ha | ⟨k, hk, rfl⟩ | ha | ha
  · exact .inl ha
  · have hfit := h.areas_fit.2
    have hend : l.dataLoad.toNat + (l.dataEnd.toNat - l.dataStart.toNat) > x := by omega
    exact .inr (h.image_csa.byte (by omega) (by omega) hx hend)
  · obtain ⟨hlo, hhi⟩ := wordsFrom_within ha
    exact .inr (h.image_data.byte hlo (by rw [← h.data_words]; exact hhi) hx (by omega))
  · obtain ⟨hlo, hhi⟩ := wordsFrom_within ha
    exact .inr (h.image_bss.byte hlo (by rw [← h.bss_words]; exact hhi) hx (by omega))

/-- `_cstart` reaches `main`. -/
theorem cstart_run (c : Core) :
    ∃ c', (∀ fuel, 2 ^ 30 ≤ fuel → cstart fuel l c = some c') ∧
      Linked l.csaBegin.toNat l.areas c' ∧ Initialised l c c' := by
  have himage := h.image_words
  have hdata := h.data_words
  have hbss := h.bss_words
  obtain ⟨hthree, hareas⟩ := h.areas_fit
  have hcpu : Wrote l.Writable c (wdtOff WDTCPU0_CTRLA WDTCPU0_CTRLB c) :=
    wdtOff_wrote (.inl (.inl rfl)) (.inl (.inr (.inl rfl))) c
  generalize hc₁ : wdtOff WDTCPU0_CTRLA WDTCPU0_CTRLB c = c₁ at hcpu
  have hsys : Wrote l.Writable c₁ (wdtOff WDTSYS_CTRLA WDTSYS_CTRLB c₁) :=
    wdtOff_wrote (.inl (.inr (.inr (.inl rfl)))) (.inl (.inr (.inr (.inr rfl)))) c₁
  have hcsfr₂ : (wdtOff WDTSYS_CTRLA WDTSYS_CTRLB c₁).csfr = c.csfr := by
    rw [← hc₁]
    rfl
  generalize hc₂ : wdtOff WDTSYS_CTRLA WDTSYS_CTRLB c₁ = c₂ at hsys hcsfr₂
  obtain ⟨hlinked, hothers, hlist⟩ := buildCsa_run h.csa c₂
  generalize hc₃ : buildCsa l.csaBegin l.csaEnd c₂ = c₃ at hlinked hothers hlist
  have hroom := h.image
  obtain ⟨c₄, hcopy, hcsfr₄, hwrote₄, hcopied⟩ :=
    copyData_run l.dataEnd l.dataWords l.dataLoad l.dataStart c₃ hdata (by omega) (by
      intro x hx hx' hsx
      rw [← himage]
      exact h.image_data x hx hx' hsx)
  obtain ⟨c₅, hclear, hcsfr₅, hwrote₅, hzero⟩ :=
    clearBss_run l.bssEnd l.bssWords l.bssStart c₄ hbss
  have hwrote : Wrote l.Writable c c₅ :=
    hcpu.trans (hsys.trans ((hlist.mono fun _ ha => .inr (.inl ha)).trans
      ((hwrote₄.mono fun _ ha => .inr (.inr (.inl ha))).trans
        (hwrote₅.mono fun _ ha => .inr (.inr (.inr ha))))))
  refine ⟨c₅, fun fuel hfuel => ?_, ?_, ⟨fun k hk => ?_, hzero, ?_, ?_, fun id hid hid' => ?_⟩⟩
  · have hdataEnd := l.dataEnd.toNat_lt
    have hbssEnd := l.bssEnd.toNat_lt
    simp only [cstart, hc₁, hc₂, hc₃, hcopy fuel (by omega), Option.bind_eq_bind,
      Option.bind_some]
    exact hclear fuel (by omega)
  · have hcopied₄ : Linked l.csaBegin.toNat l.areas c₄ := by
      apply hlinked.frame hwrote₄ hcsfr₄ (by rw [← Layout.areas]; omega)
      intro a ha x hx hx'
      rw [← Layout.areas] at hx'
      obtain ⟨hlo, hhi⟩ := wordsFrom_within ha
      exact h.data_csa.byte hlo (by omega) hx (by omega)
    apply hcopied₄.frame hwrote₅ hcsfr₅ (by omega)
    intro a ha x hx hx'
    obtain ⟨hlo, hhi⟩ := wordsFrom_within ha
    exact h.bss_csa.byte hlo (by omega) hx (by omega)
  · have hdest : loadWord c₅.mem (l.dataStart.toNat + 4 * k) =
        loadWord c₄.mem (l.dataStart.toNat + 4 * k) := by
      apply hwrote₅.word
      intro a ha
      obtain ⟨hlo, hhi⟩ := wordsFrom_within ha
      have := h.data_bss.words (a := l.dataStart.toNat + 4 * k) (x := a) (by omega) (by omega)
        hlo (by omega)
      omega
    have hsource : loadWord c₅.mem (l.dataLoad.toNat + 4 * k) =
        loadWord c₃.mem (l.dataLoad.toNat + 4 * k) := by
      rw [hwrote₅.word, hwrote₄.word]
      · intro a ha
        obtain ⟨hlo, hhi⟩ := wordsFrom_within ha
        exact h.image_data.words hlo (by omega) (by omega) (by omega)
      · intro a ha
        obtain ⟨hlo, hhi⟩ := wordsFrom_within ha
        exact h.image_bss.words hlo (by omega) (by omega) (by omega)
    rw [hdest, hsource, hcopied k hk]
  · intro x hx hx' hwatch
    apply hwrote.mem
    intro a ha
    exact (h.image_kept ha hx hx').elim (hwatch a) id
  · exact hwrote
  · rw [hcsfr₅, hcsfr₄, hothers id hid hid', hcsfr₂]

end

/-- What `_cstart` leaves when it calls `main`. -/
structure Started (l : Layout) (c c' : Core) : Prop where
  csa : CsaList l.csaBegin.toNat l.areas c'
  memory : Initialised l c c'

/-- The number of areas of a secondary core. -/
def secAreas : Nat := areas SEC_CSA_BEGIN SEC_CSA_END

/-- What `core_cstart` leaves at the first call. -/
structure SecondaryStarted (c c' : Core) : Prop where
  csa : CsaList SEC_CSA_BEGIN.toNat secAreas c'
  wrote : Wrote (WordsFrom SEC_CSA_BEGIN.toNat secAreas 64) c c'
  others : ∀ id, id ≠ CPU_FCX → id ≠ CPU_LCX → c'.csfr id = c.csfr id

theorem coreCstart_run (entries : UInt32) (c : Core) :
    SecondaryStarted c (coreCstart entries c).2 := by
  obtain ⟨hlinked, hothers, hwrote⟩ :=
    buildCsa_run (b := SEC_CSA_BEGIN) (e := SEC_CSA_END) (by decide) c
  exact ⟨hlinked.csaList (by decide) (by decide) (by decide) (by decide) (by decide),
    hwrote, hothers⟩

/-- The startup of the first core, for a list that does not start at address 0, and of a
secondary core. -/
theorem startup (l : Layout) (h : l.Fits) (hpos : 0 < l.csaBegin.toNat) (c d : Core)
    (entries : UInt32) :
    (∃ c', (∀ fuel, 2 ^ 30 ≤ fuel → cstart fuel l c = some c') ∧ Started l c c') ∧
      SecondaryStarted d (coreCstart entries d).2 := by
  obtain ⟨c', hrun, hlinked, hmemory⟩ := cstart_run h c
  obtain ⟨hthree, hareas⟩ := h.areas_fit
  have hseg := h.csa_segment
  have hcsa := hlinked.csaList hthree hpos h.csa_aligned l.csaBegin.toNat_lt (by omega)
  exact ⟨⟨c', hrun, hcsa, hmemory⟩, coreCstart_run entries d⟩

/-- A program with three areas, one word of `.data` and one of `.bss`. -/
def smallLayout (csaBegin csaEnd : UInt32) : Layout where
  csaBegin := csaBegin
  csaEnd := csaEnd
  dataLoad := 0x70100000
  dataStart := 0x70000000
  dataEnd := 0x70000004
  bssStart := 0x70000004
  bssEnd := 0x70000008

def resetCore : Core := ⟨fun _ => 0, fun _ => 0, []⟩

theorem smallLayout_fits (b : UInt32) (h : b = 0 ∨ b = 0x70000040) :
    (smallLayout b (b + 192)).Fits := by
  rcases h with rfl | rfl
  all_goals
    constructor
    all_goals
      simp [smallLayout, Apart]
      try omega

theorem startup_small :
    (∃ c', (∀ fuel, 2 ^ 30 ≤ fuel →
        cstart fuel (smallLayout 0x70000040 0x70000100) resetCore = some c') ∧
      Started (smallLayout 0x70000040 0x70000100) resetCore c') ∧
      SecondaryStarted resetCore (coreCstart 0 resetCore).2 :=
  startup (smallLayout 0x70000040 0x70000100) (smallLayout_fits 0x70000040 (.inr rfl)) (by decide)
    resetCore resetCore 0

/-- A list that starts at address 0 has 0 in FCX, which ends it there. -/
theorem startup_at_zero :
    (smallLayout 0 192).Fits ∧ ∃ c', cstart (2 ^ 30) (smallLayout 0 192) resetCore = some c' ∧
      ¬ Started (smallLayout 0 192) resetCore c' := by
  have hfits := smallLayout_fits 0 (.inl rfl)
  obtain ⟨c', hrun, hlinked, -⟩ := cstart_run hfits resetCore
  refine ⟨hfits, c', hrun _ (Nat.le_refl _), fun h => ?_⟩
  have hlist := h.csa.list
  rw [hlinked.fcx] at hlist
  exact hlist.1 rfl

end OpenTricore.Startup
