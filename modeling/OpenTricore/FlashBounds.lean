import OpenTricore.FlashImage

/-! The bounds of the flash buffer. `flashTraced` is `flash_write` with the places its loop
touches, and is the model's `flashWrite` without them. The invariant is that the capacity
is a power of two, at most `2 ^ 63`; a packet keeps to the buffer exactly when its data
end at an offset that such a capacity holds. -/

namespace OpenTricore.FlashBounds
open Lib Lib.Prog

/-! ## The loop with its accesses -/

/-- `reads` are indices into the packet, `stores` indices into `g_fbuf`. -/
structure Copy where
  w : UInt64
  fbuf : Nat → UInt8
  reads : List Nat
  stores : List Nat

/-- `g_fbuf[w++] = b`, after reading `reads`. -/
def Copy.put (c : Copy) (reads : List Nat) (b : UInt8) : Copy where
  w := c.w + 1
  fbuf := fun i => if i = c.w.toNat then b else c.fbuf i
  reads := c.reads ++ reads
  stores := c.stores ++ [c.w.toNat]

/-- The `for` loop, with the rounds allowed. `at0` is the index of `d` in the packet. -/
def copyLoop (at0 : Nat) (d : List UInt8) (dlen : Nat) : Nat → Nat → Copy → Copy
  | 0, _, c => c
  | n + 1, i, c =>
    if i < dlen then
      if d.getD i 0 = 0x7d then
        copyLoop at0 d dlen n (i + 2)
          (c.put [at0 + i, at0 + (i + 1)] (d.getD (i + 1) 0 ^^^ 0x20))
      else copyLoop at0 d dlen n (i + 1) (c.put [at0 + i] (d.getD i 0))
    else c

structure Traced where
  rc : Int
  buf : FlashBuf
  reads : List Nat
  stores : List Nat

/-- The address, the payload and its length. -/
def header (p : List UInt8) (n : Int) : Option (UInt64 × List UInt8 × Int) :=
  match strchr 58 p with
  | none => none
  | some c1 =>
    match strchr 58 (c1.drop 1) with
    | none => none
    | some c2 =>
      let d := c2.drop 1
      some (strtoull (c1.drop 1), d, n - (p.length - d.length : Int))

/-- The loop, and the new length. -/
def written (b : FlashBuf) (at0 : Nat) (addr : UInt64) (d : List UInt8) (dlen : Nat)
    (cap : UInt64) (f : Nat → UInt8) : Traced :=
  let c := copyLoop at0 d dlen dlen 0 ⟨addr - b.fbase, f, [], []⟩
  ⟨0, ⟨some c.fbuf, b.fbase, cap, if c.w > b.flen then c.w else b.flen⟩, c.reads, c.stores⟩

/-- What follows the header. -/
def storeTraced (b : FlashBuf) (at0 : Nat) (addr : UInt64) (d : List UInt8) (dlen : Int) :
    Option Traced :=
  if dlen < 0 then some ⟨-1, b, [], []⟩
  else
    let (b, f) := b.opened addr
    if addr < b.fbase then some ⟨-1, b, [], []⟩
    else
      let off := addr - b.fbase
      (ensureCap (off + UInt64.ofNat dlen.toNat) b.fcap f).map fun (cap, f) =>
        written b at0 addr d dlen.toNat cap f

/-- `flash_write`. -/
def flashTraced (b : FlashBuf) (p : List UInt8) (n : Int) : Option Traced :=
  match header p n with
  | none => some ⟨-1, b, [], []⟩
  | some (addr, d, dlen) => storeTraced b (p.length - d.length) addr d dlen

theorem getD_drop (d : List UInt8) (i j : Nat) : (d.drop i).getD j 0 = d.getD (i + j) 0 := by
  rw [List.getD_eq_getElem?_getD, List.getD_eq_getElem?_getD, List.getElem?_drop]

theorem unescape_escape (n : Nat) (d : List UInt8) (h : d.getD 0 0 = 0x7d) :
    unescape (n + 1) d = (d.getD 1 0 ^^^ 0x20) :: unescape (n - 1) (d.drop 2) := by
  cases n with
  | zero => exact if_pos h
  | succ n => exact if_pos h

theorem unescape_byte (n : Nat) (d : List UInt8) (h : d.getD 0 0 ≠ 0x7d) :
    unescape (n + 1) d = d.getD 0 0 :: unescape n (d.drop 1) := by
  cases n with
  | zero => exact if_neg h
  | succ n => exact if_neg h

/-- What the loop leaves. -/
structure Copied (at0 : Nat) (dlen : Nat) (bs : List UInt8) (c c' : Copy) : Prop where
  stored : (c'.w, c'.fbuf) = storeBytes bs c.w c.fbuf
  stores : c'.stores = c.stores ++ (List.range bs.length).map fun j => (c.w + UInt64.ofNat j).toNat
  reads : ∀ r ∈ c'.reads, r ∈ c.reads ∨ r ≤ at0 + dlen

theorem Copied.put {at0 dlen : Nat} {bs : List UInt8} {c c' : Copy} {reads : List Nat} {b : UInt8}
    (hr : ∀ r ∈ reads, r ≤ at0 + dlen) (h : Copied at0 dlen bs (c.put reads b) c') :
    Copied at0 dlen (b :: bs) c c' := by
  refine ⟨h.stored, ?_, fun r hmem => ?_⟩
  · rw [h.stores, List.length_cons, List.range_succ_eq_map, List.map_cons, List.map_map]
    simp only [Copy.put, List.append_assoc, List.singleton_append]
    congr 2
    · simp
    · apply List.map_congr_left
      intro j _
      simp only [Function.comp_apply, Nat.succ_eq_add_one]
      rw [UInt64.ofNat_add, UInt64.add_assoc, UInt64.add_comm 1]
      rfl
  · rcases h.reads r hmem with hold | hnew
    · rcases List.mem_append.mp hold with hold | hnow
      · exact .inl hold
      · exact .inr (hr r hnow)
    · exact .inr hnew

theorem copyLoop_copied (at0 : Nat) (d : List UInt8) (dlen n i : Nat) (c : Copy)
    (hn : dlen ≤ i + n) :
    Copied at0 dlen (unescape (dlen - i) (d.drop i)) c (copyLoop at0 d dlen n i c) := by
  induction n generalizing i c with
  | zero =>
    rw [Nat.sub_eq_zero_of_le (show dlen ≤ i from hn)]
    exact ⟨rfl, (List.append_nil _).symm, fun r hr => .inl hr⟩
  | succ n ih =>
    rw [copyLoop]
    by_cases hi : i < dlen
    · obtain ⟨k, hk⟩ := Nat.exists_eq_add_one.mpr (Nat.sub_pos_of_lt hi)
      rw [if_pos hi, hk]
      by_cases hb : d.getD i 0 = 0x7d
      · have hrest : unescape (k - 1) (List.drop 2 (d.drop i)) =
            unescape (dlen - (i + 2)) (d.drop (i + 2)) := by
          rw [List.drop_drop, show k - 1 = dlen - (i + 2) by omega]
        rw [if_pos hb, unescape_escape k _ (by rw [getD_drop]; exact hb), getD_drop, hrest]
        refine (ih (i + 2) _ (by omega)).put fun r hr => ?_
        simp at hr
        omega
      · have hrest : unescape k (List.drop 1 (d.drop i)) =
            unescape (dlen - (i + 1)) (d.drop (i + 1)) := by
          rw [List.drop_drop, show k = dlen - (i + 1) by omega]
        rw [if_neg hb, unescape_byte k _ (by rw [getD_drop]; exact hb), getD_drop, hrest]
        refine (ih (i + 1) _ (by omega)).put fun r hr => ?_
        simp at hr
        omega
    · rw [if_neg hi, Nat.sub_eq_zero_of_le (Nat.le_of_not_lt hi)]
      exact ⟨rfl, (List.append_nil _).symm, fun r hr => .inl hr⟩

theorem storeTraced_store (b : FlashBuf) (at0 : Nat) (addr : UInt64) (d : List UInt8)
    (dlen : Int) :
    flashStore b addr d dlen = (storeTraced b at0 addr d dlen).map fun t => (t.rc, t.buf) := by
  rw [flashStore, storeTraced]
  by_cases hneg : dlen < 0
  · rw [if_pos hneg, if_pos hneg]
    rfl
  · rw [if_neg hneg, if_neg hneg]
    dsimp only
    by_cases hbelow : addr < (b.opened addr).1.fbase
    · rw [if_pos hbelow, if_pos hbelow]
      rfl
    · rw [if_neg hbelow, if_neg hbelow, Option.map_map]
      congr 1
      funext x
      have hcopied := (copyLoop_copied at0 d dlen.toNat dlen.toNat 0
        ⟨addr - (b.opened addr).1.fbase, x.2, [], []⟩ (by omega)).stored
      rw [Nat.sub_zero, List.drop_zero] at hcopied
      simp only [Function.comp_apply, ← hcopied, written]

/-- The traced function is the function. -/
theorem flashTraced_write (b : FlashBuf) (p : List UInt8) (n : Int) :
    flashWrite b p n = (flashTraced b p n).map fun t => (t.rc, t.buf) := by
  rw [flashWrite, flashTraced, header]
  cases strchr 58 p with
  | none => rfl
  | some c1 =>
    dsimp only
    cases strchr 58 (c1.drop 1) with
    | none => rfl
    | some c2 => exact storeTraced_store b _ _ _ _

/-! ## The capacity -/

/-- Up to `2 ^ 63` the doubling ends. -/
theorem growCap_fits {need : UInt64} (hneed : need.toNat ≤ 2 ^ 63) (n j : Nat) (nc : UInt64)
    (hnc : nc.toNat = 2 ^ j) (hj : j ≤ 63) (hn : 63 ≤ j + n) :
    ∃ k nc', growCap need n nc = some nc' ∧ nc'.toNat = 2 ^ k ∧ k ≤ 63 ∧
      nc.toNat ≤ nc'.toNat ∧ need.toNat ≤ nc'.toNat := by
  induction n generalizing j nc with
  | zero =>
    obtain rfl : j = 63 := by omega
    have hge : ¬ nc < need := by
      rw [UInt64.lt_iff_toNat_lt]
      omega
    exact ⟨63, nc, by rw [growCap, if_neg hge], hnc, hj, Nat.le_refl _, by omega⟩
  | succ n ih =>
    rw [growCap]
    by_cases hlt : nc < need
    · rw [if_pos hlt]
      rw [UInt64.lt_iff_toNat_lt] at hlt
      have hj' : j ≠ 63 := by
        rintro rfl
        omega
      have hpow : 2 ^ j ≤ 2 ^ 62 := Nat.pow_le_pow_right (by decide) (by omega)
      have hdouble : (nc * 2).toNat = 2 ^ (j + 1) := by
        rw [UInt64.toNat_mul, hnc, Nat.pow_succ]
        refine Nat.mod_eq_of_lt (show 2 ^ j * (2 : UInt64).toNat < 2 ^ 64 from ?_)
        rw [show (2 : UInt64).toNat = 2 from rfl]
        omega
      obtain ⟨k, nc', hgrow, hcap, hk, hle, hroom⟩ :=
        ih (j + 1) (nc * 2) hdouble (by omega) (by omega)
      rw [Nat.pow_succ] at hdouble
      exact ⟨k, nc', hgrow, hcap, hk, by omega, hroom⟩
    · rw [if_neg hlt]
      rw [UInt64.lt_iff_toNat_lt] at hlt
      exact ⟨j, nc, rfl, hnc, hj, Nat.le_refl _, by omega⟩

theorem growCap_zero {need : UInt64} (hneed : 0 < need.toNat) (n : Nat) :
    growCap need n 0 = none := by
  have hlt : 0 < need := by
    rw [UInt64.lt_iff_toNat_lt]
    exact hneed
  induction n with
  | zero => rw [growCap, if_pos hlt]
  | succ n ih =>
    rw [growCap, if_pos hlt, show (0 : UInt64) * 2 = 0 from rfl]
    exact ih

/-- Past `2 ^ 63` the capacity becomes 0 and stays there. -/
theorem growCap_hangs {need : UInt64} (hneed : 2 ^ 63 < need.toNat) (n j : Nat) (nc : UInt64)
    (hnc : nc.toNat = 2 ^ j) (hj : j ≤ 63) : growCap need n nc = none := by
  have hpow : 2 ^ j ≤ 2 ^ 63 := Nat.pow_le_pow_right (by decide) hj
  have hlt : nc < need := by
    rw [UInt64.lt_iff_toNat_lt]
    omega
  induction n generalizing j nc with
  | zero => rw [growCap, if_pos hlt]
  | succ n ih =>
    rw [growCap, if_pos hlt]
    rcases Nat.eq_or_lt_of_le hj with rfl | hj
    · have hzero : nc * 2 = 0 := by
        rw [← UInt64.toNat_inj, UInt64.toNat_mul, hnc]
        rfl
      rw [hzero]
      exact growCap_zero (by omega) n
    · have hpow' : 2 ^ (j + 1) ≤ 2 ^ 63 := Nat.pow_le_pow_right (by decide) hj
      have hdouble : (nc * 2).toNat = 2 ^ (j + 1) := by
        rw [UInt64.toNat_mul, hnc, Nat.pow_succ]
        exact Nat.mod_eq_of_lt (Nat.lt_of_le_of_lt hpow' (by decide))
      refine ih (j + 1) (nc * 2) hdouble hj hpow' ?_
      rw [UInt64.lt_iff_toNat_lt]
      omega

/-- A capacity that the buffer can have. -/
def Cap (fcap : UInt64) : Prop := ∃ j ≤ 63, fcap.toNat = 2 ^ j

theorem Cap.le {fcap : UInt64} (h : Cap fcap) : fcap.toNat ≤ 2 ^ 63 := by
  obtain ⟨j, hj, hcap⟩ := h
  rw [hcap]
  exact Nat.pow_le_pow_right (by decide) hj

theorem ensureCap_fits {need fcap : UInt64} (hcap : Cap fcap) (hneed : need.toNat ≤ 2 ^ 63)
    (f : Nat → UInt8) : ∃ cap f', ensureCap need fcap f = some (cap, f') ∧ Cap cap ∧
      fcap.toNat ≤ cap.toNat ∧ need.toNat ≤ cap.toNat := by
  rw [ensureCap]
  by_cases hgrow : need > fcap
  · obtain ⟨j, hj, hpow⟩ := hcap
    obtain ⟨k, nc, hnc, hpow', hk, hle, hroom⟩ := growCap_fits hneed 64 j fcap hpow hj (by omega)
    rw [if_pos hgrow, hnc]
    exact ⟨nc, _, rfl, ⟨k, hk, hpow'⟩, hle, hroom⟩
  · rw [if_neg hgrow]
    rw [gt_iff_lt, UInt64.lt_iff_toNat_lt] at hgrow
    exact ⟨fcap, f, rfl, hcap, Nat.le_refl _, by omega⟩

theorem ensureCap_hangs {need fcap : UInt64} (hcap : Cap fcap) (hneed : 2 ^ 63 < need.toNat)
    (f : Nat → UInt8) : ensureCap need fcap f = none := by
  have hle := hcap.le
  have hgrow : need > fcap := by
    rw [gt_iff_lt, UInt64.lt_iff_toNat_lt]
    omega
  obtain ⟨j, hj, hpow⟩ := hcap
  rw [ensureCap, if_pos hgrow, growCap_hangs hneed 64 j fcap hpow hj]
  rfl

/-! ## One packet -/

/-- The call returns, stores below the capacity, reads no further than the terminator of
the packet, and counts no more bytes than there are. -/
def InBounds (b : FlashBuf) (p : List UInt8) (n : Int) : Prop :=
  ∃ t, flashTraced b p n = some t ∧ (∀ w ∈ t.stores, w < t.buf.fcap.toNat) ∧
    (∀ r ∈ t.reads, (r : Int) ≤ n) ∧ t.buf.flen.toNat ≤ t.buf.fcap.toNat

/-- The data that are to be stored end at an offset up to `2 ^ 63`. -/
def Fits (b : FlashBuf) (p : List UInt8) (n : Int) : Prop :=
  ∀ addr d dlen, header p n = some (addr, d, dlen) → 0 ≤ dlen →
    (b.opened addr).1.fbase ≤ addr →
    addr.toNat - (b.opened addr).1.fbase.toNat + dlen.toNat ≤ 2 ^ 63

/-- What holds of the buffer between packets. -/
structure Sane (b : FlashBuf) : Prop where
  cap : b.fbuf ≠ none → Cap b.fcap
  flen : b.flen.toNat ≤ b.fcap.toNat

theorem opened_sane {b : FlashBuf} (h : Sane b) (addr : UInt64) :
    Sane (b.opened addr).1 ∧ Cap (b.opened addr).1.fcap := by
  rw [FlashBuf.opened]
  cases hb : b.fbuf with
  | none =>
    have hcap : Cap 0x1000 := ⟨12, by omega, rfl⟩
    exact ⟨⟨fun _ => hcap, Nat.zero_le _⟩, hcap⟩
  | some f => exact ⟨h, h.cap (by rw [hb]; simp)⟩

theorem unescape_length (n : Nat) (d : List UInt8) : (unescape n d).length ≤ n := by
  fun_induction unescape n d with
  | case1 => exact Nat.le_refl _
  | case2 => exact Nat.le_refl _
  | case3 => exact Nat.le_refl _
  | case4 n d _ ih =>
    rw [List.length_cons]
    omega
  | case5 n d _ ih =>
    rw [List.length_cons]
    omega

theorem unescape_pos {n : Nat} (hn : 0 < n) (d : List UInt8) : 0 < (unescape n d).length := by
  obtain ⟨n, rfl⟩ := Nat.exists_eq_add_one.mpr hn
  by_cases h : d.getD 0 0 = 0x7d
  · rw [unescape_escape n d h]
    exact Nat.succ_pos _
  · rw [unescape_byte n d h]
    exact Nat.succ_pos _

section
variable {b : FlashBuf} {at0 : Nat} {addr : UInt64} {d : List UInt8} {dlen : Int}

theorem off_toNat (hbase : (b.opened addr).1.fbase ≤ addr) :
    (addr - (b.opened addr).1.fbase).toNat = addr.toNat - (b.opened addr).1.fbase.toNat :=
  UInt64.toNat_sub_of_le _ _ hbase

theorem storeTraced_refused (at0 : Nat) (h : 0 ≤ dlen → ¬ (b.opened addr).1.fbase ≤ addr) :
    storeTraced b at0 addr d dlen = some ⟨-1, b, [], []⟩ ∨
      storeTraced b at0 addr d dlen = some ⟨-1, (b.opened addr).1, [], []⟩ := by
  rw [storeTraced]
  by_cases hneg : dlen < 0
  · exact .inl (if_pos hneg)
  · have hbelow : addr < (b.opened addr).1.fbase := UInt64.not_le.mp (h (by omega))
    rw [if_neg hneg]
    dsimp only
    exact .inr (if_pos hbelow)

theorem storeTraced_accepted (hpos : 0 ≤ dlen) (hbase : (b.opened addr).1.fbase ≤ addr) :
    storeTraced b at0 addr d dlen =
      (ensureCap (addr - (b.opened addr).1.fbase + UInt64.ofNat dlen.toNat)
        (b.opened addr).1.fcap (b.opened addr).2).map fun x =>
          written (b.opened addr).1 at0 addr d dlen.toNat x.1 x.2 := by
  rw [storeTraced, if_neg (by omega)]
  dsimp only
  rw [if_neg (UInt64.not_lt.mpr hbase)]

theorem written_copied (b : FlashBuf) (at0 : Nat) (addr : UInt64) (d : List UInt8) (dlen : Nat)
    (cap : UInt64) (f : Nat → UInt8) :
    (written b at0 addr d dlen cap f).stores =
        ((List.range (unescape dlen d).length).map fun j =>
          (addr - b.fbase + UInt64.ofNat j).toNat) ∧
      (∀ r ∈ (written b at0 addr d dlen cap f).reads, r ≤ at0 + dlen) ∧
      (written b at0 addr d dlen cap f).buf.flen =
        (let w := (storeBytes (unescape dlen d) (addr - b.fbase) f).1
         if w > b.flen then w else b.flen) := by
  have h := copyLoop_copied at0 d dlen dlen 0 ⟨addr - b.fbase, f, [], []⟩ (Nat.le_add_left ..)
  rw [Nat.sub_zero, List.drop_zero] at h
  refine ⟨h.stores, fun r hr => ?_, ?_⟩
  · exact (h.reads r hr).elim (fun hnil => by cases hnil) id
  · rw [← h.stored]
    rfl

theorem storeTraced_fits (at0 : Nat) (hs : Sane b) (hpos : 0 ≤ dlen)
    (hbase : (b.opened addr).1.fbase ≤ addr)
    (hfit : addr.toNat - (b.opened addr).1.fbase.toNat + dlen.toNat ≤ 2 ^ 63) :
    ∃ t, storeTraced b at0 addr d dlen = some t ∧ (∀ w ∈ t.stores, w < t.buf.fcap.toNat) ∧
      (∀ r ∈ t.reads, r ≤ at0 + dlen.toNat) ∧ Sane t.buf := by
  obtain ⟨hopened, hcap⟩ := opened_sane hs addr
  have hoff := off_toNat hbase
  have hneed : (addr - (b.opened addr).1.fbase + UInt64.ofNat dlen.toNat).toNat =
      addr.toNat - (b.opened addr).1.fbase.toNat + dlen.toNat := by
    rw [UInt64.toNat_add, hoff, UInt64.toNat_ofNat']
    omega
  rw [← hneed] at hfit
  obtain ⟨cap, f, hensure, hcap', hle, hroom⟩ := ensureCap_fits hcap hfit (b.opened addr).2
  obtain ⟨hstores, hreads, hflen⟩ := written_copied (b.opened addr).1 at0 addr d dlen.toNat cap f
  have hlen := unescape_length dlen.toNat d
  have htop := hcap'.le
  refine ⟨written (b.opened addr).1 at0 addr d dlen.toNat cap f, ?_, fun w hw => ?_, hreads,
    ⟨fun _ => hcap', ?_⟩⟩
  · rw [storeTraced_accepted hpos hbase, hensure]
    rfl
  · rw [hstores, List.mem_map] at hw
    obtain ⟨j, hj, rfl⟩ := hw
    rw [List.mem_range] at hj
    rw [UInt64.toNat_add, hoff, UInt64.toNat_ofNat']
    change _ < cap.toNat
    omega
  · have hbound := (storeBytes_eq (unescape dlen.toNat d) (addr - (b.opened addr).1.fbase) f
      (by omega)).1
    have hold := hopened.flen
    rw [hflen]
    change _ ≤ cap.toNat
    dsimp only
    split
    · omega
    · omega

/-- A packet past the limit is never done, or stores behind the buffer. -/
theorem storeTraced_overruns (hs : Sane b) (hpos : 0 ≤ dlen) (hint : dlen < 2 ^ 31)
    (hbase : (b.opened addr).1.fbase ≤ addr)
    (hover : 2 ^ 63 < addr.toNat - (b.opened addr).1.fbase.toNat + dlen.toNat) :
    ∀ t, storeTraced b at0 addr d dlen = some t → ∃ w ∈ t.stores, t.buf.fcap.toNat ≤ w := by
  obtain ⟨hopened, hcap⟩ := opened_sane hs addr
  have hoff := off_toNat hbase
  have haddr := addr.toNat_lt
  have hneed : (addr - (b.opened addr).1.fbase + UInt64.ofNat dlen.toNat).toNat =
      (addr.toNat - (b.opened addr).1.fbase.toNat + dlen.toNat) % 2 ^ 64 := by
    rw [UInt64.toNat_add, hoff, UInt64.toNat_ofNat']
    omega
  intro t ht
  rw [storeTraced_accepted hpos hbase] at ht
  rcases Nat.lt_or_ge (2 ^ 63)
    (addr - (b.opened addr).1.fbase + UInt64.ofNat dlen.toNat).toNat with hlarge | hwraps
  · rw [ensureCap_hangs hcap hlarge] at ht
    cases ht
  · obtain ⟨cap, f, hensure, hcap', -, -⟩ := ensureCap_fits hcap hwraps (b.opened addr).2
    rw [hensure, Option.map_some, Option.some.injEq] at ht
    subst ht
    obtain ⟨hstores, -, -⟩ := written_copied (b.opened addr).1 at0 addr d dlen.toNat cap f
    have hfirst : 0 < (unescape dlen.toNat d).length := unescape_pos (by omega) d
    have htop := hcap'.le
    refine ⟨(addr - (b.opened addr).1.fbase).toNat, ?_, ?_⟩
    · rw [hstores, List.mem_map]
      exact ⟨0, List.mem_range.mpr hfirst,
        by rw [show UInt64.ofNat 0 = 0 from rfl, UInt64.add_zero]⟩
    · change cap.toNat ≤ _
      omega

end

theorem header_length {p d : List UInt8} {n dlen : Int} {addr : UInt64}
    (h : header p n = some (addr, d, dlen)) :
    d.length ≤ p.length ∧ dlen = n - (p.length - d.length : Int) := by
  rw [header] at h
  split at h
  · cases h
  · rename_i c1 hc1
    split at h
    · cases h
    · rename_i c2 hc2
      have h1 := strchr_length hc1
      have h2 := strchr_length hc2
      rw [List.length_drop] at h2
      dsimp only at h
      cases h
      rw [List.length_drop]
      exact ⟨by omega, rfl⟩

/-- A packet that fits keeps to the buffer, and leaves it as it should be. -/
theorem inBounds_of_fits {b : FlashBuf} (hs : Sane b) {p : List UInt8} {n : Int}
    (hfit : Fits b p n) :
    ∃ t, flashTraced b p n = some t ∧ (∀ w ∈ t.stores, w < t.buf.fcap.toNat) ∧
      (∀ r ∈ t.reads, (r : Int) ≤ n) ∧ Sane t.buf := by
  rw [flashTraced]
  cases hheader : header p n with
  | none => exact ⟨_, rfl, List.forall_mem_nil _, List.forall_mem_nil _, hs⟩
  | some x =>
    obtain ⟨addr, d, dlen⟩ := x
    obtain ⟨hlen, hdlen⟩ := header_length hheader
    dsimp only
    by_cases haccepted : 0 ≤ dlen ∧ (b.opened addr).1.fbase ≤ addr
    · obtain ⟨hpos, hbase⟩ := haccepted
      obtain ⟨t, ht, hstores, hreads, hsane⟩ :=
        storeTraced_fits (p.length - d.length) hs hpos hbase
          (hfit addr d dlen hheader hpos hbase)
      refine ⟨t, ht, hstores, fun r hr => ?_, hsane⟩
      have := hreads r hr
      omega
    · rcases storeTraced_refused (p.length - d.length) (d := d)
        (fun hpos hbase => haccepted ⟨hpos, hbase⟩) with ht | ht
      · exact ⟨_, ht, List.forall_mem_nil _, List.forall_mem_nil _, hs⟩
      · exact ⟨_, ht, List.forall_mem_nil _, List.forall_mem_nil _, (opened_sane hs addr).1⟩

theorem inBounds_iff {b : FlashBuf} (hs : Sane b) (p : List UInt8) {n : Int} (hint : n < 2 ^ 31) :
    InBounds b p n ↔ Fits b p n := by
  constructor
  · rintro ⟨t, ht, hstores, -, -⟩ addr d dlen hheader hpos hbase
    obtain ⟨hlen, hdlen⟩ := header_length hheader
    by_contra hover
    rw [flashTraced, hheader] at ht
    obtain ⟨w, hw, hcap⟩ :=
      storeTraced_overruns hs hpos (by omega) hbase (Nat.lt_of_not_le hover) t ht
    exact absurd (hstores w hw) (Nat.not_lt.mpr hcap)
  · intro hfit
    obtain ⟨t, ht, hstores, hreads, hsane⟩ := inBounds_of_fits hs hfit
    exact ⟨t, ht, hstores, hreads, hsane.flen⟩

/-! ## Runs -/

inductive Command
  | write (rest stale : List UInt8)
  | done (stale : List UInt8)

def Command.packet : Command → Packet
  | .write rest stale => ⟨bytes "vFlashWrite:" ++ rest, stale⟩
  | .done stale => donePacket stale

/-- A write fits the buffer. -/
def Command.Fits (b : FlashBuf) (cmd : Command) : Prop :=
  match cmd with
  | .write _ _ => FlashBounds.Fits b cmd.packet.buf cmd.packet.payload.length
  | .done _ => True

/-- The states that `vFlashWrite` and `vFlashDone` packets lead to, whatever the target
answers, while each write fits. -/
inductive Reached (polls : Nat) : Stub → Prop
  | start {s : Stub} (h : s.flash = .empty) : Reached polls s
  | step {s s' : Stub} (cmd : Command) (h : Reached polls s) (hfit : cmd.Fits s.flash)
      (hrun : Runs everything (dispatchPacket polls s cmd.packet) () (.ok (some s')) ()) :
      Reached polls s'

theorem dispatch_vFlashWrite (polls : Nat) (s : Stub) (rest stale : List UInt8) :
    dispatchPacket polls s (Command.write rest stale).packet =
      (vFlashWrite s (Command.write rest stale).packet.buf
          (Command.write rest stale).packet.payload.length >>= fun s => return some s) := by
  rw [dispatchPacket, dispatch_v polls s _ _ rfl]
  rfl

theorem sane_empty : Sane .empty := ⟨fun h => absurd rfl h, Nat.le_refl _⟩

theorem asks_write {s : Stub} (hs : Sane s.flash) {p : List UInt8} {n : Int}
    (hfit : FlashBounds.Fits s.flash p n) :
    (vFlashWrite s p n).Asks (fun _ => True) fun s' => Sane s'.flash := by
  obtain ⟨t, ht, -, -, hsane⟩ := inBounds_of_fits hs hfit
  rw [vFlashWrite, flashTraced_write, ht]
  simp only [Option.map_some, asks_bind]
  exact (asks_anything _).mono fun _ _ => hsane

theorem asks_done {s : Stub} (hs : Sane s.flash) :
    (vFlashDone s).Asks (fun _ => True) fun s' => Sane s'.flash := by
  have hflash : (flashDone s.active.target s.flash).Asks (fun _ => True) fun x => Sane x.2 := by
    rw [flashDone]
    cases hb : s.flash.fbuf with
    | none => exact hs
    | some f =>
      rw [asks_bind]
      exact (asks_anything _).mono fun _ _ => ⟨fun h => absurd rfl h, Nat.le_refl _⟩
  rw [vFlashDone, asks_bind]
  apply Asks.mono (Asks.lift hflash)
  intro x hx
  rw [asks_bind]
  exact (asks_anything _).mono fun _ _ => hx

theorem reached_sane {polls : Nat} {s : Stub} (h : Reached polls s) : Sane s.flash := by
  induction h with
  | start h =>
    rw [h]
    exact sane_empty
  | @step s s' cmd _ hfit hrun ih =>
    have hasks : (dispatchPacket polls s cmd.packet).Asks (fun _ => True)
        fun x => ∀ s', x = some s' → Sane s'.flash := by
      cases cmd with
      | write rest stale =>
        rw [dispatch_vFlashWrite, asks_bind]
        apply Asks.mono (asks_write ih hfit)
        rintro s' hsane _ ⟨⟩
        exact hsane
      | done stale =>
        rw [Command.packet, dispatchPacket, dispatch_v polls s _ _ rfl,
          show handle_v polls s (donePacket stale).buf (donePacket stale).payload.length =
            vFlashDone s from rfl, asks_bind]
        apply Asks.mono (asks_done ih)
        rintro s' hsane _ ⟨⟩
        exact hsane
    exact hasks.result hrun s' rfl

/-- In every state reached by writes that fit, a further write keeps to the buffer if and
only if it fits. -/
theorem flash_in_bounds (polls : Nat) (s : Stub) (h : Reached polls s) (rest stale : List UInt8)
    (hbuf : (Command.write rest stale).packet.payload.length < BUFSZ) :
    InBounds s.flash (Command.write rest stale).packet.buf
        (Command.write rest stale).packet.payload.length ↔
      (Command.write rest stale).Fits s.flash := by
  apply inBounds_iff (reached_sane h)
  rw [BUFSZ] at hbuf
  omega

/-! ## A packet that wraps -/

/-- `vFlashWrite:0:`, which sets the base. -/
def baseWrite : Command := .write (bytes "0:") []

/-- `vFlashWrite:ffffffffffffffff:AB`. -/
def wrappingWrite : Command := .write (bytes "ffffffffffffffff:AB") []

/-- The stub after `baseWrite`. -/
def based : Stub :=
  Stub.lone.setFlash ⟨some fun i => if i < 0x1000 then 0xFF else 0, 0, 0x1000, 0⟩

theorem dispatch_baseWrite : dispatchPacket 0 .lone baseWrite.packet =
    (putPacket (bytes "OK") >>= fun _ => return some based) := by
  rw [baseWrite, dispatch_vFlashWrite]
  rfl

theorem based_reached : Reached 0 based := by
  have hfit : baseWrite.Fits Stub.lone.flash := by
    intro addr d dlen hheader hpos hbase
    have hparsed : header baseWrite.packet.buf baseWrite.packet.payload.length =
        some (0, [0], 0) := by rfl
    rw [hparsed, Option.some.injEq, Prod.mk.injEq, Prod.mk.injEq] at hheader
    obtain ⟨rfl, -, rfl⟩ := hheader
    decide
  refine .step baseWrite (.start rfl) hfit ?_
  rw [dispatch_baseWrite]
  exact .ask (r := (0 : Int)) trivial (.ret _ _)

/-- `vFlashWrite:1800:AB`, behind the end of the buffer. -/
def growingWrite : Command := .write (bytes "1800:AB") []

theorem flash_in_bounds_growing :
    InBounds based.flash growingWrite.packet.buf growingWrite.packet.payload.length ∧
      growingWrite.Fits based.flash := by
  have hfit : growingWrite.Fits based.flash := by
    intro addr d dlen hheader hpos hbase
    have hparsed : header growingWrite.packet.buf growingWrite.packet.payload.length =
        some (0x1800, [65, 66, 0], 2) := by rfl
    rw [hparsed, Option.some.injEq, Prod.mk.injEq, Prod.mk.injEq] at hheader
    obtain ⟨rfl, -, rfl⟩ := hheader
    decide
  exact ⟨(flash_in_bounds 0 based based_reached (bytes "1800:AB") [] (by decide)).mpr hfit, hfit⟩

/-- The sum of offset and length is 1, so nothing grows, and the first byte goes to
`g_fbuf[2 ^ 64 - 1]`. -/
theorem wrapped_write_overruns :
    ∃ s, Reached 0 s ∧
      ¬ InBounds s.flash wrappingWrite.packet.buf wrappingWrite.packet.payload.length := by
  refine ⟨based, based_reached, ?_⟩
  intro h
  have hparsed : header wrappingWrite.packet.buf wrappingWrite.packet.payload.length =
      some (0xffffffffffffffff, [65, 66, 0], 2) := by rfl
  have hfit := (inBounds_iff (reached_sane based_reached) _ (by decide)).mp h
  exact absurd (hfit _ _ _ hparsed (by decide) (by decide)) (by decide)

end OpenTricore.FlashBounds
