import OpenTricore.Stub
import Mathlib.Data.List.Nodup

/-! The register map of a core, `reg_name_match` and `build_regmap` of
`tools/tc-gdbserver/main.c`. The scan over the register groups is specified by the first
entry whose name matches (`buildRegmap_reg`); a name matches one register number at most
(`regNameMatch_functional`), so no address gets two of them (`build_maps_once`). -/

namespace OpenTricore
open Lib

/-! ## Names -/

/-- `%d`. -/
def printDec (n : Nat) : List UInt8 := (Nat.toDigits 10 n).map fun c => c.toNat.toUInt8

/-- The 12 core registers after the d and a GPRs, in GDB order. -/
def sfrNames : List (List UInt8) :=
  [bytes "lcx", bytes "fcx", bytes "pcx", bytes "psw", bytes "pc", bytes "icr", bytes "isp",
    bytes "btv", bytes "biv", bytes "syscon", bytes "pcon0", bytes "dcon0"]

/-- The aliases where the spellings differ. -/
def sfrAlias : List (Option (List UInt8)) :=
  [none, none, some (bytes "pcxi"), none, none, none, none, none, none, none,
    some (bytes "pmucon0"), some (bytes "dmucon")]

def sfrAlias2 : List (Option (List UInt8)) :=
  [none, none, none, none, none, none, none, none, none, none,
    some (bytes "pmu0con"), some (bytes "dmu0con")]

/-- Does an MCD register name correspond to GDB register index `idx`? -/
def regNameMatch (mcd : List UInt8) (idx : Nat) : Bool :=
  if idx < 16 then strcasecmpEq mcd (bytes "d" ++ printDec idx)
  else if idx < 32 then strcasecmpEq mcd (bytes "a" ++ printDec (idx - 16))
  else
    let s := idx - 32
    strcasecmpEq mcd (sfrNames.getD s []) ||
      (sfrAlias.getD s none).any (strcasecmpEq mcd) ||
      (sfrAlias2.getD s none).any (strcasecmpEq mcd)

/-- The names that are looked for. -/
def regNames (idx : Nat) : List (List UInt8) :=
  if idx < 16 then [bytes "d" ++ printDec idx]
  else if idx < 32 then [bytes "a" ++ printDec (idx - 16)]
  else sfrNames.getD (idx - 32) [] ::
    ((sfrAlias.getD (idx - 32) none).toList ++ (sfrAlias2.getD (idx - 32) none).toList)

theorem regNameMatch_names {mcd : List UInt8} {idx : Nat} (h : regNameMatch mcd idx = true) :
    ∃ name ∈ regNames idx, strcasecmpEq mcd name = true := by
  by_cases hd : idx < 16
  · rw [regNameMatch, if_pos hd] at h
    rw [regNames, if_pos hd]
    exact ⟨_, List.mem_singleton_self _, h⟩
  · rw [regNameMatch, if_neg hd] at h
    rw [regNames, if_neg hd]
    by_cases ha : idx < 32
    · rw [if_pos ha] at h ⊢
      exact ⟨_, List.mem_singleton_self _, h⟩
    · rw [if_neg ha] at h ⊢
      simp only [Bool.or_eq_true, Option.any_eq_true] at h
      rcases h with (h | ⟨name, hname, h⟩) | ⟨name, hname, h⟩
      · exact ⟨_, List.mem_cons_self, h⟩
      · exact ⟨name, List.mem_cons_of_mem _ (List.mem_append_left _ (Option.mem_toList.mpr hname)),
          h⟩
      · exact ⟨name, List.mem_cons_of_mem _ (List.mem_append_right _ (Option.mem_toList.mpr hname)),
          h⟩

/-- Every name with its number. -/
def namedRegs : List (List UInt8 × Fin NREG) :=
  (List.finRange NREG).flatMap fun i : Fin NREG => (regNames i).map fun name => (name, i)

theorem namedRegs_functional :
    ∀ x ∈ namedRegs, (0 : UInt8) ∉ x.1.map tolower ∧
      ∀ y ∈ namedRegs, x.1.map tolower = y.1.map tolower → x.2 = y.2 := by
  decide +kernel

theorem regNameMatch_named {mcd : List UInt8} {i : Fin NREG} (h : regNameMatch mcd i = true) :
    ∃ name, (name, i) ∈ namedRegs ∧ strcasecmpEq mcd name = true := by
  obtain ⟨name, hname, hmatch⟩ := regNameMatch_names h
  exact ⟨name, List.mem_flatMap.mpr ⟨i, List.mem_finRange i, List.mem_map_of_mem hname⟩, hmatch⟩

/-- An MCD name corresponds to one GDB register at most. -/
theorem regNameMatch_functional {mcd : List UInt8} {i j : Fin NREG}
    (hi : regNameMatch mcd i = true) (hj : regNameMatch mcd j = true) : i = j := by
  obtain ⟨name, hmem, hmatch⟩ := regNameMatch_named hi
  obtain ⟨name', hmem', hmatch'⟩ := regNameMatch_named hj
  obtain ⟨hclean, hfun⟩ := namedRegs_functional _ hmem
  have hclean' := (namedRegs_functional _ hmem').1
  exact hfun _ hmem' (strcmpEq_unique hmatch hmatch' hclean hclean')

/-! ## The map -/

/-- An `mcd_register_info_st`, with the fields the stub reads. -/
structure RegInfo where
  regname : List UInt8
  addr : McdAddr

/-- The address of a register, if it is available. -/
def CoreMap.reg (m : CoreMap) (i : Fin NREG) : Option McdAddr :=
  if m.regok i then some (m.rega i) else none

/-- `rega[idx] = a; regok[idx] = 1`. -/
def CoreMap.setReg (m : CoreMap) (idx : Fin NREG) (a : McdAddr) : CoreMap where
  target := m.target
  rega i := if i = idx then a else m.rega i
  regok i := if i = idx then true else m.regok i

/-- One register of a group, held against every GDB register. -/
def mapEntry (m : CoreMap) (ri : RegInfo) : CoreMap :=
  (List.finRange NREG).foldl (fun m idx =>
    if !m.regok idx && regNameMatch ri.regname idx then m.setReg idx ri.addr else m) m

/-- Build the register map for one core, from the groups that MCD enumerates. -/
def buildRegmap (target : Target) (groups : List (List RegInfo)) : CoreMap :=
  groups.foldl (fun m grp => grp.foldl mapEntry m) ⟨target, fun _ => ⟨0, 0⟩, fun _ => false⟩

theorem reg_setReg (m : CoreMap) (idx : Fin NREG) (a : McdAddr) (i : Fin NREG) :
    (m.setReg idx a).reg i = if i = idx then some a else m.reg i := by
  by_cases h : i = idx <;> simp [CoreMap.reg, CoreMap.setReg, h]

theorem reg_none {m : CoreMap} {i : Fin NREG} : m.reg i = none ↔ m.regok i = false := by
  cases h : m.regok i <;> simp [CoreMap.reg, h]

theorem reg_some {m : CoreMap} {i : Fin NREG} {a : McdAddr} :
    m.reg i = some a ↔ m.regok i = true ∧ m.rega i = a := by
  cases h : m.regok i <;> simp [CoreMap.reg, h]

/-- The entry is taken where its name matches and nothing was found before. -/
theorem reg_foldl_entry (ri : RegInfo) (is : List (Fin NREG)) (m : CoreMap) (i : Fin NREG)
    (b : Bool) (hb : b = true ↔ i ∈ is) :
    (is.foldl (fun (m : CoreMap) (idx : Fin NREG) =>
      if !m.regok idx && regNameMatch ri.regname idx then m.setReg idx ri.addr else m) m).reg i =
      (m.reg i).or (if b && regNameMatch ri.regname i then some ri.addr else none) := by
  induction is generalizing m b with
  | nil =>
    have hb : b = false := by simpa using hb
    simp [hb]
  | cons x is ih =>
    rw [List.foldl_cons, ih _ (decide (i ∈ is)) (by simp)]
    by_cases hx : i = x
    · subst hx
      have hb : b = true := by simpa using hb
      cases hm : m.regok i <;> cases hname : regNameMatch ri.regname i <;>
        simp [CoreMap.reg, CoreMap.setReg, hm, hb]
    · have hb : b = decide (i ∈ is) := by
        rw [Bool.eq_iff_iff, hb]
        simp [hx]
      rw [hb]
      split
      · rw [reg_setReg, if_neg hx]
      · rfl

theorem reg_mapEntry (m : CoreMap) (ri : RegInfo) (i : Fin NREG) :
    (mapEntry m ri).reg i =
      (m.reg i).or (if regNameMatch ri.regname i then some ri.addr else none) := by
  rw [mapEntry, reg_foldl_entry ri _ m i true (by simp)]
  rfl

theorem reg_foldl_group (grp : List RegInfo) (m : CoreMap) (i : Fin NREG) :
    (grp.foldl mapEntry m).reg i =
      (m.reg i).or ((grp.find? fun ri => regNameMatch ri.regname i).map (·.addr)) := by
  induction grp generalizing m with
  | nil => simp
  | cons ri grp ih =>
    rw [List.foldl_cons, ih, reg_mapEntry, List.find?_cons]
    cases regNameMatch ri.regname i <;> simp

/-- A register has the address of the first entry whose name matches. -/
theorem buildRegmap_reg (target : Target) (groups : List (List RegInfo)) (i : Fin NREG) :
    (buildRegmap target groups).reg i =
      (groups.flatten.find? fun ri => regNameMatch ri.regname i).map (·.addr) := by
  rw [buildRegmap, ← List.foldl_flatten, reg_foldl_group]
  simp [CoreMap.reg]

/-- No address is the address of two registers. -/
def CoreMap.MapsOnce (m : CoreMap) : Prop :=
  ∀ i j a, m.reg i = some a → m.reg j = some a → i = j

/-- Entries with addresses of their own are mapped to one register each. -/
theorem build_maps_once (target : Target) (groups : List (List RegInfo))
    (hdistinct : (groups.flatten.map (·.addr)).Nodup) : (buildRegmap target groups).MapsOnce := by
  intro i j a hi hj
  rw [buildRegmap_reg] at hi hj
  obtain ⟨ri, hri, rfl⟩ := Option.map_eq_some_iff.mp hi
  obtain ⟨ri', hri', haddr⟩ := Option.map_eq_some_iff.mp hj
  have hsame : ri' = ri :=
    List.inj_on_of_nodup_map hdistinct (List.mem_of_find?_eq_some hri')
      (List.mem_of_find?_eq_some hri) haddr
  subst hsame
  have hname := List.find?_some hri
  have hname' := List.find?_some hri'
  exact regNameMatch_functional hname hname'

end OpenTricore
