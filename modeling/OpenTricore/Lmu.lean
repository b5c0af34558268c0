import OpenTricore.DataFlash
import OpenTricore.Lib.Settings

/-! The shared LMU and its access protection, which `dma_init` and the `lmu_grant` of the
demos open: `bsp/tc4d7/dma.c`, `smp_demo.c`, `smp_c_demo.c`, `smp_all_demo.c` and
`ppu/fastio_demo.c` make the same writes. A store of a master that is not granted is dropped
without an error. After the writes no store to the region is dropped (`granted`). -/

namespace OpenTricore.Lmu
open Lib Lib.Setting
open DataFlash (Mmio store bit RUN CONFIG)

/-! ## The code -/

def LMU0_MEMCON : UInt32 := 0xFB000060
def LMU0_PROTRGN : UInt32 := 0xFB000070
def LMU0_CFG : UInt32 := 0xFB000300

/-- The registers that are written, and the values. -/
def LMU_GRANT : List (UInt32 × UInt32) :=
  [(LMU0_MEMCON, 0x300),   -- ERRDISWE, ERRDIS
    (LMU0_PROTRGN, bit 31 ||| bit 30),   -- define owner
    (LMU0_PROTRGN, bit 3 ||| 4),   -- run
    (LMU0_PROTRGN, bit 3 ||| 1),   -- config
    (LMU0_PROTRGN, 0),   -- region select 0
    (LMU0_CFG + 0x00, 0xFFFFFFFF),   -- WRA
    (LMU0_CFG + 0x04, 0xFFFFFFFF),   -- WRB
    (LMU0_CFG + 0x08, 0xFFFFFFFF),   -- RDA
    (LMU0_CFG + 0x0C, 0xFFFFFFFF),   -- RDB
    (LMU0_CFG + 0x10, 0xFFFFFFFF),   -- VM
    (LMU0_CFG + 0x14, 0xFFFFFFFF),   -- PRS
    (LMU0_CFG + 0x18, 0x90400000),   -- RGNLA
    (LMU0_CFG + 0x1C, 0x90480000),   -- RGNUA
    (LMU0_PROTRGN, bit 3 ||| 4)]   -- commit

def storeAll : List (UInt32 × UInt32) → Mmio Unit
  | [] => return ()
  | (a, v) :: ws => do
    store a v
    storeAll ws

/-- `I` is what holds while the given writes are left. -/
theorem wp_storeAll {σ : Type} {E : Env DataFlash.MmioSig σ} {X : Empty → σ → Prop}
    (I : List (UInt32 × UInt32) → σ → Prop)
    (hI : ∀ a v ws s u s', I ((a, v) :: ws) s → E s (.write a v) u s' → I ws s')
    (ws : List (UInt32 × UInt32)) {s : σ} (hs : I ws s) :
    (storeAll ws).wp E (fun _ s' => I [] s') X s := by
  induction ws generalizing s with
  | nil => exact hs
  | cons w ws ih =>
    obtain ⟨a, v⟩ := w
    intro u s' hE
    exact ih (hI a v ws s u s' hs hE)

def lmuGrant : Mmio Unit := storeAll LMU_GRANT

def dmaInit : Mmio Int := do
  lmuGrant
  return 0

/-! ## The access protection unit -/

/-- `state` and `owner` are the `STATE` and `ODEF` fields of PROTRGN. `cfg` is the shadow set
of the region and `live` the set that is in force. -/
structure Apu where
  state : UInt32
  owner : Bool
  cfg : UInt32 → UInt32
  live : UInt32 → UInt32

/-- The registers of the shadow set. -/
def IsCfg (a : UInt32) : Prop := LMU0_CFG ≤ a ∧ a < LMU0_CFG + 0x20

instance (a : UInt32) : Decidable (IsCfg a) := by
  unfold IsCfg
  infer_instance

namespace Apu

/-- The step from config to run puts the shadow set in force. -/
def Commits (c : Apu) (a v : UInt32) : Prop :=
  a = LMU0_PROTRGN ∧ v &&& bit 3 ≠ 0 ∧ v &&& 7 = RUN ∧ c.state = CONFIG

instance (c : Apu) (a v : UInt32) : Decidable (c.Commits a v) := by
  unfold Commits
  infer_instance

/-- `SWEN` enables the write of `STATE`, `OWEN` that of `ODEF`. The shadow set is written in
the config state, and as long as there is no owner. -/
def write (c : Apu) (a v : UInt32) : Apu :=
  if a = LMU0_PROTRGN then
    { c with
      state := if v &&& bit 3 ≠ 0 then v &&& 7 else c.state
      owner := if v &&& bit 31 ≠ 0 then v &&& bit 30 ≠ 0 else c.owner
      live := if c.Commits a v then c.cfg else c.live }
  else if IsCfg a ∧ (c.state = CONFIG ∨ ¬ c.owner) then
    { c with cfg := fun x => if x = a then v else c.cfg x }
  else c

/-- Addresses are compared without bit 29 and the offset in 64 bytes. -/
def Within (c : Apu) (a : UInt32) : Prop :=
  c.live (LMU0_CFG + 0x18) ≤ a &&& 0xDFFFFFC0 ∧ a &&& 0xDFFFFFC0 < c.live (LMU0_CFG + 0x1C)

/-- The master with this tag may write there: WRA has the first 32 tags, WRB the others. -/
def Permits (c : Apu) (tag : Nat) (a : UInt32) : Prop :=
  c.Within a ∧
    if tag < 32 then bitOf (c.live (LMU0_CFG + 0x00)) tag = true
    else bitOf (c.live (LMU0_CFG + 0x04)) (tag - 32) = true

instance (c : Apu) (tag : Nat) (a : UInt32) : Decidable (c.Permits tag a) := by
  unfold Permits Within
  infer_instance

end Apu

/-! ## The memory -/

/-- The shared LMU, 512 KB. -/
def InWindow (a : UInt32) : Prop := 0xB0400000 ≤ a ∧ a < 0xB0480000

instance (a : UInt32) : Decidable (InWindow a) := by
  unfold InWindow
  infer_instance

structure Memory where
  apu : Apu
  words : UInt32 → UInt32

/-- A store of the master with this tag. A commit leaves anything in the region. -/
structure Memory.Stores (tag : Nat) (a v : UInt32) (s s' : Memory) : Prop where
  apu : s'.apu = s.apu.write a v
  lands : InWindow a → s.apu.Permits tag a → s'.words = Function.update s.words a v
  dropped : InWindow a → ¬ s.apu.Permits tag a → s'.words = s.words
  outside : ¬ InWindow a → ¬ s.apu.Commits a v → s'.words = s.words

/-! ## The grant -/

/-- Every master may write all of the shared LMU. -/
def Apu.Open (c : Apu) : Prop := ∀ tag < 64, ∀ a, InWindow a → c.Permits tag a

/-- Writes to other registers and to the memory. -/
theorem Apu.write_other (c : Apu) {a : UInt32} (hprot : a ≠ LMU0_PROTRGN) (hcfg : ¬ IsCfg a)
    (v : UInt32) : c.write a v = c := by
  rw [write, if_neg hprot, if_neg fun h => hcfg h.1]

/-- The addresses of the LMU are between the bounds that are written. -/
theorem window_within {a : UInt32} (h : InWindow a) :
    0x90400000 ≤ a &&& 0xDFFFFFC0 ∧ a &&& 0xDFFFFFC0 < 0x90480000 := by
  obtain ⟨hlow, hhigh⟩ := h
  rw [UInt32.le_iff_toNat_le] at hlow
  rw [UInt32.lt_iff_toNat_lt] at hhigh
  simp only [UInt32.reduceToNat] at hlow hhigh
  -- all of them have the same upper 13 bits
  have hupper : a.toNat / 2 ^ 19 = 0x1608 := by omega
  have hmasked : (a &&& 0xDFFFFFC0).toNat / 2 ^ 19 = 0x1208 := by
    rw [UInt32.toNat_and, Nat.and_div_two_pow, hupper]
    rfl
  rw [UInt32.le_iff_toNat_le, UInt32.lt_iff_toNat_lt]
  simp only [UInt32.reduceToNat]
  omega

/-- What the writes leave: the shadow set is in force. -/
theorem grant_live (c : Apu) :
    (LMU_GRANT.foldl (fun c w => c.write w.1 w.2) c).live = fun a =>
      if a = LMU0_CFG + 0x1C then 0x90480000
      else if a = LMU0_CFG + 0x18 then 0x90400000
      else if a = LMU0_CFG + 0x14 then 0xFFFFFFFF
      else if a = LMU0_CFG + 0x10 then 0xFFFFFFFF
      else if a = LMU0_CFG + 0x0C then 0xFFFFFFFF
      else if a = LMU0_CFG + 0x08 then 0xFFFFFFFF
      else if a = LMU0_CFG + 0x04 then 0xFFFFFFFF
      else if a = LMU0_CFG + 0x00 then 0xFFFFFFFF
      else c.cfg a := rfl

/-- After the writes the region is open, whatever the unit was in before. -/
theorem granted (c : Apu) : (LMU_GRANT.foldl (fun c w => c.write w.1 w.2) c).Open := by
  intro tag htag a ha
  have hones : ∀ n < 32, bitOf 0xFFFFFFFF n = true := by decide
  rw [Apu.Permits, Apu.Within, grant_live]
  refine ⟨window_within ha, ?_⟩
  split
  · rename_i hlow
    exact hones tag hlow
  · exact hones (tag - 32) (by omega)

end OpenTricore.Lmu
