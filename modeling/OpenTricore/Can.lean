import Mathlib.Logic.Function.Basic
import OpenTricore.DataFlash
import OpenTricore.Lib.Words

/-! The CAN driver, `bsp/tc4d7/can.c`. A frame is packed into four words of message RAM
for sending, and unpacked from a slot of the receive FIFO. -/

namespace OpenTricore.Can
open Lib Lib.Prog
open DataFlash (MmioOp MmioSig Mmio load store poll)

/-! ## The code -/

def CAN_RAM : UInt32 := 0xF4700000
def CAN_CLC : UInt32 := 0xF4710000
def CAN_MCR : UInt32 := 0xF4710070
def CAN_TEST : UInt32 := 0xF4710210
def CAN_CCCR : UInt32 := 0xF4710218
def CAN_NBTP : UInt32 := 0xF471021C
def CAN_IR : UInt32 := 0xF4710250
def CAN_GFC : UInt32 := 0xF4710280
def CAN_RXF0C : UInt32 := 0xF47102A0
def CAN_RXF0S : UInt32 := 0xF47102A4
def CAN_RXF0A : UInt32 := 0xF47102A8
def CAN_RXESC : UInt32 := 0xF47102BC
def CAN_TXBC : UInt32 := 0xF47102C0
def CAN_TXESC : UInt32 := 0xF47102C8
def CAN_TXBRP : UInt32 := 0xF47102CC
def CAN_TXBAR : UInt32 := 0xF47102D0

def RXF0_OFF : UInt32 := 0
def TXB0_OFF : UInt32 := 0x20
def ELEM_SZ : UInt32 := 16
def SPIN : Nat := 2000000

/-- `R(a) |= v` and `R(a) &= v`. -/
def orInto (a v : UInt32) : Mmio Unit := do store a ((← load a) ||| v)
def andInto (a v : UInt32) : Mmio Unit := do store a ((← load a) &&& v)

/-- The clock gate, the ECC of the message RAM and the clock source. -/
def initModule : Mmio Unit := do
  store CAN_CLC 0
  let _ ← poll CAN_CLC (· &&& 2 == 0) SPIN
  let m := (← load CAN_MCR) ||| 0xC0000000
  store CAN_MCR m   -- CCCE | CI
  let m := m ||| 0x20000000
  store CAN_MCR m   -- RINIT
  let _ ← load CAN_MCR
  let _ ← poll CAN_MCR (· &&& 0x10000000 == 0) SPIN
  let m := m &&& ~~~0x20000000
  store CAN_MCR m
  let m := m &&& ~~~0xC0000000
  store CAN_MCR m
  let m := (← load CAN_MCR) ||| 0xC0000000
  store CAN_MCR m
  let m := (m &&& ~~~0x3) ||| 0x3
  store CAN_MCR m
  let m := m &&& ~~~0xC0000000
  store CAN_MCR m

def enterConfiguration (internalLoopback : Int) : Mmio Unit := do
  orInto CAN_CCCR 1
  let _ ← poll CAN_CCCR (· &&& 1 != 0) SPIN
  let c ← load CAN_CCCR
  store CAN_CCCR (c ||| 3)
  if internalLoopback ≠ 0 then
    orInto CAN_CCCR 0x80
    orInto CAN_TEST 0x10
    orInto CAN_CCCR 0x20
  store CAN_NBTP 0x06000E03
  store CAN_RXESC 0
  store CAN_TXESC 0

/-- The sections of the message RAM. -/
def setSections : Mmio Unit := do
  store CAN_RXF0C (((2 : UInt32) <<< 16) ||| RXF0_OFF)
  store CAN_TXBC (((1 : UInt32) <<< 16) ||| TXB0_OFF)

def leaveConfiguration : Mmio Int := do
  store CAN_GFC 0
  store CAN_IR 0x1FCFFFFF
  andInto CAN_CCCR (~~~0x2)
  let _ ← poll CAN_CCCR (· &&& 2 == 0) SPIN
  andInto CAN_CCCR (~~~0x1)
  if ← poll CAN_CCCR (· &&& 1 == 0) SPIN then return 0 else return -1

def canInit (internalLoopback : Int) : Mmio Int := do
  initModule
  enterConfiguration internalLoopback
  setSections
  leaveConfiguration

/-- One round of the loop of `can_send` that packs the bytes into `w0` and `w1`. -/
def packByte (data : Nat → UInt8) (w : UInt32 × UInt32) (i : Nat) : UInt32 × UInt32 :=
  if i < 4 then (w.1 ||| ((data i).toUInt32 <<< (i * 8).toUInt32), w.2)
  else (w.1, w.2 ||| ((data i).toUInt32 <<< ((i - 4) * 8).toUInt32))

def pack (data : Nat → UInt8) (len : Nat) : UInt32 × UInt32 :=
  (List.range len).foldl (packByte data) (0, 0)

/-- `if (len > 8u) len = 8u;`. -/
def clamp (len : UInt32) : UInt32 := if len > 8 then 8 else len

def canSend (id : UInt32) (data : Nat → UInt8) (len : UInt32) : Mmio Int := do
  let len := clamp len
  let w := pack data len.toNat
  store (CAN_RAM + TXB0_OFF + 0x0) ((id &&& 0x7FF) <<< 18)
  store (CAN_RAM + TXB0_OFF + 0x4) ((len &&& 0xF) <<< 16)
  store (CAN_RAM + TXB0_OFF + 0x8) w.1
  store (CAN_RAM + TXB0_OFF + 0xC) w.2
  store CAN_TXBAR 1
  if ← poll CAN_TXBRP (· &&& 1 == 0) SPIN then return 0 else return -1

/-- The loop of `can_recv` that unpacks the bytes into `data`. -/
def unpack (w0 w1 : UInt32) (dlc : Nat) (data : Nat → UInt8) : Nat → UInt8 :=
  (List.range dlc).foldl (fun d i =>
    Function.update d i (if i < 4 then byteOf w0 i else byteOf w1 (i - 4))) data

/-- The arguments of `can_send`, and what the three pointers of `can_recv` point to. -/
structure Message where
  id : UInt32
  data : Nat → UInt8
  len : UInt32

/-- Which of the pointers are not `NULL`. -/
structure Pointers where
  id : Bool
  data : Bool
  len : Bool

def canRecv (p : Pointers) (out : Message) : Mmio (Int × Message) := do
  let s ← load CAN_RXF0S
  if s &&& 0x7F = 0 then return (1, out)
  let gi := (s >>> 8) &&& 0x3F
  let e := CAN_RAM + RXF0_OFF + gi * ELEM_SZ
  let r0 ← load (e + 0x0)
  let r1 ← load (e + 0x4)
  let dlc := clamp ((r1 >>> 16) &&& 0xF)
  let out := { out with
    id := if p.id then (r0 >>> 18) &&& 0x7FF else out.id
    len := if p.len then dlc else out.len }
  if p.data then
    let w0 ← load (e + 0x8)
    let w1 ← load (e + 0xC)
    store CAN_RXF0A gi
    return (0, { out with data := unpack w0 w1 dlc.toNat out.data })
  else
    store CAN_RXF0A gi
    return (0, out)

/-! ## Packing -/

/-- Byte `i` of the two data words. -/
def byteAt (w : UInt32 × UInt32) (i : Nat) : UInt8 :=
  if i < 4 then byteOf w.1 i else byteOf w.2 (i - 4)

theorem byteAt_packByte (data : Nat → UInt8) (w : UInt32 × UInt32) {n i : Nat} (hn : n < 8)
    (hi : i < 8) :
    byteAt (packByte data w n) i = byteAt w i ||| if i = n then data n else 0 := by
  by_cases hn4 : n < 4
  · rw [packByte, if_pos hn4]
    by_cases hi4 : i < 4
    · rw [byteAt, byteAt, if_pos hi4, if_pos hi4, byteOf_or_shift _ _ hn4 hi4]
    · rw [byteAt, byteAt, if_neg hi4, if_neg hi4, if_neg (by omega), UInt8.or_zero]
  · rw [packByte, if_neg hn4]
    by_cases hi4 : i < 4
    · rw [byteAt, byteAt, if_pos hi4, if_pos hi4, if_neg (by omega), UInt8.or_zero]
    · have heq : i - 4 = n - 4 ↔ i = n := by omega
      rw [byteAt, byteAt, if_neg hi4, if_neg hi4,
        byteOf_or_shift _ _ (by omega : n - 4 < 4) (by omega : i - 4 < 4)]
      simp only [heq]

theorem byteAt_pack (data : Nat → UInt8) {len i : Nat} (hlen : len ≤ 8) (hi : i < 8) :
    byteAt (pack data len) i = if i < len then data i else 0 := by
  induction len with
  | zero =>
    rw [if_neg (Nat.not_lt_zero i)]
    show (if i < 4 then byteOf 0 i else byteOf 0 (i - 4)) = 0
    split <;> exact UInt8.toBitVec_inj.mp (by simp [byteOf])
  | succ n ih =>
    have hsucc : pack data (n + 1) = packByte data (pack data n) n := by
      rw [pack, List.range_succ, List.foldl_append]
      rfl
    rw [hsucc, byteAt_packByte data _ (by omega) hi, ih (by omega)]
    rcases Nat.lt_trichotomy i n with hlt | rfl | hgt
    · rw [if_pos hlt, if_neg (by omega), if_pos (by omega), UInt8.or_zero]
    · rw [if_neg (Nat.lt_irrefl i), if_pos rfl, if_pos (Nat.lt_succ_self i), UInt8.zero_or]
    · rw [if_neg (by omega), if_neg (by omega), if_neg (by omega), UInt8.or_zero]

theorem unpack_apply (w0 w1 : UInt32) (dlc : Nat) (data : Nat → UInt8) (i : Nat) :
    unpack w0 w1 dlc data i = if i < dlc then byteAt (w0, w1) i else data i := by
  induction dlc with
  | zero => exact (if_neg (Nat.not_lt_zero i)).symm
  | succ n ih =>
    rw [unpack, List.range_succ, List.foldl_append]
    show Function.update (unpack w0 w1 n data) n (byteAt (w0, w1) n) i = _
    by_cases hi : i = n
    · rw [hi, Function.update_self, if_pos (Nat.lt_succ_self n)]
    · rw [Function.update_of_ne hi, ih]
      by_cases hlt : i < n
      · rw [if_pos hlt, if_pos (Nat.lt_succ_of_lt hlt)]
      · rw [if_neg hlt, if_neg (by omega)]

theorem clamp_toNat (len : UInt32) : (clamp len).toNat = min len.toNat 8 := by
  rw [clamp]
  split
  · rename_i h
    have h' : 8 < len.toNat := h
    rw [Nat.min_eq_right (Nat.le_of_lt h')]
    rfl
  · rename_i h
    have h' : ¬ 8 < len.toNat := h
    exact (Nat.min_eq_left (Nat.le_of_not_lt h')).symm

/-! ## Elements of the message RAM -/

def bufferAddress : UInt32 := CAN_RAM + TXB0_OFF

def elementWords (e : UInt32) : List UInt32 := [e + 0x0, e + 0x4, e + 0x8, e + 0xC]

/-- `mem` with the four words of the element at `e` written. -/
def withElement (mem : UInt32 → UInt32) (e t0 t1 w0 w1 : UInt32) : UInt32 → UInt32 :=
  Function.update (Function.update (Function.update (Function.update mem
    (e + 0x0) t0) (e + 0x4) t1) (e + 0x8) w0) (e + 0xC) w1

theorem withElement_other (mem : UInt32 → UInt32) (e t0 t1 w0 w1 : UInt32) {a : UInt32}
    (h : a ∉ elementWords e) : withElement mem e t0 t1 w0 w1 a = mem a := by
  simp only [elementWords, List.mem_cons, List.not_mem_nil, or_false, not_or] at h
  obtain ⟨h0, h1, h2, h3⟩ := h
  rw [withElement, Function.update_of_ne h3, Function.update_of_ne h2, Function.update_of_ne h1,
    Function.update_of_ne h0]

end OpenTricore.Can
