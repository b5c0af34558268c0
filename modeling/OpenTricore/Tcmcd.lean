import OpenTricore.Lib.Prog
import OpenTricore.Lib.Words

/-! The shared MCD access layer, `tools/common/tcmcd.c`: word transfers, memory
access of any address and length, and PFLASH programming over the command
interface. The MCD library itself is the environment of these programs. A
transfer is one question, answered by success or failure, and `usleep` has no
effect on the data and is left out. -/

namespace OpenTricore
open Lib

/-! ## MCD transactions -/

/-- An `mcd_core_st` handle. -/
abbrev Core := Nat

/-- An `mcd_addr_st`, with the fields the tools fill in. -/
structure McdAddr where
  address : UInt64
  memSpaceId : UInt32
  deriving DecidableEq, Repr

/-- One `mcd_execute_txlist_f` of a single four byte transaction. -/
inductive BusOp
  | read (core : Core) (a : McdAddr)
  | write (core : Core) (a : McdAddr) (v : UInt32)
  deriving DecidableEq, Repr

/-- A read answers the word or fails, a write succeeds or fails. -/
def BusSig : Sig where
  Op := BusOp
  Res
    | .read .. => Option UInt32
    | .write .. => Bool

/-- How a program can stop without returning: `die` exits the process, `hang` is
a loop whose counter can never end it, and `unfinished` cuts off a loop that goes
on for as long as its surroundings make it. -/
inductive Abort
  | die (what : String)
  | hang
  | unfinished
  deriving DecidableEq, Repr

abbrev Bus := Prog BusSig Abort

/-- The globals `g_core` and `g_msid`. -/
structure Target where
  core : Core
  msid : UInt32
  deriving DecidableEq, Repr

/-- `xfer(a, &v, 4, MCD_TX_AT_R)`. -/
def xferR (t : Target) (a : UInt64) : Bus (Option UInt32) :=
  Prog.perform (S := BusSig) (.read t.core ⟨a, t.msid⟩)

/-- `xfer(a, &v, 4, MCD_TX_AT_W)`. -/
def xferW (t : Target) (a : UInt64) (v : UInt32) : Bus Bool :=
  Prog.perform (S := BusSig) (.write t.core ⟨a, t.msid⟩ v)

section
variable {σ : Type} (E : Env BusSig σ) {X : Abort → σ → Prop}

@[simp] theorem wp_xferR {Q : Option UInt32 → σ → Prop} (t : Target) (a : UInt64) (s : σ) :
    (xferR t a).wp E Q X s ↔
      ∀ (r : Option UInt32) s', E s (.read t.core ⟨a, t.msid⟩) r s' → Q r s' := Iff.rfl

@[simp] theorem wp_xferW {Q : Bool → σ → Prop} (t : Target) (a : UInt64) (v : UInt32) (s : σ) :
    (xferW t a v).wp E Q X s ↔
      ∀ (r : Bool) s', E s (.write t.core ⟨a, t.msid⟩ v) r s' → Q r s' := Iff.rfl

variable {P : BusSig.Op → Prop}

@[simp] theorem asks_xferR {R : Option UInt32 → Prop} (t : Target) (a : UInt64) :
    Prog.Asks P R (xferR t a) ↔
      P (.read t.core ⟨a, t.msid⟩) ∧ ∀ r : Option UInt32, R r := Iff.rfl

@[simp] theorem asks_xferW {R : Bool → Prop} (t : Target) (a : UInt64) (v : UInt32) :
    Prog.Asks P R (xferW t a v) ↔
      P (.write t.core ⟨a, t.msid⟩ v) ∧ ∀ r : Bool, R r := Iff.rfl

end

/-- The address an access is for. -/
def BusOp.address : BusOp → UInt64
  | .read _ a => a.address
  | .write _ a _ => a.address

def rd32Try (t : Target) (a : UInt64) : Bus (Option UInt32) := xferR t a

/-! ## Memory access -/

/-- The inner loop of `tcmcd_read`: the bytes of `w` that lie in the range. -/
def readWordInto (addr : UInt64) (len : UInt32) (a : UInt64) (w : UInt32)
    (buf : Nat → UInt8) : Nat → UInt8 :=
  (List.range 4).foldl (fun buf b =>
    let cur := a + UInt64.ofNat b
    if cur ≥ addr ∧ cur < addr + len.toUInt64 then
      fun i => if i = (cur - addr).toNat then byteOf w b else buf i
    else buf) buf

/-- `buf` is the caller's buffer, with whatever it held before. -/
def tcmcdRead (t : Target) (addr : UInt64) (buf : Nat → UInt8) (len : UInt32) :
    Bus (Int × (Nat → UInt8)) :=
  let a0 := addr &&& ~~~3
  let a1 := (addr + len.toUInt64 + 3) &&& ~~~3
  Prog.loop .hang (fun (a, buf) =>
    if a < a1 then do
      match ← rd32Try t a with
      | none => return .inr (-1, buf)
      | some w => return .inl (a + 4, readWordInto addr len a w buf)
    else return .inr (0, buf)) (2 ^ 62) (a0, buf)

/-- The inner loop of `tcmcd_write`: merge the bytes that lie in the range. -/
def mergeWord (addr : UInt64) (buf : Nat → UInt8) (len : UInt32) (a : UInt64)
    (w : UInt32) : UInt32 :=
  (List.range 4).foldl (fun w b =>
    let cur := a + UInt64.ofNat b
    if cur ≥ addr ∧ cur < addr + len.toUInt64 then setByte w b (buf (cur - addr).toNat)
    else w) w

/-- `w` before the merge: read-modify-write the partial edge word. -/
def oldWord (t : Target) (addr : UInt64) (len : UInt32) (a : UInt64) : Bus (Option UInt32) :=
  let full := a ≥ addr ∧ a + 4 ≤ addr + len.toUInt64
  if full then return some 0 else rd32Try t a

def tcmcdWrite (t : Target) (addr : UInt64) (buf : Nat → UInt8) (len : UInt32) : Bus Int :=
  let a0 := addr &&& ~~~3
  let a1 := (addr + len.toUInt64 + 3) &&& ~~~3
  Prog.loop .hang (fun a =>
    if a < a1 then do
      match ← oldWord t addr len a with
      | none => return .inr (-1)
      | some w =>
        if ← xferW t a (mergeWord addr buf len a w) then return .inl (a + 4)
        else return .inr (-1)
    else return .inr 0) (2 ^ 62) a0

/-! ## PFLASH programming -/

def FCMD_BASE : UInt32 := 0xF8080000
def FHCI_STATUS : UInt32 := 0xF8040004
def FBUSY_MASK : UInt32 := 0x000F0FFF
def FPAGE : UInt32 := 32
def FLASH_MIN : UInt32 := 0xA0000000
def FLASH_MAX : UInt32 := 0xA1400000
def TCMCD_FLASH_SECTOR : UInt32 := 0x4000

/-- A register of the flash command interface. -/
def fcmd (off : UInt32) : UInt64 := (FCMD_BASE ||| off).toUInt64

def w32 (t : Target) (a : UInt64) (v : UInt32) : Bus Int := do
  if ← xferW t a v then return 0 else return -1

/-- `w32(..) || w32(..) || ..`: true at the first write that fails. -/
def w32Any (t : Target) : List (UInt64 × UInt32) → Bus Bool
  | [] => return false
  | (a, v) :: ws => do if (← w32 t a v) ≠ 0 then return true else w32Any t ws

def flashWaitLoop (t : Target) : Nat → Bus Int
  | 0 => return -1
  | n + 1 => do
    match ← xferR t FHCI_STATUS.toUInt64 with
    | none => return -1
    | some s => if s &&& FBUSY_MASK = 0 then return 0 else flashWaitLoop t n

def flashWait (t : Target) : Bus Int := flashWaitLoop t 200000

def flashRangeOk (addr len : UInt64) : Bool :=
  addr ≥ FLASH_MIN.toUInt64 && addr + len ≤ FLASH_MAX.toUInt64

/-- The command cycles that erase the sector `s`. -/
def eraseCycles (s : UInt32) : List (UInt64 × UInt32) :=
  [(fcmd 0x5554, 0xFA), (fcmd 0xaa50, s), (fcmd 0xaa58, 1), (fcmd 0xaaa8, 0x80),
    (fcmd 0xaaa8, 0x50)]

/-- The body of the erase loop, true if it makes the function return -1. -/
def eraseSector (t : Target) (s : UInt32) : Bus Bool := do
  if ← w32Any t (eraseCycles s) then return true
  else return (← flashWait t) ≠ 0

def tcmcdFlashErase (t : Target) (addr len : UInt64) : Bus Int :=
  if !flashRangeOk addr len then return -1
  else
    let s0 := addr &&& ~~~(TCMCD_FLASH_SECTOR - 1).toUInt64
    Prog.loop .hang (fun s =>
      if s < addr + len then do
        if ← eraseSector t s.toUInt32 then return .inr (-1)
        else return .inl (s + TCMCD_FLASH_SECTOR.toUInt64)
      else return .inr 0) (2 ^ 50) s0

/-- `w[i]` of the page at `off`, `0xFF` from `len` on. -/
def pageWord (data : Nat → UInt8) (len off : UInt32) (i : Nat) : UInt32 :=
  packBytes fun k =>
    let idx := off + UInt32.ofNat (i * 4 + k)
    if idx < len then data idx.toNat else 0xFF

def enterPageCycles : List (UInt64 × UInt32) := [(fcmd 0x5554, 0xFA), (fcmd 0x5554, 0x50)]

def loadPageCycles (data : Nat → UInt8) (len off : UInt32) : List (UInt64 × UInt32) :=
  (List.range 8).map fun i => (fcmd 0x55f4, pageWord data len off i)

def writePageCycles (target : UInt32) : List (UInt64 × UInt32) :=
  [(fcmd 0xaa50, target), (fcmd 0xaa58, 0), (fcmd 0xaaa8, 0xa0), (fcmd 0xaaa8, 0xaa)]

/-- The body of the page loop, true if it makes the function return -1. -/
def programPage (t : Target) (addr : UInt64) (data : Nat → UInt8) (len off : UInt32) :
    Bus Bool := do
  if ← w32Any t enterPageCycles then return true
  else if ← w32Any t (loadPageCycles data len off) then return true
  else if ← w32Any t (writePageCycles (addr + off.toUInt64).toUInt32) then return true
  else return (← flashWait t) ≠ 0

def tcmcdFlashProgram (t : Target) (addr : UInt64) (data : Nat → UInt8) (len : UInt32) : Bus Int :=
  if !flashRangeOk addr len.toUInt64 || (addr &&& (FPAGE - 1).toUInt64) ≠ 0 then return -1
  else do
    let rc ← Prog.loop .hang (fun off : UInt32 =>
      if off < len then do
        if ← programPage t addr data len off then return .inr (-1)
        else return .inl (off + FPAGE)
      else return .inr (0 : Int)) (2 ^ 27) 0
    if rc ≠ 0 then return rc
    else
      let _ ← w32 t (fcmd 0x5554) 0xf0   -- back to read mode
      return 0

/-- All cycles that program one page, in order. -/
def pageCycles (data : Nat → UInt8) (len off target : UInt32) : List (UInt64 × UInt32) :=
  enterPageCycles ++ loadPageCycles data len off ++ writePageCycles target

theorem w32Any_append (t : Target) (ws ws' : List (UInt64 × UInt32)) :
    w32Any t (ws ++ ws') =
      (w32Any t ws >>= fun failed => if failed then return true else w32Any t ws') := by
  induction ws with
  | nil => rfl
  | cons w ws ih =>
    simp only [List.cons_append, w32Any, ih, Prog.bind_bind]
    congr 1
    funext rc
    split <;> simp

/-- The cycles of a command and the wait that ends it. -/
def flashCommand (t : Target) (ws : List (UInt64 × UInt32)) : Bus Bool := do
  if ← w32Any t ws then return true
  else return (← flashWait t) ≠ 0

theorem eraseSector_eq (t : Target) (s : UInt32) :
    eraseSector t s = flashCommand t (eraseCycles s) :=
  rfl

theorem programPage_eq (t : Target) (addr : UInt64) (data : Nat → UInt8) (len off : UInt32) :
    programPage t addr data len off =
      flashCommand t (pageCycles data len off (addr + off.toUInt64).toUInt32) := by
  simp only [programPage, flashCommand, pageCycles, w32Any_append, Prog.bind_bind]
  congr 1
  funext b
  cases b with
  | true => simp
  | false =>
    simp only [Bool.false_eq_true, ↓reduceIte]
    congr 1
    funext b
    cases b <;> simp

/-! ## Rules for the command cycles -/

section rules
variable {σ : Type} (E : Env BusSig σ) {X : Abort → σ → Prop} (t : Target)

/-- `I done` holds after the writes `done`, and `Q` when one fails or all are done. -/
theorem wp_w32Any {Q : Bool → σ → Prop} (ws : List (UInt64 × UInt32))
    (I : List (UInt64 × UInt32) → σ → Prop)
    (hstep : ∀ done w rest, ws = done ++ w :: rest → ∀ s, I done s → ∀ (r : Bool) s',
      E s (.write t.core ⟨w.1, t.msid⟩ w.2) r s' → if r then I (done ++ [w]) s' else Q true s')
    (hend : ∀ s, I ws s → Q false s) (s : σ) (hI : I [] s) : (w32Any t ws).wp E Q X s := by
  suffices h : ∀ rest done, ws = done ++ rest → ∀ s, I done s → (w32Any t rest).wp E Q X s from
    h ws [] rfl s hI
  intro rest
  induction rest with
  | nil =>
    intro done hws s hI
    rw [List.append_nil] at hws
    exact hend s (hws ▸ hI)
  | cons w rest ih =>
    intro done hws s hI
    simp only [w32Any, w32, Prog.wp_bind, wp_xferW]
    intro r s' hr
    have hnext := hstep done w rest hws s hI r s' hr
    cases r with
    | true =>
      rw [if_pos rfl] at hnext
      simp only [↓reduceIte, Prog.pure_eq, Prog.wp_ret, ne_eq, not_true_eq_false]
      exact ih (done ++ [w]) (by rw [hws, List.append_assoc]; rfl) s' hnext
    | false =>
      rw [if_neg Bool.false_ne_true] at hnext
      simpa using hnext

/-- What the reads of the status keep is kept by a wait. -/
theorem wp_flashWaitLoop (n : Nat) (I : σ → Prop)
    (hread : ∀ s (r : Option UInt32) s', I s →
      E s (.read t.core ⟨FHCI_STATUS.toUInt64, t.msid⟩) r s' → I s')
    (s : σ) (hI : I s) : (flashWaitLoop t n).wp E (fun _ s' => I s') X s := by
  induction n generalizing s with
  | zero => exact hI
  | succ n ih =>
    simp only [flashWaitLoop, Prog.wp_bind, wp_xferR]
    intro r s' hr
    have hnext := hread s r s' hI hr
    cases r with
    | none => exact hnext
    | some v =>
      dsimp only
      split
      · exact hnext
      · exact ih s' hnext

/-- What holds after the cycles of a command and is kept by a wait holds after the command. -/
theorem wp_flashCommand (ws : List (UInt64 × UInt32)) (Q : Bool → σ → Prop)
    (hread : ∀ b s (r : Option UInt32) s', Q b s →
      E s (.read t.core ⟨FHCI_STATUS.toUInt64, t.msid⟩) r s' → Q b s')
    (hweak : ∀ s, Q false s → Q true s) (s : σ) (h : (w32Any t ws).wp E Q X s) :
    (flashCommand t ws).wp E Q X s := by
  rw [flashCommand, Prog.wp_bind]
  apply Prog.wp_mono E ?_ (fun _ _ h => h) h
  intro failed s' hs'
  cases failed with
  | true => exact hs'
  | false =>
    simp only [Bool.false_eq_true, ↓reduceIte, Prog.wp_bind]
    apply Prog.wp_mono E ?_ (fun _ _ h => h) (wp_flashWaitLoop E t _ (Q false) (hread false) s' hs')
    intro rc s'' hs''
    rw [Prog.pure_eq, Prog.wp_ret]
    cases decide (rc ≠ 0) with
    | true => exact hweak s'' hs''
    | false => exact hs''

/-- Writes succeed, and the flash is never busy. -/
structure NeverFails : Prop where
  write : ∀ s c a v (r : Bool) s', E s (.write c a v) r s' → r = true
  ready : ∀ s c m (r : Option UInt32) s', E s (.read c ⟨FHCI_STATUS.toUInt64, m⟩) r s' →
    ∃ v, r = some v ∧ v &&& FBUSY_MASK = 0

variable {E}

theorem NeverFails.w32_ok (h : NeverFails E) (a : UInt64) (v : UInt32) (s : σ) :
    (w32 t a v).wp E (fun rc _ => rc = 0) X s := by
  simp only [w32, Prog.wp_bind, wp_xferW]
  intro r s' hr
  rw [h.write _ _ _ _ _ _ hr]
  rfl

theorem NeverFails.w32Any_ok (h : NeverFails E) (ws : List (UInt64 × UInt32)) (s : σ) :
    (w32Any t ws).wp E (fun failed _ => failed = false) X s := by
  apply wp_w32Any E t ws (fun _ _ => True) ?_ (fun _ _ => rfl) s trivial
  intro done w rest _ s₁ _ r s' hr
  rw [h.write _ _ _ _ _ _ hr]
  trivial

theorem NeverFails.flashWait_ok (h : NeverFails E) (s : σ) :
    (flashWait t).wp E (fun rc _ => rc = 0) X s := by
  have hfirst : ∀ n, (flashWaitLoop t (n + 1)).wp E (fun rc _ => rc = 0) X s := by
    intro n
    simp only [flashWaitLoop, Prog.wp_bind, wp_xferR]
    intro r s' hr
    obtain ⟨v, rfl, hv⟩ := h.ready _ _ _ _ _ hr
    simp [hv]
  exact hfirst 199999

theorem NeverFails.flashCommand_ok (h : NeverFails E) (ws : List (UInt64 × UInt32)) (s : σ) :
    (flashCommand t ws).wp E (fun failed _ => failed = false) X s := by
  rw [flashCommand, Prog.wp_bind]
  apply Prog.wp_mono E ?_ (fun _ _ h => h) (h.w32Any_ok t ws s)
  rintro _ s' rfl
  simp only [Bool.false_eq_true, ↓reduceIte, Prog.wp_bind]
  apply Prog.wp_mono E ?_ (fun _ _ h => h) (h.flashWait_ok t s')
  rintro _ s'' rfl
  rfl

theorem NeverFails.eraseSector_ok (h : NeverFails E) (v : UInt32) (s : σ) :
    (eraseSector t v).wp E (fun failed _ => failed = false) X s :=
  h.flashCommand_ok t (eraseCycles v) s

theorem NeverFails.programPage_ok (h : NeverFails E) (addr : UInt64) (data : Nat → UInt8)
    (len off : UInt32) (s : σ) :
    (programPage t addr data len off).wp E (fun failed _ => failed = false) X s := by
  rw [programPage_eq]
  exact h.flashCommand_ok t _ s

end rules

end OpenTricore
