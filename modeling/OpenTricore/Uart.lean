import Mathlib.Data.List.Infix
import OpenTricore.DataFlash
import OpenTricore.Lib.CString
import OpenTricore.Lib.Interleave

/-! The console: `bsp/tc4d7/uart.c`, and `write` of `syscalls.c`, which is what `printf` ends in.
The transmitter takes bytes out of its FIFO on its own, while the CPU fills it. -/

namespace OpenTricore.Uart
open Lib Lib.Prog Relation
open DataFlash (MmioSig bit)

/-! ## The code -/

def A_CLC : UInt32 := 0xF46C0000
def A_TXFIFOCON : UInt32 := 0xF46C0104
def A_BITCON : UInt32 := 0xF46C010C
def A_FRAMECON : UInt32 := 0xF46C0110
def A_DATCON : UInt32 := 0xF46C0114
def A_BRG : UInt32 := 0xF46C0118
def A_CSR : UInt32 := 0xF46C013C
def A_TXDATA : UInt32 := 0xF46C0140
def P14_0_DRVCFG : UInt32 := 0xF003DB04

/-- What the CPU is still waiting for when its polls are over. The loops of the source have no
bound, so a run that ends so is the beginning of a longer one. -/
inductive Waits
  | clock
  | space
  deriving DecidableEq

abbrev Waiting := Prog MmioSig Waits

def load (a : UInt32) : Waiting UInt32 := Prog.perform (S := MmioSig) (.read a)
def store (a v : UInt32) : Waiting Unit := Prog.perform (S := MmioSig) (.write a v)

def storeAll : List (UInt32 × UInt32) → Waiting Unit
  | [] => return ()
  | (a, v) :: ws => do
    store a v
    storeAll ws

def wait (e : Waits) (a : UInt32) (ready : UInt32 → Bool) : Nat → Waiting Unit
  | 0 => .fail e
  | n + 1 => do if ready (← load a) then return () else wait e a ready n

/-- PRESCALER, OVERSAMPLING, SAMPLEPOINT. -/
def BITCON_VALUE : UInt32 := (53 : UInt32) ||| ((15 : UInt32) <<< 16) ||| ((8 : UInt32) <<< 24)
def BRG_VALUE : UInt32 := ((85 : UInt32) <<< 16) ||| 86
/-- One stop bit, ASC mode. -/
def FRAMECON_VALUE : UInt32 := bit 9 ||| bit 16
/-- FLUSH, ENO, inlet width. -/
def TXFIFOCON_VALUE : UInt32 := bit 0 ||| bit 1 ||| bit 6

/-- With the clock off. -/
def FRAME : List (UInt32 × UInt32) :=
  [(A_CSR, 0), (A_FRAMECON, 0), (A_BITCON, BITCON_VALUE), (A_BRG, BRG_VALUE), (A_DATCON, 7),
    (A_FRAMECON, FRAMECON_VALUE)]

def uartInit (polls : Nat) : Waiting Unit := do
  store A_CLC 0
  let _ ← load A_CLC
  storeAll FRAME
  store A_TXFIFOCON TXFIFOCON_VALUE
  store A_CSR 2   -- clock on
  wait .clock A_CSR (fun r => r &&& 0x80000000 != 0) polls
  store P14_0_DRVCFG 0x21

/-- The FIFO level is below 15. -/
def hasSpace (r : UInt32) : Bool := ((r >>> 16) &&& 0x1F) < (15 : UInt32)

def uartPutc (polls : Nat) (c : UInt8) : Waiting Unit := do
  wait .space A_TXFIFOCON hasSpace polls
  store A_TXDATA c.toUInt32

def CR : UInt8 := 13
def LF : UInt8 := 10

/-- A round of either loop. -/
def putText (polls : Nat) (c : UInt8) : Waiting Unit :=
  if c = LF then do
    uartPutc polls CR
    uartPutc polls c
  else uartPutc polls c

/-- `s` goes from the pointer to the end of the buffer. -/
def uartPuts (polls : Nat) : List UInt8 → Waiting Unit
  | [] => return ()
  | c :: s =>
    if c = 0 then return ()
    else do
      putText polls c
      uartPuts polls s

def putAll (polls : Nat) : List UInt8 → Waiting Unit
  | [] => return ()
  | c :: s => do
    putText polls c
    putAll polls s

def write (polls : Nat) (_fd : Int) (buf : List UInt8) (len : Int) : Waiting Int := do
  putAll polls (buf.take len.toNat)
  return len

/-- What a program prints with. -/
inductive Call
  | puts (s : List UInt8)
  | write (fd : Int) (buf : List UInt8) (len : Int)

def Call.run (polls : Nat) : Call → Waiting Unit
  | .puts s => uartPuts polls s
  | .write fd buf len => do let _ ← Uart.write polls fd buf len

def runAll (polls : Nat) : List Call → Waiting Unit
  | [] => return ()
  | c :: cs => do
    c.run polls
    runAll polls cs

/-- A program that prints. -/
def session (polls : Nat) (calls : List Call) : Waiting Unit := do
  uartInit polls
  runAll polls calls

/-! ## Line ends -/

/-- A carriage return in front of every line feed. -/
def crlf (t : List UInt8) : List UInt8 := t.flatMap fun c => if c = LF then [CR, LF] else [c]

/-- What a terminal makes of it: a carriage return just in front of a line feed goes. -/
def unCrlf : List UInt8 → List UInt8
  | [] => []
  | c :: t => if c = CR ∧ t.head? = some LF then unCrlf t else c :: unCrlf t

theorem crlf_append (t u : List UInt8) : crlf (t ++ u) = crlf t ++ crlf u := List.flatMap_append

theorem crlf_cons (c : UInt8) (t : List UInt8) :
    crlf (c :: t) = (if c = LF then [CR, LF] else [c]) ++ crlf t := rfl

/-- No text begins with a bare line feed when it is sent. -/
theorem crlf_head (t : List UInt8) : (crlf t).head? ≠ some LF := by
  have hne : CR ≠ LF := by decide
  cases t with
  | nil => simp [crlf]
  | cons c t =>
    rw [crlf_cons]
    by_cases h : c = LF
    · simp [h, hne]
    · simp [h]

/-- Whatever the text, also one that has carriage returns of its own. -/
theorem unCrlf_crlf (t : List UInt8) : unCrlf (crlf t) = t := by
  have hne : LF ≠ CR := by decide
  induction t with
  | nil => rfl
  | cons c t ih =>
    rw [crlf_cons]
    by_cases h : c = LF
    · simp [h, unCrlf, hne, ih]
    · simp [h, unCrlf, crlf_head, ih]

/-! ## What is printed -/

def Call.text : Call → List UInt8
  | .puts s => s.takeWhile (· ≠ 0)
  | .write _ buf len => buf.take len.toNat

def texts (calls : List Call) : List UInt8 := calls.flatMap Call.text

theorem uartPuts_eq (polls : Nat) (s : List UInt8) :
    uartPuts polls s = putAll polls (s.takeWhile (· ≠ 0)) := by
  induction s with
  | nil => rfl
  | cons c s ih =>
    by_cases h : c = 0
    · simp [uartPuts, putAll, h]
    · simp [uartPuts, putAll, h, ih]

/-! ## The transmitter -/

def DEPTH : Nat := 16

/-- `on` is the clock status. `wire` is what has gone out, and `dropped` counts the bytes that
found the FIFO full. -/
structure Asclin where
  regs : UInt32 → UInt32
  on : Bool
  fifo : List UInt8
  wire : List UInt8
  dropped : Nat

/-- The registers that are written while the clock is off. -/
def SETTINGS : List UInt32 := [A_BITCON, A_FRAMECON, A_DATCON, A_BRG]

/-- Nothing but `CLC` and the pin is there before the module is enabled. -/
def Enabled (r : UInt32 → UInt32) : Prop := r A_CLC &&& 1 = 0

instance (r : UInt32 → UInt32) : Decidable (Enabled r) :=
  inferInstanceAs (Decidable (r A_CLC &&& 1 = 0))

def writeRegs (r : UInt32 → UInt32) (a v : UInt32) : UInt32 → UInt32 :=
  if a = A_CLC ∨ a = P14_0_DRVCFG ∨ (Enabled r ∧ a ≠ A_TXDATA ∧ (a ∈ SETTINGS → r A_CSR = 0)) then
    fun x => if x = a then v else r x
  else r

namespace Asclin

def write (c : Asclin) (a v : UInt32) : Asclin :=
  { c with
    regs := writeRegs c.regs a v
    fifo :=
      if Enabled c.regs ∧ a = A_TXDATA ∧ c.fifo.length < DEPTH then c.fifo ++ [v.toUInt8]
      else if Enabled c.regs ∧ a = A_TXFIFOCON ∧ v &&& bit 0 ≠ 0 then []
      else c.fifo
    dropped :=
      if Enabled c.regs ∧ a = A_TXDATA ∧ ¬ c.fifo.length < DEPTH then c.dropped + 1
      else c.dropped }

/-- The rate, the frame and the pin are those of the console. -/
def Right (c : Asclin) : Prop :=
  c.regs A_CLC = 0 ∧ c.regs A_BITCON = BITCON_VALUE ∧ c.regs A_BRG = BRG_VALUE ∧
    c.regs A_DATCON = 7 ∧ c.regs A_FRAMECON = FRAMECON_VALUE ∧
    c.regs A_TXFIFOCON = TXFIFOCON_VALUE ∧ c.regs A_CSR = 2 ∧ c.regs P14_0_DRVCFG = 0x21

/-- A byte can go out. -/
def Sending (c : Asclin) : Prop := c.on = true ∧ c.regs A_TXFIFOCON &&& bit 1 ≠ 0

end Asclin

/-- The transmitter sends the next byte, which is another one on the wire if it is not set up
right, or the clock follows its selection. -/
inductive Moves (s : Asclin) : Asclin → Prop
  | shift {b c : UInt8} {rest : List UInt8} (hfifo : s.fifo = b :: rest) (hsending : s.Sending)
      (hbyte : s.Right → c = b) : Moves s { s with fifo := rest, wire := s.wire ++ [c] }
  | clock : Moves s { s with on := s.regs A_CSR != 0 }

def access : Env MmioSig Asclin
  | s, .read a, r, s' => s' = s ∧
      (a = A_TXFIFOCON → s.fifo.length ≤ DEPTH →
        ((show UInt32 from r) >>> 16) &&& 0x1F = UInt32.ofNat s.fifo.length) ∧
      (a = A_CSR → ((show UInt32 from r) &&& 0x80000000 ≠ 0 ↔ s.on = true))
  | s, .write a v, _, s' => s' = s.write a v

/-- The CPU, and the transmitter beside it. -/
def console : Env MmioSig Asclin := interleave Moves access

/-- What holds while the CPU waits, and when it goes on. -/
theorem wp_wait {I : Asclin → Prop} (hI : Stable Moves I) {e : Waits} {a : UInt32}
    {ready : UInt32 → Bool} {Q : Unit → Asclin → Prop} {X : Waits → Asclin → Prop}
    (hQ : ∀ (r : UInt32) s, I s → access s (.read a) r s → ready r = true → Q () s)
    (hX : ∀ s, I s → X e s) (polls : Nat) {s : Asclin} (hs : I s) :
    (wait e a ready polls).wp console Q X s := by
  induction polls generalizing s with
  | zero => exact hX s hs
  | succ n ih =>
    rw [wait, wp_bind]
    show ∀ (r : UInt32) s', console s (.read a) r s' →
      (if ready r = true then pure () else wait e a ready n : Waiting Unit).wp console Q X s'
    intro r s' hE
    obtain ⟨s₁, hs₁, hread⟩ := interleave_cases hI hs hE
    obtain rfl := hread.1
    split
    · rename_i hready
      exact hQ r s' hs₁ hread hready
    · exact ih hs₁

/-! ## What is sent -/

/-- `t` has been sent behind `w`, as far as the CPU is concerned. -/
structure Sends (w t : List UInt8) (d : Nat) (s : Asclin) : Prop where
  right : s.Right
  stream : s.wire ++ s.fifo = w ++ t
  room : s.fifo.length ≤ 15
  dropped : s.dropped = d

section
variable {w t : List UInt8} {d polls : Nat} {s s' : Asclin}

theorem moves_sends : Stable Moves (Sends w t d) := by
  intro s s' h hstep
  cases hstep with
  | @shift b c rest hfifo hsending hbyte =>
    have hstream := h.stream
    have hroom := h.room
    rw [hfifo] at hstream hroom
    refine ⟨h.right, ?_, Nat.le_of_succ_le hroom, h.dropped⟩
    rw [hbyte h.right, List.append_assoc]
    exact hstream
  | clock => exact ⟨h.right, h.stream, h.room, h.dropped⟩

theorem moves_room : Stable Moves fun s => s.fifo.length < 15 := by
  intro s s' h hstep
  cases hstep with
  | shift hfifo =>
    rw [hfifo] at h
    exact Nat.lt_of_succ_lt h
  | clock => exact h

theorem hasSpace_iff {r : UInt32} {n : Nat} (hlevel : (r >>> 16) &&& 0x1F = UInt32.ofNat n)
    (hn : n ≤ DEPTH) : hasSpace r = true ↔ n < 15 := by
  have h15 : (15 : UInt32).toNat = 15 := rfl
  have hsmall : n < 2 ^ 32 := Nat.lt_of_le_of_lt hn (by decide)
  simp only [hasSpace, decide_eq_true_iff, hlevel, UInt32.lt_iff_toNat_lt, h15,
    UInt32.toNat_ofNat_of_lt' hsmall]

/-- The level that is read leaves room for a byte. -/
theorem wp_space (h : Sends w t d s) :
    (wait .space A_TXFIFOCON hasSpace polls).wp console
      (fun _ s' => Sends w t d s' ∧ s'.fifo.length < 15)
      (fun e s' => e = .space ∧ Sends w t d s') s := by
  apply wp_wait moves_sends ?_ ?_ polls h
  · intro r s hs ⟨_, hlevel, _⟩ hready
    have hdepth : s.fifo.length ≤ DEPTH := Nat.le_succ_of_le hs.room
    exact ⟨hs, (hasSpace_iff (hlevel rfl hdepth) hdepth).mp hready⟩
  · exact fun s hs => ⟨rfl, hs⟩

theorem write_data {c : UInt8} (h : Sends w t d s) (hroom : s.fifo.length < 15) :
    Sends w (t ++ [c]) d (s.write A_TXDATA c.toUInt32) := by
  have henabled : Enabled s.regs := by simp [Enabled, h.right.1]
  have hother : A_TXDATA ≠ A_CLC ∧ A_TXDATA ≠ P14_0_DRVCFG := by decide
  have hregs : writeRegs s.regs A_TXDATA c.toUInt32 = s.regs := by simp [writeRegs, hother]
  have hdepth : s.fifo.length < DEPTH := Nat.lt_succ_of_lt hroom
  have hwrite : s.write A_TXDATA c.toUInt32 = { s with fifo := s.fifo ++ [c] } := by
    simp [Asclin.write, henabled, hregs, hdepth]
  rw [hwrite]
  refine ⟨h.right, ?_, ?_, h.dropped⟩
  · rw [← List.append_assoc, h.stream, List.append_assoc]
  · rw [List.length_append]
    exact hroom

end

/-- A program that sends `u`, or waits in the middle of it. -/
def Prints {α : Type} (p : Waiting α) (u : List UInt8) : Prop :=
  ∀ w t d s, Sends w t d s → p.wp console (fun _ s' => Sends w (t ++ u) d s')
    (fun e s' => e = .space ∧ ∃ v, v <+: u ∧ Sends w (t ++ v) d s') s

section
variable {α β : Type} {polls : Nat}

theorem prints_ret (a : α) : Prints (pure a) [] := by
  intro w t d s h
  rw [List.append_nil]
  exact h

theorem Prints.bind {p : Waiting α} {f : α → Waiting β} {u v : List UInt8} (hp : Prints p u)
    (hf : ∀ a, Prints (f a) v) : Prints (p >>= f) (u ++ v) := by
  intro w t d s h
  rw [wp_bind]
  apply wp_mono _ ?_ ?_ (hp w t d s h)
  · intro a s' h'
    apply wp_mono _ ?_ ?_ (hf a w (t ++ u) d s' h')
    · intro _ s'' h''
      rw [← List.append_assoc]
      exact h''
    · intro e s'' ⟨he, x, hx, h''⟩
      refine ⟨he, u ++ x, (List.prefix_append_right_inj u).mpr hx, ?_⟩
      rw [← List.append_assoc]
      exact h''
  · intro e s' ⟨he, x, hx, h'⟩
    exact ⟨he, x, hx.trans (List.prefix_append u v), h'⟩

theorem prints_putc (c : UInt8) : Prints (uartPutc polls c) [c] := by
  intro w t d s h
  rw [uartPutc, wp_bind]
  apply wp_mono _ ?_ ?_ (wp_space h)
  · intro _ s₁ ⟨hs₁, hroom⟩ u s₂ hE
    -- the transmitter only makes more room
    obtain ⟨s₃, ⟨hs₃, hroom₃⟩, rfl⟩ := interleave_cases (moves_sends.and moves_room) ⟨hs₁, hroom⟩ hE
    exact write_data hs₃ hroom₃
  · intro e s₁ ⟨he, hs₁⟩
    refine ⟨he, [], List.nil_prefix, ?_⟩
    rw [List.append_nil]
    exact hs₁

theorem prints_putText (c : UInt8) : Prints (putText polls c) (crlf [c]) := by
  unfold putText
  split
  · rename_i hlf
    subst hlf
    exact (prints_putc CR).bind fun _ => prints_putc LF
  · rename_i hother
    simpa [crlf, hother] using prints_putc c

theorem prints_putAll (s : List UInt8) : Prints (putAll polls s) (crlf s) := by
  induction s with
  | nil => exact prints_ret ()
  | cons c s ih =>
    rw [← List.singleton_append, crlf_append]
    exact (prints_putText c).bind fun _ => ih

theorem prints_call (c : Call) : Prints (c.run polls) (crlf c.text) := by
  cases c with
  | puts s =>
    rw [Call.run, uartPuts_eq]
    exact prints_putAll _
  | write fd buf len =>
    have hall : Prints (putAll polls (buf.take len.toNat)) _ := prints_putAll _
    have hwrite := (hall.bind fun _ => prints_ret len).bind fun _ => prints_ret ()
    rw [List.append_nil, List.append_nil] at hwrite
    exact hwrite

theorem prints_runAll (calls : List Call) : Prints (runAll polls calls) (crlf (texts calls)) := by
  induction calls with
  | nil => exact prints_ret ()
  | cons c cs ih =>
    rw [texts, List.flatMap_cons, crlf_append]
    exact (prints_call c).bind fun _ => ih

end

/-! ## The setup -/

/-- In the middle of the setup, which began in `s₀`. The registers are `r`, and `empty` says
that the FIFO has been flushed. -/
structure Begun (s₀ : Asclin) (r : UInt32 → UInt32) (empty : Prop) (s : Asclin) : Prop where
  regs : s.regs = r
  wire : s₀.wire <+: s.wire
  kept : s₀.fifo = [] → s.fifo = [] ∧ s.wire = s₀.wire
  flushed : empty → s.fifo = []
  dropped : s.dropped = s₀.dropped

section
variable {s₀ : Asclin} {r : UInt32 → UInt32} {empty : Prop} {s : Asclin}

theorem moves_begun : Stable Moves (Begun s₀ r empty) := by
  intro s s' h hstep
  cases hstep with
  | @shift b c rest hfifo hsending hbyte =>
    have hsome : s.fifo ≠ [] := by simp [hfifo]
    exact ⟨h.regs, h.wire.trans (List.prefix_append _ _),
      fun hnone => absurd (h.kept hnone).1 hsome, fun hempty => absurd (h.flushed hempty) hsome,
      h.dropped⟩
  | clock => exact ⟨h.regs, h.wire, h.kept, h.flushed, h.dropped⟩

/-- A store that is no data. -/
theorem Begun.write (h : Begun s₀ r empty s) {a v : UInt32} (ha : a ≠ A_TXDATA) :
    Begun s₀ (writeRegs r a v) (empty ∨ Enabled r ∧ a = A_TXFIFOCON ∧ v &&& bit 0 ≠ 0)
      (s.write a v) := by
  obtain ⟨rfl, hwire, hkept, hflushed, hdropped⟩ := h
  have hfifo : (s.write a v).fifo =
      if Enabled s.regs ∧ a = A_TXFIFOCON ∧ v &&& bit 0 ≠ 0 then [] else s.fifo := by
    simp [Asclin.write, ha]
  refine ⟨rfl, hwire, fun hnone => ⟨?_, (hkept hnone).2⟩, ?_, ?_⟩
  · simp [hfifo, (hkept hnone).1]
  · rintro (hempty | hflush)
    · simp [hfifo, hflushed hempty]
    · rw [hfifo, if_pos hflush]
  · simpa [Asclin.write, ha] using hdropped

theorem Begun.mono {empty' : Prop} (h : Begun s₀ r empty s) (hempty : empty' → empty) :
    Begun s₀ r empty' s :=
  ⟨h.regs, h.wire, h.kept, fun h' => h.flushed (hempty h'), h.dropped⟩

variable {Q : Unit → Asclin → Prop} {X : Waits → Asclin → Prop} {a v : UInt32}

theorem wp_begun (ha : a ≠ A_TXDATA) (h : Begun s₀ r empty s)
    (hQ : ∀ s', Begun s₀ (writeRegs r a v) empty s' → Q () s') : (store a v).wp console Q X s := by
  intro u s' hE
  obtain ⟨s₁, hs₁, rfl⟩ := interleave_cases moves_begun h hE
  exact hQ _ ((hs₁.write ha).mono .inl)

theorem wp_flush (henabled : Enabled r) (hv : v &&& bit 0 ≠ 0) (h : Begun s₀ r empty s)
    (hQ : ∀ s', Begun s₀ (writeRegs r A_TXFIFOCON v) True s' → Q () s') :
    (store A_TXFIFOCON v).wp console Q X s := by
  intro u s' hE
  obtain ⟨s₁, hs₁, rfl⟩ := interleave_cases moves_begun h hE
  exact hQ _ ((hs₁.write (by decide)).mono fun _ => .inr ⟨henabled, rfl, hv⟩)

theorem wp_storeAll {ws : List (UInt32 × UInt32)} (hws : ∀ x ∈ ws, x.1 ≠ A_TXDATA)
    (h : Begun s₀ r empty s) : (storeAll ws).wp console
      (fun _ s' => Begun s₀ (ws.foldl (fun r x => writeRegs r x.1 x.2) r) empty s') X s := by
  induction ws generalizing r s with
  | nil => exact h
  | cons x ws ih =>
    rw [storeAll, wp_bind]
    apply wp_begun (hws x List.mem_cons_self) h
    exact fun s' h' => ih (fun y hy => hws y (List.mem_cons_of_mem _ hy)) h'

/-- The registers before the clock is turned on. -/
def framed (r : UInt32 → UInt32) : UInt32 → UInt32 :=
  FRAME.foldl (fun r x => writeRegs r x.1 x.2) (writeRegs r A_CLC 0)

/-- The registers after the setup. -/
def setUp (r : UInt32 → UInt32) : UInt32 → UInt32 :=
  writeRegs (writeRegs (writeRegs (framed r) A_TXFIFOCON TXFIFOCON_VALUE) A_CSR 2) P14_0_DRVCFG 0x21

theorem framed_enabled (r : UInt32 → UInt32) : Enabled (framed r) := by
  simp [framed, FRAME, writeRegs, SETTINGS, Enabled, A_CLC, A_CSR, A_FRAMECON, A_BITCON, A_BRG,
    A_DATCON, A_TXDATA, P14_0_DRVCFG]

theorem setUp_right {c : Asclin} {r : UInt32 → UInt32} (h : c.regs = setUp r) : c.Right := by
  simp [Asclin.Right, h, setUp, framed, FRAME, writeRegs, SETTINGS, Enabled, A_CLC, A_CSR,
    A_FRAMECON, A_BITCON, A_BRG, A_DATCON, A_TXFIFOCON, A_TXDATA, P14_0_DRVCFG]

theorem clock_selected (r : UInt32 → UInt32) :
    writeRegs (writeRegs (framed r) A_TXFIFOCON TXFIFOCON_VALUE) A_CSR 2 A_CSR = 2 := by
  simp [framed, FRAME, writeRegs, SETTINGS, Enabled, A_CLC, A_CSR, A_FRAMECON, A_BITCON, A_BRG,
    A_DATCON, A_TXFIFOCON, A_TXDATA, P14_0_DRVCFG]

theorem wp_uartInit (s₀ : Asclin) (polls : Nat) :
    (uartInit polls).wp console (fun _ s => Begun s₀ (setUp s₀.regs) True s)
      (fun e s => e = .clock ∧ s.dropped = s₀.dropped ∧ s.regs A_CSR = 2) s₀ := by
  have hstart : Begun s₀ s₀.regs False s₀ := ⟨rfl, List.prefix_rfl, fun h => ⟨h, rfl⟩, nofun, rfl⟩
  have hframe : ∀ x ∈ FRAME, x.1 ≠ A_TXDATA := by
    simp [FRAME, A_CSR, A_FRAMECON, A_BITCON, A_BRG, A_DATCON, A_TXDATA]
  rw [uartInit, wp_bind]
  apply wp_begun (by decide) hstart
  intro s₁ h₁
  rw [wp_bind]
  intro v s₂ hE
  obtain ⟨_, h₂, rfl, -⟩ := interleave_cases moves_begun h₁ hE
  show (storeAll FRAME >>= _ : Waiting Unit).wp _ _ _ _
  rw [wp_bind]
  apply wp_mono _ ?_ (fun _ _ h => h) (wp_storeAll hframe h₂)
  intro _ s₃ h₃
  rw [wp_bind]
  apply wp_flush (framed_enabled s₀.regs) (by decide) h₃
  intro s₄ h₄
  rw [wp_bind]
  apply wp_begun (by decide) h₄
  intro s₅ h₅
  rw [wp_bind]
  apply wp_wait moves_begun ?_ ?_ polls h₅
  · intro r s h _ _
    apply wp_begun (by decide) h
    exact fun s' h' => h'
  · intro s h
    refine ⟨rfl, h.dropped, ?_⟩
    rw [h.regs]
    exact clock_selected s₀.regs

/-- After the setup nothing has been sent. -/
theorem Begun.sends (h : Begun s₀ (setUp s₀.regs) True s) : Sends s.wire [] s₀.dropped s := by
  refine ⟨setUp_right h.regs, ?_, ?_, h.dropped⟩
  · rw [h.flushed trivial]
  · simp [h.flushed trivial]

end

/-! ## The console -/

/-- `u` has been sent since `s`, behind what the transmitter had before, and nothing was
dropped. -/
def Sent (s : Asclin) (u : List UInt8) (s' : Asclin) : Prop :=
  s'.dropped = s.dropped ∧ s'.fifo.length ≤ 15 ∧
    ∃ w, s.wire <+: w ∧ (s.fifo = [] → w = s.wire) ∧ s'.wire ++ s'.fifo = w ++ u

/-- What is still to be waited for will come. -/
def Goes (s : Asclin) (P : Asclin → Prop) : Prop := ∃ s', ReflTransGen Moves s s' ∧ P s'

section
variable {w t : List UInt8} {d : Nat} {s : Asclin}

theorem Sends.goes (h : Sends w t d s) : Goes s fun s' => Sends w t d s' ∧ s'.fifo = [] := by
  apply exists_arrival (fun s => s.fifo.length + (if s.on then 0 else 1)) ?_ s h
  intro s hs hsome
  have heno : TXFIFOCON_VALUE &&& bit 1 ≠ 0 := by decide
  obtain ⟨-, -, -, -, -, hcon, hcsr, -⟩ := hs.right
  cases hon : s.on with
  | true =>
    obtain ⟨b, rest, hfifo⟩ := List.exists_cons_of_ne_nil hsome
    have hsending : s.Sending := ⟨hon, by rwa [hcon]⟩
    have hstep : Moves s _ := .shift hfifo hsending fun _ => rfl
    exact ⟨_, hstep, moves_sends s _ hs hstep, by simp [hfifo, hon]⟩
  | false => exact ⟨_, .clock, moves_sends s _ hs .clock, by simp [hcsr]⟩

end

/-- What a session ends in. -/
def Ends (s : Asclin) (calls : List Call) (s' : Asclin) : Except Waits Unit → Prop
  | .ok _ => Sent s (crlf (texts calls)) s' ∧ unCrlf (crlf (texts calls)) = texts calls
  | .error .space => ∃ v, v <+: crlf (texts calls) ∧ Sent s v s' ∧ Goes s' fun t => t.fifo = []
  | .error .clock => s'.dropped = s.dropped ∧ Goes s' fun t => t.on = true

theorem Sends.sent {s₀ s s' : Asclin} {u : List UInt8} {r : UInt32 → UInt32}
    (hbegun : Begun s₀ r True s) (h : Sends s.wire ([] ++ u) s₀.dropped s') : Sent s₀ u s' :=
  ⟨h.dropped, h.room, s.wire, hbegun.wire, fun hnone => (hbegun.kept hnone).2, h.stream⟩

theorem wp_session (polls : Nat) (calls : List Call) (s : Asclin) :
    (session polls calls).wp console (fun _ s' => Ends s calls s' (.ok ()))
      (fun e s' => Ends s calls s' (.error e)) s := by
  rw [session, wp_bind]
  apply wp_mono _ ?_ ?_ (wp_uartInit s polls)
  · intro _ s₁ hbegun
    apply wp_mono _ ?_ ?_ (prints_runAll calls s₁.wire [] s.dropped s₁ hbegun.sends)
    · exact fun _ s' h => ⟨h.sent hbegun, unCrlf_crlf _⟩
    · rintro _ s' ⟨rfl, v, hv, h⟩
      obtain ⟨t, hsteps, ht⟩ := h.goes
      exact ⟨v, hv, h.sent hbegun, t, hsteps, ht.2⟩
  · rintro _ s' ⟨rfl, hdropped, hcsr⟩
    exact ⟨hdropped, _, .single .clock, by simp [hcsr]⟩

/-- However the transmitter and the CPU interleave: the text goes out as it is, once and in
order, with its line ends, and the FIFO never overflows. A CPU that still waits has sent a
prefix, and what it waits for will come. -/
theorem console_stream (polls : Nat) (calls : List Call) (s : Asclin) (x : Except Waits Unit)
    (s' : Asclin) (hrun : Runs console (session polls calls) s x s') : Ends s calls s' x := by
  obtain ⟨hok, herror⟩ := hrun.sound _ (wp_session polls calls s)
  cases x with
  | ok u => exact hok u rfl
  | error e => exact herror e rfl

/-! A run in which the transmitter sends a byte before each load. -/

namespace Asclin

def tick (s : Asclin) : Asclin :=
  let s := { s with on := s.regs A_CSR != 0 }
  match s.fifo with
  | [] => s
  | b :: rest =>
    if s.on = true ∧ s.regs A_TXFIFOCON &&& bit 1 ≠ 0 then
      { s with fifo := rest, wire := s.wire ++ [b] }
    else s

def answer (s : Asclin) (a : UInt32) : UInt32 :=
  if a = A_TXFIFOCON then UInt32.ofNat s.fifo.length <<< 16
  else if a = A_CSR then if s.on then 0x80000000 else 0
  else s.regs a

def serve (s : Asclin) : (o : MmioSig.Op) → MmioSig.Res o × Asclin
  | .read a => (s.tick.answer a, s.tick)
  | .write a v => ((), s.write a v)

end Asclin

theorem tick_moves (s : Asclin) : ReflTransGen Moves s s.tick := by
  have hclock : ReflTransGen Moves s { s with on := s.regs A_CSR != 0 } := .single .clock
  unfold Asclin.tick
  dsimp only
  split
  · exact hclock
  · rename_i b rest hfifo
    split
    · rename_i hsending
      exact hclock.tail (.shift hfifo hsending fun _ => rfl)
    · exact hclock

theorem console_serve (s : Asclin) (o : MmioSig.Op) : console s o (s.serve o).1 (s.serve o).2 := by
  cases o with
  | write a v => exact ⟨s, .refl, rfl⟩
  | read a =>
    refine ⟨s.tick, tick_moves s, rfl, ?_, ?_⟩
    · rintro rfl hdepth
      show (UInt32.ofNat s.tick.fifo.length <<< 16 >>> 16) &&& 0x1F = _
      generalize s.tick.fifo.length = n at hdepth
      have hn : n < 17 := Nat.lt_succ_of_le hdepth
      decide +revert
    · rintro rfl
      show (if s.tick.on then 0x80000000 else 0 : UInt32) &&& 0x80000000 ≠ 0 ↔ _
      cases s.tick.on with
      | true => decide
      | false => decide

/-- Two prints after a reset, when the module is off. -/
theorem console_stream_two : ∃ x s', x = .ok () ∧
    Ends ⟨fun _ => 3, false, [], [], 0⟩ [.puts [72, 105, LF, 0], .write 1 [LF, 33] 2] s' x := by
  have hrun := runs_exec console Asclin.serve console_serve
    (session 2 [.puts [72, 105, LF, 0], .write 1 [LF, 33] 2]) ⟨fun _ => 3, false, [], [], 0⟩
  exact ⟨_, _, rfl, console_stream 2 _ _ _ _ hrun⟩

end OpenTricore.Uart
