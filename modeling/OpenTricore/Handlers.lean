import OpenTricore.Stub

/-! The packet handlers of the GDB stub and its command loop, the second half of
`tools/tc-gdbserver/main.c`. A handler gets the pointer to the packet, which is
the packet, its terminator and what earlier packets left behind it. -/

namespace OpenTricore
open Lib

/-- `comma ? strtoull(comma + 1, NULL, 16) : 0`. -/
def numberAfterComma (p : List UInt8) : UInt64 :=
  match strchr 44 p with
  | some comma => strtoull (comma.drop 1)
  | none => 0

/-! ## Triggers -/

/-- `p[1] - '0'`. -/
def trigKind (p : List UInt8) : Int := (p.getD 1 0).toNat - 48

/-- The length of a watchpoint, from behind the first comma. -/
def trigLen (args : List UInt8) : UInt32 :=
  match strchr 44 args with
  | none => 1
  | some comma2 =>
    let v := strtoull (comma2.drop 1)
    if v ≠ 0 then v.toUInt32 else 1

/-- Parse `type,addr[,len]`. -/
def handle_Z (s : Stub) (p : List UInt8) : StubProg Stub :=
  let type := trigKind p
  match trigTypeOf type with
  | none => do putPacket (bytes ""); return s
  | some _ =>
    match strchr 44 p with
    | none => do putPacket (bytes "E01"); return s
    | some comma => do
      let addr := strtoull (comma.drop 1)
      let len := trigLen (comma.drop 1)
      let range := if type ≥ 2 ∧ len > 0 then len - 1 else 0
      let (rc, s) ← trigSet s addr type range
      putPacket (if rc ≠ 0 then bytes "E01" else bytes "OK")
      return s

def handle_z (s : Stub) (p : List UInt8) : StubProg Stub :=
  let type := trigKind p
  match trigTypeOf type with
  | none => do putPacket (bytes ""); return s
  | some _ =>
    match strchr 44 p with
    | none => do putPacket (bytes "E01"); return s
    | some comma => do
      let s ← trigClear s (strtoull (comma.drop 1)) type
      putPacket (bytes "OK")
      return s

/-! ## Queries -/

def MEMMAP : List UInt8 := bytes
  ("<?xml version=\"1.0\"?>\n" ++
    "<!DOCTYPE memory-map PUBLIC \"+//IDN gnu.org//DTD GDB Memory Map V1.0//EN\"" ++
    " \"http://sourceware.org/gdb/gdb-memory-map.dtd\">\n" ++
    "<memory-map>\n" ++
    "  <memory type=\"flash\" start=\"0xa0000000\" length=\"0x1400000\">\n" ++
    "    <property name=\"blocksize\">0x4000</property>\n" ++
    "  </memory>\n" ++
    "  <memory type=\"ram\" start=\"0x70000000\" length=\"0x40000\"/>\n" ++
    "  <memory type=\"ram\" start=\"0x70100000\" length=\"0x10000\"/>\n" ++
    "</memory-map>\n")

/-- One chunk of a document, `doc` being its text without the terminator. -/
def qxferChunk (doc args : List UInt8) : List UInt8 :=
  let off := strtoull args
  let length := numberAfterComma args
  let doclen := UInt64.ofNat doc.length
  if off ≥ doclen then bytes "l"
  else
    let avail := doclen - off
    let chunk := if length < avail then length else avail
    (if off + chunk ≥ doclen then 108 else 109) :: (doc.drop off.toNat).take chunk.toNat

def qxferReply (doc args : List UInt8) : StubProg Unit := putPacket (qxferChunk doc args)

/-- `m1,2,..`, one number for each core. -/
def threadList (ncore : Nat) : List UInt8 :=
  (List.range ncore).flatMap fun i => (if i = 0 then 109 else 44) :: printHex (i + 1)

def handle_q (s : Stub) (p : List UInt8) : StubProg Unit :=
  if strncmpEq p (bytes "qSupported") then
    putPacket (bytes "PacketSize=1000;qXfer:memory-map:read+")
  else if strncmpEq p (bytes "qXfer:memory-map:read:") then
    match strrchr 58 p with
    | some a => qxferReply MEMMAP (a.drop 1)
    | none => qxferReply MEMMAP [0]
  else if strcmpEq p (bytes "qAttached") then putPacket (bytes "1")
  else if strcmpEq p (bytes "qC") then putPacket (bytes "QC" ++ printHex (s.cur + 1))
  else if strcmpEq p (bytes "qfThreadInfo") then putPacket (threadList s.ncore)
  else if strcmpEq p (bytes "qsThreadInfo") then putPacket (bytes "l")
  else if strncmpEq p (bytes "qSymbol") then putPacket (bytes "OK")
  else putPacket (bytes "")

/-! ## Resuming and flash -/

def Stub.setFlash (s : Stub) (b : FlashBuf) : Stub := { s with flash := b }

def okOr (rc : Int) : List UInt8 := if rc ≠ 0 then bytes "E01" else bytes "OK"

/-- `vCont;`, where the action letter alone is looked at. -/
def vCont (polls : Nat) (s : Stub) (p : List UInt8) : StubProg Unit :=
  let a := p.getD 6 0
  if a = 115 ∨ a = 83 then doStep polls s
  else if a = 99 ∨ a = 67 then doContinue polls s
  else putPacket (bytes "")

def vFlashErase (s : Stub) (p : List UInt8) : StubProg Unit := do
  let a := strtoull (p.drop 12)
  let l := numberAfterComma (p.drop 12)
  let rc ← onBus (tcmcdFlashErase s.active.target a l)
  putPacket (okOr rc)

def vFlashWrite (s : Stub) (p : List UInt8) (n : Int) : StubProg Stub :=
  match flashWrite s.flash p n with
  | none => Prog.fail .hang
  | some (rc, b) => do
    putPacket (okOr rc)
    return s.setFlash b

def vFlashDone (s : Stub) : StubProg Stub := do
  let (rc, b) ← onBus (flashDone s.active.target s.flash)
  putPacket (okOr rc)
  return s.setFlash b

def handle_v (polls : Nat) (s : Stub) (p : List UInt8) (n : Int) : StubProg Stub :=
  if strcmpEq p (bytes "vMustReplyEmpty") then do putPacket (bytes ""); return s
  else if strcmpEq p (bytes "vCont?") then do putPacket (bytes "vCont;c;C;s;S"); return s
  else if strncmpEq p (bytes "vCont;") then do vCont polls s p; return s
  else if strncmpEq p (bytes "vFlashErase:") then do vFlashErase s p; return s
  else if strncmpEq p (bytes "vFlashWrite:") then vFlashWrite s p n
  else if strcmpEq p (bytes "vFlashDone") then vFlashDone s
  else do putPacket (bytes ""); return s

/-! ## Registers -/

def regIndices : List (Fin NREG) := List.finRange NREG

/-- What a register that MCD does not expose is shown as. -/
def unavailable : List UInt8 := List.replicate 8 120

/-- The text of one register. -/
def regText (s : Stub) (i : Fin NREG) : StubProg (List UInt8) :=
  if s.active.regok i then do return putU32Le (← getReg s (s.active.rega i))
  else return unavailable

def regTexts (s : Stub) : List (Fin NREG) → StubProg (List UInt8)
  | [] => return []
  | i :: is => do
    let text ← regText s i
    let rest ← regTexts s is
    return text ++ rest

def handle_g (s : Stub) : StubProg Unit := do
  putPacket (← regTexts s regIndices)

def setRegs (s : Stub) (p : List UInt8) : List (Fin NREG) → StubProg Unit
  | [] => return ()
  | i :: is => do
    if s.active.regok i then setReg s (s.active.rega i) (getU32Le (p.drop (i * 8)))
    setRegs s p is

def handle_G (s : Stub) (p : List UInt8) : StubProg Unit := do
  if strlen p < NREG * 8 then putPacket (bytes "E01")
  else
    setRegs s p regIndices
    putPacket (bytes "OK")

/-- `idx < NREG && g_regok[idx]`. -/
def regAt (s : Stub) (idx : UInt32) : Option (Fin NREG) :=
  if h : idx.toNat < NREG then (if s.active.regok ⟨idx.toNat, h⟩ then some ⟨idx.toNat, h⟩ else none)
  else none

def handle_p (s : Stub) (p : List UInt8) : StubProg Unit :=
  match regAt s (strtoull (p.drop 1)).toUInt32 with
  | some i => do putPacket (putU32Le (← getReg s (s.active.rega i)))
  | none => putPacket unavailable

def handle_P (s : Stub) (p : List UInt8) : StubProg Unit :=
  match strchr 61 p with
  | none => putPacket (bytes "E01")
  | some eq => do
    match regAt s (strtoull (p.drop 1)).toUInt32 with
    | some i => do
      setReg s (s.active.rega i) (getU32Le (eq.drop 1))
      putPacket (bytes "OK")
    | none => putPacket (bytes "OK")

/-! ## Memory -/

def hexOfByte (b : UInt8) : List UInt8 := [hexd (b >>> 4).toNat, hexd (b &&& 0xF).toNat]

/-- The hexadecimal text of the first `len` bytes of `mb`. -/
def hexOfBytes (mb : Nat → UInt8) (len : Nat) : List UInt8 :=
  (List.range len).flatMap fun i => hexOfByte (mb i)

theorem length_hexOfBytes (mb : Nat → UInt8) (n : Nat) : (hexOfBytes mb n).length = 2 * n := by
  induction n with
  | zero => rfl
  | succ n ih =>
    rw [hexOfBytes, List.range_succ, List.flatMap_append, List.length_append]
    rw [hexOfBytes] at ih
    rw [ih]
    simp [hexOfByte]
    omega

def handle_m (s : Stub) (p : List UInt8) : StubProg Unit := do
  let addr := strtoull (p.drop 1)
  let len := (numberAfterComma p).toUInt32
  if len = 0 then putPacket (bytes "")
  else
    let len := min len (UInt32.ofNat ((BUFSZ - 8) / 2))
    let mb ← malloc len
    let (rc, mb) ← onBus (tcmcdRead s.active.target addr mb len)
    putPacket (if rc ≠ 0 then bytes "E01" else hexOfBytes mb len.toNat)

/-- The bytes of `len` pairs of digits, if all are digits. -/
def hexPairs : Nat → List UInt8 → Option (List UInt8)
  | 0, _ => some []
  | n + 1, d =>
    let hi := hexval (d.getD 0 0)
    let lo := hexval (d.getD 1 0)
    if hi < 0 ∨ lo < 0 then none
    else (hexPairs n (d.drop 2)).map ((UInt8.ofInt hi <<< 4 ||| UInt8.ofInt lo) :: ·)

def handle_M (s : Stub) (p : List UInt8) : StubProg Unit :=
  match strchr 44 p, strchr 58 p with
  | some comma, some colon =>
    let addr := strtoull (p.drop 1)
    let len := (strtoull (comma.drop 1)).toUInt32
    match hexPairs len.toNat (colon.drop 1) with
    | none => putPacket (bytes "E01")
    | some mb => do
      let rc ← onBus (tcmcdWrite s.active.target addr (fun i => mb.getD i 0) len)
      putPacket (okOr rc)
  | _, _ => putPacket (bytes "E01")

/-! ## The command loop -/

/-- `H`: the thread that later commands are about. `id` is cut to an `int`. -/
def handle_H (s : Stub) (p : List UInt8) : StubProg Stub := do
  let id := strtol (p.drop 2)
  let s := if id > 0 then selectThread s (Int.bmod id (2 ^ 32) - 1) else s
  putPacket (bytes "OK")
  return s

/-- What the `switch` does with one packet, in its order: `?`, `g`, `G`, `p`, `P`, `m`, `M`,
`q`, `v`, `Z`, `z`, `H`, `T`, `c`, `s`, `D` and `k`. `none` leaves the loop. -/
def dispatch (polls : Nat) (s : Stub) (buf : List UInt8) (n : Int) : StubProg (Option Stub) :=
  let c := buf.getD 0 0
  if c = 63 then do reportStop s; return some s
  else if c = 103 then do handle_g s; return some s
  else if c = 71 then do handle_G s (buf.drop 1); return some s
  else if c = 112 then do handle_p s buf; return some s
  else if c = 80 then do handle_P s buf; return some s
  else if c = 109 then do handle_m s buf; return some s
  else if c = 77 then do handle_M s buf; return some s
  else if c = 113 then do handle_q s buf; return some s
  else if c = 118 then do return some (← handle_v polls s buf n)
  else if c = 90 then do return some (← handle_Z s buf)
  else if c = 122 then do return some (← handle_z s buf)
  else if c = 72 then do return some (← handle_H s buf)
  else if c = 84 then do putPacket (bytes "OK"); return some s
  else if c = 99 then do doContinue polls s; return some s
  else if c = 115 then do doStep polls s; return some s
  else if c = 68 then do putPacket (bytes "OK"); return none
  else if c = 107 then return none
  else do putPacket (bytes ""); return some s

/-- A packet in the receive buffer: its payload, and what stands behind the
terminator. -/
structure Packet where
  payload : List UInt8
  stale : List UInt8

def Packet.buf (p : Packet) : List UInt8 := p.payload ++ 0 :: p.stale

def dispatchPacket (polls : Nat) (s : Stub) (p : Packet) : StubProg (Option Stub) :=
  dispatch polls s p.buf p.payload.length

/-- The packets of a session, one after the other. -/
def dispatchAll (polls : Nat) : Stub → List Packet → StubProg (Option Stub)
  | s, [] => return some s
  | s, p :: ps => do
    match ← dispatchPacket polls s p with
    | some s => dispatchAll polls s ps
    | none => return none

/-- One round of `serve`. -/
def serveRound (polls : Nat) (x : Stub × List UInt8) :
    StubProg ((Stub × List UInt8) ⊕ Unit) := do
  let (s, buf) := x
  let (n, buf) ← ask (.getPacket buf)
  if n = -1 then return .inr ()
  else if n = -2 then
    reportStop s
    return .inl (s, buf)
  else
    match ← dispatch polls s buf n with
    | some s => return .inl (s, buf)
    | none => return .inr ()

/-- `serve`, for at most `rounds` rounds, each waiting for at most `polls` polls. -/
def serve (rounds polls : Nat) (s : Stub) (buf : List UInt8) : StubProg Unit :=
  Prog.loop .unfinished (serveRound polls) rounds (s, buf)

end OpenTricore
