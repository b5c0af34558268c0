import OpenTricore.Rsp
import OpenTricore.Tcmcd

/-! The state and the services of the GDB stub, `tools/tc-gdbserver/main.c`:
threads, execution control, hardware triggers and the flash buffer. The stub asks
its surroundings for packets, for target accesses and for run control. The
globals are one record that the handlers pass on. -/

namespace OpenTricore
open Lib

def NREG : Nat := 44
def BUFSZ : Nat := 0x4000
def NCORE : Nat := 8
def MAX_BP : Nat := 16

/-! ## What the stub asks of its surroundings -/

inductive TrigType
  | ip
  | write
  | read
  | rw
  deriving DecidableEq, Repr

inductive TrigOption
  | default
  deriving DecidableEq, Repr

inductive TrigAction
  | dbgDebug
  deriving DecidableEq, Repr

/-- An `mcd_trig_simple_core_st`, with the fields the stub fills in. -/
structure McdTrig where
  type : TrigType
  option : TrigOption
  action : TrigAction
  addrStart : McdAddr
  addrRange : UInt32
  deriving DecidableEq, Repr

/-- An `mcd_core_state_et`, as far as the stub looks. -/
inductive McdCoreState
  | running
  | other
  deriving DecidableEq, Repr

inductive StubOp
  | bus (o : BusOp)
  | getPacket (buf : List UInt8)
  | putPacket (data : List UInt8)
  | sockHasByte
  | readByte
  | qryState (core : Core)
  | stop (core : Core)
  | run (core : Core)
  | step (core : Core)
  | createTrig (core : Core) (t : McdTrig)
  | activateTrigSet (core : Core)
  | removeTrig (core : Core) (id : UInt32)
  | malloc (size : UInt32)
  deriving DecidableEq, Repr

/-- A call of the MCD library succeeds (`true` or `some`) or fails. Fresh memory
holds anything. -/
abbrev StubSig : Sig where
  Op := StubOp
  Res
    | .bus o => BusSig.Res o
    | .getPacket _ => Int × List UInt8
    | .putPacket _ => Int
    | .sockHasByte => Bool
    | .readByte => Option UInt8
    | .qryState _ => Option McdCoreState
    | .stop _ => Bool
    | .run _ => Bool
    | .step _ => Bool
    | .createTrig _ _ => Option UInt32
    | .activateTrigSet _ => Bool
    | .removeTrig _ _ => Bool
    | .malloc _ => Nat → UInt8

abbrev StubProg := Prog StubSig Abort

def ask (o : StubOp) : StubProg (StubSig.Res o) := Prog.perform (S := StubSig) o

/-- A program of the access layer, run by the stub. -/
def onBus {α : Type} (p : Bus α) : StubProg α :=
  Prog.lift (T := StubSig) .bus (fun _ r => r) p

theorem onBus_bind {α β : Type} (p : Bus α) (q : α → Bus β) :
    onBus (p >>= q) = (onBus p >>= fun a => onBus (q a)) :=
  Prog.lift_bind (S := BusSig) (T := StubSig) StubOp.bus (fun _ r => r) p q

abbrev sockHasByte : StubProg Bool := ask .sockHasByte
abbrev sockRead : StubProg (Option UInt8) := ask .readByte
abbrev mcdQryState (core : Core) : StubProg (Option McdCoreState) := ask (.qryState core)
abbrev mcdStop (core : Core) : StubProg Bool := ask (.stop core)
abbrev mcdRun (core : Core) : StubProg Bool := ask (.run core)
abbrev mcdStep (core : Core) : StubProg Bool := ask (.step core)
abbrev mcdCreateTrig (core : Core) (t : McdTrig) : StubProg (Option UInt32) :=
  ask (.createTrig core t)
abbrev mcdActivateTrigSet (core : Core) : StubProg Bool := ask (.activateTrigSet core)
abbrev mcdRemoveTrig (core : Core) (id : UInt32) : StubProg Bool := ask (.removeTrig core id)
abbrev malloc (size : UInt32) : StubProg (Nat → UInt8) := ask (.malloc size)

/-- `rsp_put_packet`, and `rsp_put_str` for a text without a NUL. No caller looks
at the result. -/
def putPacket (data : List UInt8) : StubProg Unit := do
  let _ ← ask (.putPacket data)
  return ()

@[simp] theorem wp_stubAsk {σ : Type} (E : Env StubSig σ) {X : Abort → σ → Prop} (o : StubOp)
    {Q : StubSig.Res o → σ → Prop} (s : σ) :
    (ask o).wp E Q X s ↔ ∀ r s', E s o r s' → Q r s' := Iff.rfl

/-- What is known of a program of the access layer holds when the stub runs it,
if the accesses of the stub are those of the environment it is known in. -/
theorem wp_onBus {σ τ α : Type} {E : Env BusSig σ} {E' : Env StubSig τ} (R : σ → τ → Prop)
    (hR : ∀ s t o r t', R s t → E' t (.bus o) r t' → ∃ s', E s o r s' ∧ R s' t')
    {Q : α → σ → Prop} {X : Abort → σ → Prop} {p : Bus α} {s : σ} {t : τ}
    (h : R s t) (hp : p.wp E Q X s) :
    (onBus p).wp E' (fun a t' => ∃ s', R s' t' ∧ Q a s')
    (fun e t' => ∃ s', R s' t' ∧ X e s') t := by
  refine (Prog.wp_lift (T := StubSig) E' StubOp.bus (fun _ r => r) p t).mpr ?_
  refine Prog.wp_sim R ?_ h hp
  rintro s t o r t' hst ⟨r, rfl, ht⟩
  exact hR s t o r t' hst ht

/-- Surroundings in which the accesses go as in `E`, the replies are recorded, and
every other question may be answered in any way. -/
def replying {σ : Type} (E : Env BusSig σ) : Env StubSig (σ × List (List UInt8))
  | x, .bus o, r, y => E x.1 o r y.1 ∧ y.2 = x.2
  | x, .putPacket data, _, y => y = (x.1, x.2 ++ [data])
  | x, _, _, y => y = x

section
variable {σ : Type} {E : Env BusSig σ} {X : Abort → σ × List (List UInt8) → Prop}

@[simp] theorem wp_putPacket_replying {Q : Unit → σ × List (List UInt8) → Prop}
    (data : List UInt8) (x : σ × List (List UInt8)) :
    (putPacket data).wp (replying E) Q X x ↔ Q () (x.1, x.2 ++ [data]) := by
  simp only [putPacket, Prog.wp_bind, Prog.pure_eq]
  constructor
  · exact fun h => h (0 : Int) _ rfl
  · rintro h r _ rfl
    exact h

@[simp] theorem wp_malloc_replying {Q : (Nat → UInt8) → σ × List (List UInt8) → Prop}
    (size : UInt32) (x : σ × List (List UInt8)) :
    (malloc size).wp (replying E) Q X x ↔ ∀ garbage, Q garbage x := by
  constructor
  · exact fun h garbage => h garbage x rfl
  · rintro h r _ rfl
    exact h r

theorem wp_onBus_replying {α : Type} {Q : α → σ → Prop} {XB : Abort → σ → Prop} {p : Bus α} {s : σ}
    (out : List (List UInt8)) (hp : p.wp E Q XB s) :
    (onBus p).wp (replying E) (fun a y => Q a y.1 ∧ y.2 = out) (fun e y => XB e y.1 ∧ y.2 = out)
      (s, out) := by
  refine Prog.wp_mono _ ?_ ?_ (wp_onBus (fun s x => x = (s, out)) ?_ rfl hp)
  · rintro a _ ⟨s', rfl, h⟩
    exact ⟨h, rfl⟩
  · rintro e _ ⟨s', rfl, h⟩
    exact ⟨h, rfl⟩
  · rintro s _ o r y rfl ⟨h, hout⟩
    exact ⟨y.1, h, Prod.ext rfl hout⟩

end

theorem replying_mono {σ : Type} {E E' : Env BusSig σ}
    (hE : ∀ s o r s', E s o r s' → E' s o r s') {x y : σ × List (List UInt8)} {o : StubOp}
    {r : StubSig.Res o} (h : replying E x o r y) : replying E' x o r y := by
  cases o with
  | bus o => exact ⟨hE _ _ _ _ h.1, h.2⟩
  | _ => exact h

/-- What the accesses in `P` keep is kept by a program that makes no others, whatever it
replies. -/
theorem asks_replying {σ α : Type} {E : Env BusSig σ} {P : StubSig.Op → Prop} {R : α → Prop}
    {p : StubProg α} (hp : p.Asks P R) (I : σ → Prop)
    (hI : ∀ s (o : BusOp) r s', P (.bus o) → I s → E s o r s' → I s') {s : σ} (hs : I s)
    (out : List (List UInt8)) :
    p.wp (replying E) (fun a y => R a ∧ I y.1) (fun _ y => I y.1) (s, out) := by
  apply hp.invariant (fun y : σ × List (List UInt8) => I y.1) _ hs
  intro x o r y ho hx hE
  cases o with
  | bus o => exact hI x.1 o r y.1 ho hx hE.1
  | putPacket data =>
    obtain rfl := hE
    exact hx
  | _ =>
    obtain rfl := hE
    exact hx

/-- One way things can go in `replying`: the accesses are answered by `h`, and every
other call succeeds. -/
def replyingBy {σ : Type} (h : σ → (o : BusOp) → BusSig.Res o × σ) (x : σ × List (List UInt8)) :
    (o : StubOp) → StubSig.Res o × (σ × List (List UInt8))
  | .bus o => ((h x.1 o).1, (h x.1 o).2, x.2)
  | .putPacket data => ((0 : Int), x.1, x.2 ++ [data])
  | .getPacket buf => (((-1 : Int), buf), x)
  | .sockHasByte => (false, x)
  | .readByte => ((none : Option UInt8), x)
  | .qryState _ => ((some .other : Option McdCoreState), x)
  | .stop _ => (true, x)
  | .run _ => (true, x)
  | .step _ => (true, x)
  | .createTrig _ _ => ((some 0 : Option UInt32), x)
  | .activateTrigSet _ => (true, x)
  | .removeTrig _ _ => (true, x)
  | .malloc _ => ((fun _ => 0 : Nat → UInt8), x)

theorem runs_replyingBy {σ α : Type} {E : Env BusSig σ} (h : σ → (o : BusOp) → BusSig.Res o × σ)
    (hE : ∀ s o, E s o (h s o).1 (h s o).2) (p : StubProg α) (x : σ × List (List UInt8)) :
    Prog.Runs (replying E) p x (p.exec (replyingBy h) x).1 (p.exec (replyingBy h) x).2 := by
  refine Prog.runs_exec (replying E) (replyingBy h) ?_ p x
  intro x o
  cases o with
  | bus o => exact ⟨hE x.1 o, rfl⟩
  | _ => rfl

/-! ## The globals -/

/-- What the stub knows of a core: `g_cores`, `g_cmsid`, `g_rega_all` and
`g_regok_all` at its index. -/
structure CoreMap where
  target : Target
  rega : Fin NREG → McdAddr
  regok : Fin NREG → Bool

/-- One hardware trigger. -/
structure BpEntry where
  addr : UInt64
  gtype : Int
  trigId : UInt32
  used : Bool
  deriving DecidableEq, Repr

/-- The flash image accumulated across `vFlashWrite`. -/
structure FlashBuf where
  fbuf : Option (Nat → UInt8)
  fbase : UInt64
  fcap : UInt64
  flen : UInt64

/-- The globals. `active` is `g_core`, `g_msid`, `g_rega` and `g_regok`, and is
kept equal to the map of the selected core. -/
structure Stub where
  ncore : Nat
  all : Nat → CoreMap
  cur : Nat
  active : CoreMap
  bp : Fin MAX_BP → BpEntry
  flash : FlashBuf
  ncore_le : ncore ≤ NCORE
  cur_lt : cur < ncore
  active_eq : active = all cur

def FlashBuf.empty : FlashBuf := ⟨none, 0, 0, 0⟩

/-- The stub as `main` starts it, with core 0 selected. -/
def Stub.start (ncore : Nat) (all : Nat → CoreMap) (h : 0 < ncore ∧ ncore ≤ NCORE) : Stub where
  ncore := ncore
  all := all
  cur := 0
  active := all 0
  bp := fun _ => ⟨0, 0, 0, false⟩
  flash := .empty
  ncore_le := h.2
  cur_lt := h.1
  active_eq := rfl

theorem one_core : 0 < 1 ∧ 1 ≤ NCORE := by decide

theorem two_cores : 0 < 2 ∧ 2 ≤ NCORE := by decide

/-- A stub with a single core. -/
def Stub.lone : Stub :=
  .start 1 (fun _ => ⟨⟨0, 0⟩, fun i => ⟨UInt64.ofNat i, 1⟩, fun _ => true⟩) one_core

def selectThread (s : Stub) (idx : Int) : Stub :=
  if h : idx < 0 ∨ idx ≥ s.ncore then s
  else
    { s with
      cur := idx.toNat
      active := s.all idx.toNat
      cur_lt := by omega
      active_eq := rfl }

/-! ## Registers -/

/-- A failed read leaves the zero the variable was set to. -/
def getReg (s : Stub) (a : McdAddr) : StubProg UInt32 := do
  let v : Option UInt32 ← ask (.bus (.read s.active.target.core a))
  match v with
  | some v => return v
  | none => return 0

def setReg (s : Stub) (a : McdAddr) (v : UInt32) : StubProg Unit := do
  let ok : Bool ← ask (.bus (.write s.active.target.core a v))
  if ok then return () else Prog.fail (.die "set reg")

def putU32Le (v : UInt32) : List UInt8 :=
  (List.range 4).flatMap fun b =>
    [hexd ((v >>> (b * 8 + 4).toUInt32) &&& 0xF).toNat,
      hexd ((v >>> (b * 8).toUInt32) &&& 0xF).toNat]

def getU32Le (p : List UInt8) : UInt32 :=
  (List.range 4).foldl (fun v b =>
    let hi := UInt32.ofInt (hexval (p.getD (b * 2) 0))
    let lo := UInt32.ofInt (hexval (p.getD (b * 2 + 1) 0))
    v ||| (((hi <<< 4) ||| lo) <<< (b * 8).toUInt32)) 0

/-! ## Execution control -/

/-- `%x`. -/
def printHex (n : Nat) : List UInt8 := (Nat.toDigits 16 n).map fun c => c.toNat.toUInt8

/-- Stop reply naming the current thread. -/
def stopReply (s : Stub) : List UInt8 :=
  bytes "T05thread:" ++ printHex (s.cur + 1) ++ bytes ";"

def reportStop (s : Stub) : StubProg Unit := putPacket (stopReply s)

/-- Honour an out of band Ctrl-C. -/
def pollInterrupt (s : Stub) : StubProg Unit := do
  if ← sockHasByte then
    match ← sockRead with
    | some c => if c = 0x03 then let _ ← mcdStop s.active.target.core
    | none => return ()
  else return ()

/-- Wait for the core to halt, then send the stop reply. -/
def waitAndReport (polls : Nat) (s : Stub) : StubProg Unit := do
  let _ ← Prog.loop .unfinished (fun (_ : Unit) => do
    match ← mcdQryState s.active.target.core with
    | some .running => do
      pollInterrupt s
      return .inl ()
    | _ => return .inr ()) polls ()
  reportStop s

def doContinue (polls : Nat) (s : Stub) : StubProg Unit := do
  if ← mcdRun s.active.target.core then waitAndReport polls s else putPacket (bytes "E01")

def doStep (polls : Nat) (s : Stub) : StubProg Unit := do
  if ← mcdStep s.active.target.core then waitAndReport polls s else putPacket (bytes "E01")

/-! ## Hardware triggers -/

/-- `none` for an unsupported kind. -/
def trigTypeOf (gtype : Int) : Option TrigType :=
  if gtype = 0 ∨ gtype = 1 then some .ip
  else if gtype = 2 then some .write
  else if gtype = 3 then some .read
  else if gtype = 4 then some .rw
  else none

/-- The first table entry in use for the address and kind. -/
def findBp (bp : Fin MAX_BP → BpEntry) (addr : UInt64) (gtype : Int) : Option (Fin MAX_BP) :=
  (List.finRange MAX_BP).find? fun i => (bp i).used && (bp i).addr == addr && (bp i).gtype == gtype

def findFree (bp : Fin MAX_BP → BpEntry) : Option (Fin MAX_BP) :=
  (List.finRange MAX_BP).find? fun i => !(bp i).used

def Stub.setBp (s : Stub) (i : Fin MAX_BP) (e : BpEntry) : Stub :=
  { s with bp := fun j => if j = i then e else s.bp j }

/-- The trigger `trig_set` asks for. -/
def trigFor (s : Stub) (addr : UInt64) (mt : TrigType) (range : UInt32) : McdTrig where
  type := mt
  option := .default
  action := .dbgDebug
  addrStart := ⟨addr, s.active.target.msid⟩
  addrRange := range

def trigSet (s : Stub) (addr : UInt64) (gtype : Int) (range : UInt32) : StubProg (Int × Stub) :=
  match trigTypeOf gtype with
  | none => return (-1, s)
  | some mt =>
    match findBp s.bp addr gtype with
    | some _ => return (0, s)
    | none => do
      match ← mcdCreateTrig s.active.target.core (trigFor s addr mt range) with
      | none => return (-1, s)
      | some id =>
        let _ ← mcdActivateTrigSet s.active.target.core
        match findFree s.bp with
        | some i => return (0, s.setBp i ⟨addr, gtype, id, true⟩)
        | none => return (-1, s)   -- table full

def trigClear (s : Stub) (addr : UInt64) (gtype : Int) : StubProg Stub :=
  match findBp s.bp addr gtype with
  | none => return s
  | some i => do
    let _ ← mcdRemoveTrig s.active.target.core (s.bp i).trigId
    let _ ← mcdActivateTrigSet s.active.target.core
    return s.setBp i { s.bp i with used := false }

/-! ## The flash buffer -/

/-- `while (nc < need) nc *= 2`. After 64 doublings `nc` is zero for good, so
`none` is a loop that never ends. -/
def growCap (need : UInt64) : Nat → UInt64 → Option UInt64
  | 0, nc => if nc < need then none else some nc
  | n + 1, nc => if nc < need then growCap need n (nc * 2) else some nc

/-- The decoded bytes of `d[0..dlen)`. An escape at the end takes the byte behind. -/
def unescape : Nat → List UInt8 → List UInt8
  | 0, _ => []
  | 1, d =>
    if d.getD 0 0 = 0x7d then [d.getD 1 0 ^^^ 0x20] else [d.getD 0 0]
  | n + 2, d =>
    if d.getD 0 0 = 0x7d then (d.getD 1 0 ^^^ 0x20) :: unescape n (d.drop 2)
    else d.getD 0 0 :: unescape (n + 1) (d.drop 1)

/-- `g_fbuf[w++] = b` for each byte. -/
def storeBytes (bs : List UInt8) (w : UInt64) (f : Nat → UInt8) : UInt64 × (Nat → UInt8) :=
  bs.foldl (fun x b => (x.1 + 1, fun i => if i = x.1.toNat then b else x.2 i)) (w, f)

/-- Room for `need` bytes: the block is reallocated and its new part filled. -/
def ensureCap (need fcap : UInt64) (fbuf : Nat → UInt8) : Option (UInt64 × (Nat → UInt8)) :=
  if need > fcap then
    (growCap need 64 fcap).map fun nc =>
      (nc, fun i => if fcap.toNat ≤ i ∧ i < nc.toNat then 0xFF else fbuf i)
  else some (fcap, fbuf)

/-- The buffer a first `vFlashWrite` allocates. -/
def FlashBuf.opened (b : FlashBuf) (addr : UInt64) : FlashBuf × (Nat → UInt8) :=
  match b.fbuf with
  | some f => (b, f)
  | none =>
    let f := fun i => if i < 0x1000 then 0xFF else 0
    (⟨some f, addr, 0x1000, 0⟩, f)

/-- What follows once the header is parsed, `d` pointing at the payload. -/
def flashStore (b : FlashBuf) (addr : UInt64) (d : List UInt8) (dlen : Int) :
    Option (Int × FlashBuf) :=
  if dlen < 0 then some (-1, b)
  else
    let (b, f) := b.opened addr
    if addr < b.fbase then some (-1, b)
    else
      let off := addr - b.fbase
      (ensureCap (off + UInt64.ofNat dlen.toNat) b.fcap f).map fun (cap, f) =>
        let (w, f) := storeBytes (unescape dlen.toNat d) off f
        (0, ⟨some f, b.fbase, cap, if w > b.flen then w else b.flen⟩)

/-- `p` is the whole packet and `n` its length. `none` never returns. -/
def flashWrite (b : FlashBuf) (p : List UInt8) (n : Int) : Option (Int × FlashBuf) :=
  match strchr 58 p with
  | none => some (-1, b)
  | some c1 =>
    match strchr 58 (c1.drop 1) with
    | none => some (-1, b)
    | some c2 =>
      let d := c2.drop 1
      flashStore b (strtoull (c1.drop 1)) d (n - (p.length - d.length : Int))

def flashDone (t : Target) (b : FlashBuf) : Bus (Int × FlashBuf) :=
  match b.fbuf with
  | none => return (0, b)
  | some f => do
    let rc ← tcmcdFlashProgram t b.fbase f b.flen.toUInt32
    return (rc, { b with fbuf := none, fcap := 0, flen := 0 })

end OpenTricore
