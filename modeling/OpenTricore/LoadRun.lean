import OpenTricore.DataFlash
import OpenTricore.Lib.Interleave
import OpenTricore.Tcmcd

/-! `tc-load run` and `tc-load watch`, of `tools/tc-load/main.c`. The tool and the core it has
started act on one memory at the same time. -/

namespace OpenTricore.LoadRun
open Lib Lib.Prog Relation

/-! ## The tool -/

def FLASH_VIEW_MIN : UInt64 := 0xA0000000
def CHUNK : Nat := 512
def SEED : UInt32 := 0x4D2

/-- `put` and `get` are transfers, and `setPc` and `getPc` those of the PC register, of which
the second has no failure. A file that cannot be read whole is none. -/
inductive RunOp
  | readFile
  | openTarget
  | findPc
  | put (a : UInt64) (bs : List UInt8)
  | get (a : UInt64)
  | setPc (v : UInt32)
  | getPc
  | run
  | stop

abbrev RunSig : Sig where
  Op := RunOp
  Res
    | .readFile => Option (List UInt8)
    | .openTarget => Bool
    | .findPc => Bool
    | .put .. => Bool
    | .get _ => Option UInt32
    | .setPc _ => Bool
    | .getPc => UInt32
    | .run => Bool
    | .stop => Bool

abbrev Load := Prog RunSig Abort

def ask (o : RunOp) : Load (RunSig.Res o) := Prog.perform (S := RunSig) o

/-- `if (..) die(what, 0)`. -/
def need (what : String) (done : Bool) : Load Unit :=
  if done then return () else .fail (.die what)

def rd32 (a : UInt64) : Load UInt32 := do
  match ← ask (.get a) with
  | none => .fail (.die "rd32")
  | some v => return v

def writeAll (what : String) : List (UInt64 × List UInt8) → Load Unit
  | [] => return ()
  | (a, bs) :: ws => do
    need what (← ask (.put a bs))
    writeAll what ws

/-- The chunks of the image, at `load + off` for `off = 0, CHUNK, ..`. -/
def chunks (load : UInt64) (img : List UInt8) : List (UInt64 × List UInt8) :=
  (List.range ((img.length + CHUNK - 1) / CHUNK)).map fun k =>
    (load + UInt64.ofNat (k * CHUNK), (img.drop (k * CHUNK)).take CHUNK)

/-- `argv[4]` and what follows it. -/
inductive Mode
  | proofs
  | dump (a : UInt64)
  | free

/-- The words that are written before the start. -/
def Mode.seeds : Mode → List (UInt64 × UInt32)
  | .dump a => [(a, 0)]
  | _ => [(0x70000000, 0), (0x70000004, 0), (0x7000000C, 0), (0x70000008, SEED)]

structure Proofs where
  pcNow : UInt32
  hb1 : UInt32
  hb2 : UInt32
  result : UInt32
  marker : UInt32

/-! The conditions of the four lines that are printed. -/

namespace Proofs

def parked (load : UInt64) (sz : Nat) (p : Proofs) : Bool :=
  load ≤ p.pcNow.toUInt64 && p.pcNow.toUInt64 < load + UInt64.ofNat sz

def response (p : Proofs) : Bool := p.result == SEED * 7 + 3
def moving (p : Proofs) : Bool := p.hb2 != p.hb1
def done (p : Proofs) : Bool := p.marker == 0xC0DECAFE

end Proofs

inductive Outcome
  | code (rc : Int)
  | running
  | captured (pcNow : UInt32) (text : List UInt8)
  | proofs (p : Proofs)
  | rate (v : UInt64)

/-- Seeds, PC and start. -/
def launch (load : UInt64) (seeds : List (UInt64 × UInt32)) : Load Unit := do
  writeAll "wr32" (seeds.map fun w => (w.1, wordBytes w.2))
  need "set reg" (← ask (.setPc load.toUInt32))
  need "run" (← ask .run)

/-- From `open_target` to the start. -/
def bringUp (load : UInt64) (ws : List (UInt64 × List UInt8)) (seeds : List (UInt64 × UInt32)) :
    Load Unit := do
  need "open_target" (← ask .openTarget)
  need "PC register not found" (← ask .findPc)
  writeAll "write image chunk" ws
  launch load seeds

/-- The bytes that the dump prints. -/
def capture (a : UInt64) : List Nat → Load (List UInt8)
  | [] => return []
  | i :: is => do
    let w ← rd32 (a + 4 + UInt64.ofNat (i / 4 * 4))
    return byteOf w (i % 4) :: (← capture a is)

/-- What follows the start. -/
def report : Mode → Load Outcome
  | .free => return .running
  | .dump a => do
    need "stop" (← ask .stop)
    let pcNow ← ask .getPc
    let cnt ← rd32 a
    return .captured pcNow (← capture a (List.range (min cnt.toNat 4096)))
  | .proofs => do
    let hb1 ← rd32 0x70000000
    let hb2 ← rd32 0x70000000
    need "stop" (← ask .stop)
    let pcNow ← ask .getPc
    let result ← rd32 0x70000004
    let marker ← rd32 0x7000000C
    return .proofs ⟨pcNow, hb1, hb2, result, marker⟩

/-- `load` is `argv[3]` as `strtoull` reads it. -/
def cmdRun (argc : Nat) (load : UInt64) (mode : Mode) : Load Outcome :=
  if argc < 4 then return .code 2
  else do
    match ← ask .readFile with
    | none => return .code 1
    | some img =>
      bringUp load (if load < FLASH_VIEW_MIN then chunks load img else []) mode.seeds
      report mode

/-- The end of `watch`: a failure to stop goes unnoticed. -/
def sample (counter : UInt64) (ms : Int) : Load Outcome := do
  let v0 ← rd32 counter
  let v1 ← rd32 counter
  let _ ← ask .stop
  return .rate ((v1 - v0).toUInt64 * 1000 / (if ms = 0 then 1 else UInt64.ofInt ms))

/-- The image is written wherever it goes. -/
def cmdWatch (argc : Nat) (load counter : UInt64) (ms : Int) : Load Outcome :=
  if argc < 6 then return .code 2
  else do
    match ← ask .readFile with
    | none => return .code 1
    | some img =>
      bringUp load (chunks load img) [(counter, 0)]
      sample counter ms

/-! ## The board -/

abbrev CoreProg := DataFlash.Mmio UInt32

/-- A program as it was built, for one address. -/
structure Firmware where
  load : UInt64
  image : List UInt8
  start : CoreProg
  round : UInt32 → CoreProg

/-- What the core begins with is this program. -/
def Firmware.Fits (fw : Firmware) (m : Mem) (pc : UInt32) : Prop :=
  pc = fw.load.toUInt32 ∧ ∀ i < fw.image.length, m (fw.load.toNat + i) = fw.image.getD i 0

/-- `launched` is what the memory and the PC were when the core was started, and `code` is how
far it has come if the program fits. -/
structure Board where
  mem : Mem
  pc : UInt32
  launched : Option (Mem × UInt32)
  halted : Bool
  code : CoreProg

def ram : Env DataFlash.MmioSig Mem
  | m, .read a, r, m' => r = loadWord m a.toNat ∧ m' = m
  | m, .write a v, _, m' => m' = storeWord m a.toNat v

/-- The core, when it has been started. With anything else than the program, it may do
anything. -/
inductive Moves (fw : Firmware) (s : Board) : Board → Prop
  | exec {m₀ m : Mem} {pc₀ pc : UInt32} {code : CoreProg} (hlaunched : s.launched = some (m₀, pc₀))
      (hhalted : s.halted = false) (hfits : fw.Fits m₀ pc₀)
      (hstep : Serves ram fw.round (s.mem, s.code) (m, code))
      (hpc : fw.load.toNat ≤ pc.toNat ∧ pc.toNat < fw.load.toNat + fw.image.length) :
      Moves fw s { s with mem := m, pc := pc, code := code }
  | astray {m₀ m : Mem} {pc₀ pc : UInt32} {code : CoreProg}
      (hlaunched : s.launched = some (m₀, pc₀)) (hhalted : s.halted = false)
      (hfits : ¬ fw.Fits m₀ pc₀) :
      Moves fw s { s with mem := m, pc := pc, code := code }

def putBytes (m : Mem) (a : UInt64) (bs : List UInt8) : Mem :=
  storeRange m a.toNat bs.length fun i => bs.getD i 0

/-- What a start does. -/
def Board.started (fw : Firmware) (s : Board) : Board :=
  { s with launched := some (s.mem, s.pc), halted := false, code := fw.start }

/-- The debugger's side. An access that fails may have had any effect on what it was for. -/
def probe (fw : Firmware) (file : List UInt8) : Env RunSig Board
  | s, .readFile, r, s' => (∀ bs, r = some bs → bs = file ∧ bs.length < 2 ^ 63) ∧ s' = s
  | s, .openTarget, _, s' => s'.launched = s.launched
  | s, .findPc, _, s' => s' = s
  | s, .put a bs, r, s' =>
    (r = true → s' = { s with mem := putBytes s.mem a bs }) ∧
      (r = false → ∃ m, s' = { s with mem := m })
  | s, .get a, r, s' => (∀ v, r = some v → v = loadWord s.mem a.toNat) ∧ s' = s
  | s, .setPc v, r, s' =>
    (r = true → s' = { s with pc := v }) ∧ (r = false → ∃ pc, s' = { s with pc := pc })
  | s, .getPc, r, s' => (r = s.pc ∨ r = 0) ∧ s' = s
  | s, .run, r, s' => s' = s.started fw ∨ (r = false ∧ s' = s)
  | s, .stop, r, s' => s' = { s with halted := true } ∨ (r = false ∧ s' = s)

/-- The tool, and the core beside it. -/
def board (fw : Firmware) (file : List UInt8) : Env RunSig Board :=
  interleave (Moves fw) (probe fw file)

/-! ## Before the start -/

section
variable {fw : Firmware} {file : List UInt8} {s s' : Board}

/-- A core that has not been started does nothing. -/
theorem board_idle {o : RunSig.Op} {r : RunSig.Res o} (hs : s.launched = none)
    (h : board fw file s o r s') : probe fw file s o r s' := by
  have hstable : Stable (Moves fw) fun t => t.launched = none ∧ t = s := by
    intro t t' ht hstep
    cases hstep with
    | exec hlaunched => simp [ht.1] at hlaunched
    | astray hlaunched => simp [ht.1] at hlaunched
  obtain ⟨t, ht, hE⟩ := interleave_cases hstable ⟨hs, rfl⟩ h
  obtain rfl := ht.2
  exact hE

def putAll (m : Mem) (ws : List (UInt64 × List UInt8)) : Mem :=
  ws.foldl (fun m w => putBytes m w.1 w.2) m

theorem wp_need {Q : Unit → Board → Prop} {X : Abort → Board → Prop} {what : String} {done : Bool}
    (hQ : done = true → Q () s) (hX : done = false → X (.die what) s) :
    (need what done).wp (board fw file) Q X s := by
  cases done with
  | true => exact hQ rfl
  | false => exact hX rfl

theorem wp_probe {E : Env RunSig Board} {o : RunOp} {Q : RunSig.Res o → Board → Prop}
    {X : Abort → Board → Prop} : (ask o).wp E Q X s ↔ ∀ r s', E s o r s' → Q r s' := Iff.rfl

theorem wp_writeAll (what : String) (ws : List (UInt64 × List UInt8)) (hs : s.launched = none) :
    (writeAll what ws).wp (board fw file) (fun _ s' => s' = { s with mem := putAll s.mem ws })
      (fun _ s' => s'.launched = none) s := by
  induction ws generalizing s with
  | nil => exact rfl
  | cons w ws ih =>
    rw [writeAll, wp_bind, wp_probe]
    intro r s' hE
    obtain ⟨hdone, hfailed⟩ := board_idle hs hE
    rw [wp_bind]
    apply wp_need
    · intro hr
      obtain rfl := hdone hr
      exact ih (s := { s with mem := putBytes s.mem w.1 w.2 }) hs
    · intro hr
      obtain ⟨m, rfl⟩ := hfailed hr
      exact hs

/-! ## The image -/

def overlay (load : UInt64) (img : List UInt8) (m : Mem) : Mem :=
  storeRange m load.toNat img.length fun i => img.getD i 0

/-- A chunk behind what has been stored. -/
theorem putBytes_chunk (load : UInt64) (img : List UInt8) (m : Mem) {o : Nat} (ho : o ≤ img.length)
    (hfits : load.toNat + img.length < 2 ^ 64) :
    putBytes (storeRange m load.toNat o fun i => img.getD i 0) (load + UInt64.ofNat o)
      ((img.drop o).take CHUNK) =
    storeRange m load.toNat (min (o + CHUNK) img.length) fun i => img.getD i 0 := by
  have haddr : (load + UInt64.ofNat o).toNat = load.toNat + o := by
    rw [UInt64.toNat_add, UInt64.toNat_ofNat_of_lt' (Nat.lt_of_le_of_lt (by omega) hfits)]
    exact Nat.mod_eq_of_lt (by omega)
  have hlength : ((img.drop o).take CHUNK).length = min (o + CHUNK) img.length - o := by
    rw [List.length_take, List.length_drop]
    omega
  have hsplit : min (o + CHUNK) img.length = o + (min (o + CHUNK) img.length - o) := by omega
  rw [putBytes, haddr, hlength, hsplit, ← storeRange_append, Nat.add_sub_cancel_left]
  apply storeRange_congr
  intro i hi
  have hchunk : i < CHUNK := by omega
  simp [List.getD_eq_getElem?_getD, hchunk]

/-- The chunks are the image, the last one included, whatever its length. -/
theorem putAll_chunks (load : UInt64) (img : List UInt8)
    (hfits : load.toNat + img.length < 2 ^ 64) (m : Mem) :
    putAll m (chunks load img) = overlay load img m := by
  have hprefix : ∀ n, n * CHUNK < img.length + CHUNK →
      putAll m ((List.range n).map fun k =>
        (load + UInt64.ofNat (k * CHUNK), (img.drop (k * CHUNK)).take CHUNK)) =
      storeRange m load.toNat (min (n * CHUNK) img.length) fun i => img.getD i 0 := by
    intro n
    induction n with
    | zero => simp [putAll]
    | succ n ih =>
      intro hn
      rw [Nat.succ_mul] at hn
      have ih := ih (by omega)
      rw [Nat.min_eq_left (by omega), putAll] at ih
      rw [putAll, List.range_succ, List.map_append, List.foldl_append, ih, Nat.succ_mul]
      exact putBytes_chunk load img m (by omega) hfits
  have hcount : (img.length + CHUNK - 1) / CHUNK * CHUNK < img.length + CHUNK ∧
      img.length ≤ (img.length + CHUNK - 1) / CHUNK * CHUNK := by
    simp only [CHUNK]
    omega
  rw [chunks, hprefix _ hcount.1, Nat.min_eq_right hcount.2, overlay]

/-! ## The start -/

/-- The words in memory, one after the other. -/
def seeded (seeds : List (UInt64 × UInt32)) (m : Mem) : Mem :=
  seeds.foldl (fun m w => storeWord m w.1.toNat w.2) m

theorem putBytes_word (m : Mem) (a : UInt64) (v : UInt32) :
    putBytes m a (wordBytes v) = storeWord m a.toNat v := by
  funext x
  rw [putBytes, storeWord_apply, storeRange_apply]
  rw [length_wordBytes]
  split
  · have hx : x - a.toNat < 4 := by omega
    simp [wordBytes, List.getD_eq_getElem?_getD, hx]
  · rfl

theorem putAll_seeds (seeds : List (UInt64 × UInt32)) (m : Mem) :
    putAll m (seeds.map fun w => (w.1, wordBytes w.2)) = seeded seeds m := by
  simp [putAll, seeded, List.foldl_map, putBytes_word]

/-- What the core begins with: the seeds over the image, and its address. -/
def Prepared (load : UInt64) (seeds : List (UInt64 × UInt32)) (img : List UInt8) (m : Mem)
    (pc : UInt32) : Prop :=
  pc = load.toUInt32 ∧ ∃ m₀, m = seeded seeds (overlay load img m₀)

/-- If the core has been started, it was with this. -/
def LaunchedAs (P : Mem → UInt32 → Prop) (s : Board) : Prop :=
  ∀ m pc, s.launched = some (m, pc) → P m pc

theorem launchedAs_none {P : Mem → UInt32 → Prop} (hs : s.launched = none) : LaunchedAs P s := by
  intro m pc h
  simp [hs] at h

/-- The start itself, in a state that is as it has to be. -/
theorem wp_launch (load : UInt64) (seeds : List (UInt64 × UInt32)) (hs : s.launched = none) :
    (launch load seeds).wp (board fw file)
      (fun _ s' => s' = Board.started fw { s with mem := seeded seeds s.mem, pc := load.toUInt32 })
      (fun _ s' => LaunchedAs (fun m pc => pc = load.toUInt32 ∧ m = seeded seeds s.mem) s') s := by
  rw [launch, wp_bind]
  apply wp_mono _ ?_ ?_ (wp_writeAll "wr32" _ hs)
  · rintro _ s₁ rfl
    rw [putAll_seeds, wp_bind, wp_probe]
    intro r s₂ hE
    obtain ⟨hdone, hfailed⟩ := board_idle (by exact hs) hE
    rw [wp_bind]
    apply wp_need
    · intro hr
      obtain rfl := hdone hr
      rw [wp_bind, wp_probe]
      intro r s₃ hE
      rcases board_idle (by exact hs) hE with rfl | ⟨rfl, rfl⟩
      · apply wp_need
        · exact fun _ => rfl
        · intro _ m pc h
          cases h
          exact ⟨rfl, rfl⟩
      · exact launchedAs_none hs
    · intro hr
      obtain ⟨pc, rfl⟩ := hfailed hr
      exact launchedAs_none hs
  · exact fun _ s' h => launchedAs_none h

/-- The board when the core is started. -/
def Begins (fw : Firmware) (load : UInt64) (seeds : List (UInt64 × UInt32)) (img : List UInt8)
    (s : Board) : Prop :=
  ∃ (s₀ : Board) (m₀ : Mem), s = Board.started fw
    { s₀ with mem := seeded seeds (overlay load img m₀), pc := load.toUInt32 }

theorem Begins.prepared {load : UInt64} {seeds : List (UInt64 × UInt32)} {img : List UInt8}
    (h : Begins fw load seeds img s) : LaunchedAs (Prepared load seeds img) s := by
  obtain ⟨s₀, m₀, rfl⟩ := h
  intro m pc h
  cases h
  exact ⟨rfl, m₀, rfl⟩

theorem wp_bringUp {load : UInt64} {seeds : List (UInt64 × UInt32)} {img : List UInt8}
    {ws : List (UInt64 × List UInt8)} (hws : ∀ m, putAll m ws = overlay load img m)
    (hs : s.launched = none) :
    (bringUp load ws seeds).wp (board fw file) (fun _ s' => Begins fw load seeds img s')
      (fun _ s' => LaunchedAs (Prepared load seeds img) s') s := by
  rw [bringUp, wp_bind, wp_probe]
  intro r s₁ hE
  have hs₁ : s₁.launched = none := (board_idle hs hE).trans hs
  rw [wp_bind]
  apply wp_need ?_ fun _ => launchedAs_none hs₁
  intro _
  rw [wp_bind, wp_probe]
  intro r s₂ hE
  obtain rfl := board_idle hs₁ hE
  rw [wp_bind]
  apply wp_need ?_ fun _ => launchedAs_none hs₁
  intro _
  rw [wp_bind]
  apply wp_mono _ ?_ (fun _ _ h => launchedAs_none h) (wp_writeAll _ ws hs₁)
  intro _ s₃ hs₃
  have hmem : s₃.mem = overlay load img s₂.mem := by rw [hs₃, hws]
  have hnone : s₃.launched = none := by rw [hs₃, hs₁]
  apply wp_mono _ ?_ ?_ (wp_launch load seeds hnone)
  · intro _ s' hs'
    rw [hmem] at hs'
    exact ⟨s₃, s₂.mem, hs'⟩
  · intro _ s' hs' m pc h
    obtain ⟨hpc, hm⟩ := hs' m pc h
    rw [hmem] at hm
    exact ⟨hpc, s₂.mem, hm⟩

/-- What the tool asks when the core runs. -/
def Watching : RunOp → Prop
  | .get _ | .getPc | .stop => True
  | _ => False

theorem need_watching (what : String) (done : Bool) :
    (need what done).Asks Watching fun _ => True := by
  cases done with
  | true => trivial
  | false => trivial

theorem rd32_watching (a : UInt64) : (rd32 a).Asks Watching fun _ => True := by
  refine ⟨trivial, fun r => ?_⟩
  cases (show Option UInt32 from r) with
  | none => trivial
  | some v => trivial

theorem capture_watching (a : UInt64) (is : List Nat) :
    (capture a is).Asks Watching fun _ => True := by
  induction is with
  | nil => trivial
  | cons i is ih =>
    rw [capture, asks_bind]
    apply (rd32_watching _).mono
    intro w _
    rw [asks_bind]
    exact ih.mono fun _ _ => trivial

theorem asks_probe {P : RunOp → Prop} {o : RunOp} {R : RunSig.Res o → Prop} :
    (ask o).Asks P R ↔ P o ∧ ∀ r, R r := Iff.rfl

theorem report_watching (mode : Mode) : (report mode).Asks Watching fun _ => True := by
  cases mode with
  | free => trivial
  | dump a =>
    rw [report, asks_bind, asks_probe]
    refine ⟨trivial, fun stopped => ?_⟩
    rw [asks_bind]
    apply (need_watching _ _).mono
    intro _ _
    rw [asks_bind, asks_probe]
    refine ⟨trivial, fun pcNow => ?_⟩
    rw [asks_bind]
    apply (rd32_watching a).mono
    intro cnt _
    rw [asks_bind]
    exact (capture_watching a _).mono fun _ _ => trivial
  | proofs =>
    rw [report, asks_bind]
    apply (rd32_watching _).mono
    intro hb1 _
    rw [asks_bind]
    apply (rd32_watching _).mono
    intro hb2 _
    rw [asks_bind, asks_probe]
    refine ⟨trivial, fun stopped => ?_⟩
    rw [asks_bind]
    apply (need_watching _ _).mono
    intro _ _
    rw [asks_bind, asks_probe]
    refine ⟨trivial, fun pcNow => ?_⟩
    rw [asks_bind]
    apply (rd32_watching _).mono
    intro result _
    rw [asks_bind]
    exact (rd32_watching _).mono fun _ _ => trivial

theorem sample_watching (counter : UInt64) (ms : Int) :
    (sample counter ms).Asks Watching fun _ => True := by
  rw [sample, asks_bind]
  apply (rd32_watching _).mono
  intro v0 _
  rw [asks_bind]
  apply (rd32_watching _).mono
  intro v1 _
  rw [asks_bind, asks_probe]
  exact ⟨trivial, fun _ => trivial⟩

/-- The start is not undone, and not done again. -/
theorem watching_launched {P : Mem → UInt32 → Prop} (hs : LaunchedAs P s) {o : RunOp}
    {r : RunSig.Res o} (ho : Watching o) (h : board fw file s o r s') : LaunchedAs P s' := by
  have hstable : Stable (Moves fw) (LaunchedAs P) := by
    intro t t' ht hstep
    cases hstep with
    | exec => exact ht
    | astray => exact ht
  obtain ⟨t, ht, hE⟩ := interleave_cases hstable hs h
  cases o with
  | get a => exact hE.2 ▸ ht
  | getPc => exact hE.2 ▸ ht
  | stop =>
    rcases hE with rfl | ⟨-, rfl⟩
    · exact ht
    · exact ht
  | readFile | openTarget | findPc | put | setPc | run => cases ho

theorem wp_watching {P : Mem → UInt32 → Prop} {p : Load Outcome}
    (hp : p.Asks Watching fun _ => True) (hs : LaunchedAs P s) :
    p.wp (board fw file) (fun _ s' => LaunchedAs P s') (fun _ s' => LaunchedAs P s') s := by
  apply wp_mono _ (fun _ _ h => h.2) (fun _ _ h => h)
    (hp.invariant (LaunchedAs P) (fun _ _ _ _ ho hI h => watching_launched hI ho h) hs)

/-- The chunks that are written are the file, or nothing. -/
theorem putAll_run {load : UInt64} {img : List UInt8} (hlength : img.length < 2 ^ 63) (m : Mem) :
    putAll m (if load < FLASH_VIEW_MIN then chunks load img else []) =
      overlay load (if load < FLASH_VIEW_MIN then img else []) m := by
  split
  · rename_i hlow
    have hlow' : load.toNat < 0xA0000000 := UInt64.lt_iff_toNat_lt.mp hlow
    exact putAll_chunks load img (by omega) m
  · simp [putAll, overlay]

theorem wp_cmdRun (argc : Nat) (load : UInt64) (mode : Mode) (hs : s.launched = none) :
    (cmdRun argc load mode).wp (board fw file)
      (fun _ s' => LaunchedAs (Prepared load mode.seeds
        (if load < FLASH_VIEW_MIN then file else [])) s')
      (fun _ s' => LaunchedAs (Prepared load mode.seeds
        (if load < FLASH_VIEW_MIN then file else [])) s') s := by
  apply wp_ite
  · exact fun _ => launchedAs_none hs
  · intro _
    rw [wp_bind, wp_probe]
    intro r s₁ hE
    obtain ⟨hfile, rfl⟩ := board_idle hs hE
    cases r with
    | none => exact launchedAs_none hs
    | some img =>
      obtain ⟨rfl, hlength⟩ := hfile img rfl
      show (bringUp load _ mode.seeds >>= _ : Load Outcome).wp _ _ _ _
      rw [wp_bind]
      apply wp_mono _ ?_ (fun _ _ h => h) (wp_bringUp (putAll_run hlength) hs)
      exact fun _ s₂ hs₂ => wp_watching (report_watching mode) hs₂.prepared

theorem wp_cmdWatch (argc : Nat) (load counter : UInt64) (ms : Int)
    (hfits : load.toNat + file.length < 2 ^ 64) (hs : s.launched = none) :
    (cmdWatch argc load counter ms).wp (board fw file)
      (fun _ s' => LaunchedAs (Prepared load [(counter, 0)] file) s')
      (fun _ s' => LaunchedAs (Prepared load [(counter, 0)] file) s') s := by
  apply wp_ite
  · exact fun _ => launchedAs_none hs
  · intro _
    rw [wp_bind, wp_probe]
    intro r s₁ hE
    obtain ⟨hfile, rfl⟩ := board_idle hs hE
    cases r with
    | none => exact launchedAs_none hs
    | some img =>
      obtain ⟨rfl, -⟩ := hfile img rfl
      show (bringUp load _ _ >>= _ : Load Outcome).wp _ _ _ _
      rw [wp_bind]
      apply wp_mono _ ?_ (fun _ _ h => h) (wp_bringUp (putAll_chunks load img hfits) hs)
      exact fun _ s₂ hs₂ => wp_watching (sample_watching counter ms) hs₂.prepared

end

/-- The core is never started with less than the whole image, the seeds and the address,
whatever fails and however the run ends. A target in flash gets the seeds only. -/
theorem run_launches (fw : Firmware) (file : List UInt8) (argc : Nat) (load : UInt64) (mode : Mode)
    (s : Board) (hs : s.launched = none) (x : Except Abort Outcome) (s' : Board)
    (hrun : Runs (board fw file) (cmdRun argc load mode) s x s') :
    LaunchedAs (Prepared load mode.seeds (if load < FLASH_VIEW_MIN then file else [])) s' := by
  obtain ⟨hok, herror⟩ := hrun.sound _ (wp_cmdRun argc load mode hs)
  cases x with
  | ok a => exact hok a rfl
  | error e => exact herror e rfl

/-! A run in which the core takes twelve steps before each read. -/

instance (fw : Firmware) (m : Mem) (pc : UInt32) : Decidable (fw.Fits m pc) := by
  unfold Firmware.Fits
  infer_instance

/-- One step of the core, at the address it was started with. -/
def Board.step (fw : Firmware) (s : Board) : Board :=
  match s.launched with
  | none => s
  | some (m, pc) =>
    if s.halted = false ∧ fw.Fits m pc ∧
        fw.load.toNat ≤ s.pc.toNat ∧ s.pc.toNat < fw.load.toNat + fw.image.length then
      match s.code with
      | .ret c => { s with code := fw.round c }
      | .fail e => e.elim
      | .ask (.read a) k => { s with code := k (loadWord s.mem a.toNat) }
      | .ask (.write a v) k => { s with mem := storeWord s.mem a.toNat v, code := k () }
    else s

def Board.steps (fw : Firmware) : Nat → Board → Board
  | 0, s => s
  | n + 1, s => Board.steps fw n (s.step fw)

theorem step_moves (fw : Firmware) (s : Board) : ReflTransGen (Moves fw) s (s.step fw) := by
  unfold Board.step
  split
  · exact .refl
  · rename_i m pc hlaunched
    split
    · rename_i hruns
      obtain ⟨hhalted, hfits, hpc⟩ := hruns
      split
      · rename_i c hcode
        refine .single (.exec (m := s.mem) hlaunched hhalted hfits ?_ hpc)
        rw [hcode]
        exact .again _ c
      · rename_i e _
        exact e.elim
      · rename_i a k hcode
        refine .single (.exec (m := s.mem) hlaunched hhalted hfits ?_ hpc)
        rw [hcode]
        exact .ask ⟨rfl, rfl⟩
      · rename_i a v k hcode
        refine .single (.exec hlaunched hhalted hfits ?_ hpc)
        rw [hcode]
        exact .ask rfl
    · exact .refl

theorem steps_moves (fw : Firmware) (n : Nat) (s : Board) :
    ReflTransGen (Moves fw) s (s.steps fw n) := by
  induction n generalizing s with
  | zero => exact .refl
  | succ n ih => exact (step_moves fw s).trans (ih _)

def Board.serve (fw : Firmware) (file : List UInt8) (s : Board) :
    (o : RunOp) → RunSig.Res o × Board
  | .readFile => (if file.length < 2 ^ 63 then some file else none, s)
  | .openTarget => (true, { s with halted := true })
  | .findPc => (true, s)
  | .put a bs => (true, { s with mem := putBytes s.mem a bs })
  | .get a => (some (loadWord (s.steps fw 12).mem a.toNat), s.steps fw 12)
  | .setPc v => (true, { s with pc := v })
  | .getPc => (s.pc, s)
  | .run => (true, s.started fw)
  | .stop => (true, { s with halted := true })

theorem board_serve (fw : Firmware) (file : List UInt8) (s : Board) (o : RunOp) :
    board fw file s o (s.serve fw file o).1 (s.serve fw file o).2 := by
  cases o with
  | get a =>
    refine ⟨s.steps fw 12, steps_moves fw 12 s, ?_, rfl⟩
    rintro v ⟨⟩
    rfl
  | readFile =>
    refine ⟨s, .refl, fun bs hbs => ?_, rfl⟩
    simp only [Board.serve] at hbs
    split at hbs
    · rename_i hlength
      cases hbs
      exact ⟨rfl, hlength⟩
    · cases hbs
  | openTarget | findPc => exact ⟨s, .refl, rfl⟩
  | put a bs => exact ⟨s, .refl, fun _ => rfl, nofun⟩
  | setPc v => exact ⟨s, .refl, fun _ => rfl, nofun⟩
  | getPc => exact ⟨s, .refl, .inl rfl, rfl⟩
  | run => exact ⟨s, .refl, .inl rfl⟩
  | stop => exact ⟨s, .refl, .inl rfl⟩

section
variable (fw : Firmware) (file : List UInt8)

theorem can_put {α : Type} {a : UInt64} {bs : List UInt8} {k : Bool → Load α}
    {Q : α → Board → Prop} {s : Board}
    (hk : (k true).Can (board fw file) Q { s with mem := putBytes s.mem a bs }) :
    (ask (.put a bs) >>= k).Can (board fw file) Q s :=
  can_ask (board_serve fw file s (.put a bs)) hk

theorem can_writeAll (what : String) (ws : List (UInt64 × List UInt8)) (s : Board) :
    (writeAll what ws).Can (board fw file)
    (fun _ s' => s' = { s with mem := putAll s.mem ws }) s := by
  induction ws generalizing s with
  | nil => exact can_ret rfl
  | cons w ws ih => exact can_put fw file (ih _)

/-- When no access fails, the core is started. -/
theorem can_launch (load : UInt64) (seeds : List (UInt64 × UInt32)) (s : Board) :
    (launch load seeds).Can (board fw file) (fun _ s' => s'.launched.isSome = true) s := by
  apply (can_writeAll fw file "wr32" _ s).bind
  intro _ s₁ _
  apply can_ask (board_serve fw file s₁ (.setPc load.toUInt32))
  exact can_ask (board_serve fw file _ .run) (can_ret rfl)

theorem can_free (hfile : file.length < 2 ^ 63) {argc : Nat} (hargc : 4 ≤ argc) (load : UInt64)
    (s : Board) : (cmdRun argc load .free).Can (board fw file)
      (fun _ s' => s'.launched.isSome = true) s := by
  have hread : (s.serve fw file .readFile).1 = some file := if_pos hfile
  have hask := board_serve fw file s .readFile
  rw [hread] at hask
  rw [cmdRun, if_neg (by omega)]
  apply can_ask hask
  show (bringUp load _ _ >>= _ : Load Outcome).Can _ _ _
  apply Can.bind (R := fun _ s' => s'.launched.isSome = true)
  · apply can_ask (board_serve fw file _ .openTarget)
    apply can_ask (board_serve fw file _ .findPc)
    apply (can_writeAll fw file _ _ _).bind
    intro _ s₁ _
    exact can_launch fw file load _ s₁
  · exact fun _ s₁ hs₁ => can_ret hs₁

end

/-- A board before the reset, and a program that does nothing, in an image of two chunks. -/
def anyBoard : Board := ⟨fun _ => 0xFF, 0, none, false, return 0⟩
def idle : Firmware := ⟨0x70100000, 0x3C :: List.replicate 599 0, return 0, fun c => return c⟩

theorem idle_length : idle.image.length = 600 := by
  rw [idle, List.length_cons, List.length_replicate]

theorem run_launches_free : (chunks 0x70100000 idle.image).length = 2 ∧
    ∃ s' : Board, s'.launched.isSome = true ∧
      LaunchedAs (Prepared 0x70100000 Mode.free.seeds
        (if (0x70100000 : UInt64) < FLASH_VIEW_MIN then idle.image else [])) s' := by
  obtain ⟨_, s', hrun, hlaunched⟩ := can_free idle idle.image (by rw [idle_length]; decide)
    (show 4 ≤ 5 by decide) 0x70100000 anyBoard
  have hchunks : (chunks 0x70100000 idle.image).length = 2 := by
    rw [chunks, List.length_map, List.length_range, idle_length]
    rfl
  exact ⟨hchunks, s', hlaunched, run_launches _ _ 5 0x70100000 .free anyBoard rfl _ _ hrun⟩

end OpenTricore.LoadRun
