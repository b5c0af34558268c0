import OpenTricore.Debugger
import OpenTricore.Session

/-! Single commands of the debugger, as `dispatch` does them. The stub talks to its client over
the connection and to a target whose accesses succeed. For each way to write a command, one
answer is sent, and the target is left as the command leaves it (`obeys_spelt`). -/

namespace OpenTricore.Debugger
open OpenTricore Lib Lib.Prog Delivery Registers Threads

/-! ## The target behind MCD -/

structure Chip where
  mem : Mem
  regs : Regs

/-- `file` are the memory spaces that hold registers. -/
def chip (file : UInt32 → Bool) : Env BusSig Chip
  | x, .read c a, r, x' =>
    r = some (if file a.memSpaceId then x.regs c a else loadWord x.mem a.address.toNat) ∧ x' = x
  | x, .write c a v, r, x' =>
    r = true ∧ x' = if file a.memSpaceId then { x with regs := x.regs.set c a v }
      else { x with mem := storeWord x.mem a.address.toNat v }

/-- The connection and the target together. -/
def wired (file : UInt32 → Bool) : Env StubSig (Conn × Chip)
  | x, .bus o, r, y => chip file x.2 o r y.2 ∧ y.1 = x.1
  | x, o, r, y => session x.1 o r y.1 ∧ y.2 = x.2

/-- The cores as MCD presents them. No two registers have one address, the cores are
different cores, and the registers are not in the memory that is read and written. -/
structure Exposed (file : UInt32 → Bool) (ncore : Nat) (all : Nat → CoreMap) : Prop where
  once : ∀ k < ncore, (all k).MapsOnce
  apart : ∀ j < ncore, ∀ k < ncore, (all j).target.core = (all k).target.core → j = k
  regs : ∀ k < ncore, ∀ i a, (all k).reg i = some a → file a.memSpaceId = true
  mem : ∀ k < ncore, file (all k).target.msid = false

/-- The target as the stub shows it. -/
def view (s : Stub) (x : Chip) : Debuggee where
  mem := x.mem
  regs k i := if k < s.ncore then ((s.all k).reg i).map (x.regs (s.all k).target.core) else none
  threads := s.ncore
  cur := s.cur

/-- Registers that are not exposed are as they were. -/
def Untouched (s : Stub) (x x' : Chip) : Prop :=
  ∀ c a, (∀ k < s.ncore, (s.all k).target.core = c → ∀ i, (s.all k).reg i ≠ some a) →
    x'.regs c a = x.regs c a

/-! ## The connection -/

/-- Every write of the connection succeeds. -/
def Clear (c : Conn) : Prop := false ∉ c.writes

theorem writeAll_clear {p : List UInt8} {c c' : Conn} {b : Bool} (h : writeAll p c = (b, c'))
    (hc : Clear c) : Clear c' := by
  rw [writeAll_succeeds hc] at h
  cases h
  exact fun hmem => hc (List.mem_of_mem_tail hmem)

theorem readByte_clear {c c' : Conn} {b : Option UInt8} (h : readByte c = (b, c')) (hc : Clear c) :
    Clear c' := by
  rw [readByte] at h
  split at h <;> cases h <;> exact hc

theorem putPacketLoop_clear (data : List UInt8) (n : Nat) (c : Conn) (hc : Clear c) :
    Clear (putPacketLoop data n c).2 := by
  induction n generalizing c with
  | zero => exact hc
  | succ n ih =>
    rw [putPacketLoop]
    split
    · rename_i hw
      exact writeAll_clear hw hc
    · rename_i c' hw
      have hc' := writeAll_clear hw hc
      split
      · rename_i hr
        exact readByte_clear hr hc'
      · rename_i c'' hr
        have hc'' := readByte_clear hr hc'
        split
        · exact ih _ hc''
        · exact hc''

theorem getPacketLoop_clear (bufsz n : Nat) (buf : List UInt8) (c : Conn) (hc : Clear c) :
    Clear (getPacketLoop bufsz n buf c).2 := by
  induction n generalizing buf c with
  | zero => exact hc
  | succ n ih =>
    rw [getPacketLoop]
    split
    · exact hc
    · exact hc
    · split
      · exact hc
      · dsimp only
        split
        · split
          · rename_i hw
            exact writeAll_clear hw hc
          · rename_i c' hw
            have hc' : Clear c' := writeAll_clear hw hc
            exact hc'
        · split
          · rename_i hw
            exact writeAll_clear hw hc
          · rename_i c' hw
            have hc' : Clear c' := writeAll_clear hw hc
            exact ih _ _ hc'
      · exact hc

/-! ## Single questions -/

section
variable {file : UInt32 → Bool} {X : Abort → Conn × Chip → Prop} (c : Conn) (x : Chip)

theorem wp_putPacket_wired (data : List UInt8) {Q : Unit → Conn × Chip → Prop}
    (h : Q () ((rspPutPacket data c).2, x)) : (putPacket data).wp (wired file) Q X (c, x) := by
  rintro r ⟨c', x'⟩ ⟨hput, rfl⟩
  have hc' : c' = (rspPutPacket data c).2 := congrArg Prod.snd hput
  rw [hc']
  exact h

theorem wp_onBus_wired {α : Type} {Q : α → Chip → Prop} {XB : Abort → Chip → Prop} {p : Bus α}
    (hp : p.wp (chip file) Q XB x) :
    (onBus p).wp (wired file) (fun a y => Q a y.2 ∧ y.1 = c) (fun e y => XB e y.2 ∧ y.1 = c)
      (c, x) := by
  refine wp_mono _ ?_ ?_ (wp_onBus (fun x y => y = (c, x)) ?_ rfl hp)
  · rintro a _ ⟨x', rfl, h⟩
    exact ⟨h, rfl⟩
  · rintro e _ ⟨x', rfl, h⟩
    exact ⟨h, rfl⟩
  · rintro x' _ o r y rfl ⟨h, hc⟩
    exact ⟨y.2, h, Prod.ext hc rfl⟩

end

/-! ## The memory of the target -/

section
variable {file : UInt32 → Bool} {t : Target} (hmem : file t.msid = false) {addr : UInt64}
  {len : UInt32} (hr : WordRange addr len) (buf : Nat → UInt8) (x : Chip)
include hmem

/-- An access to the memory space of the target is one to its memory. -/
theorem chip_memory {o : BusOp} (ho : OnTarget t o) {r : BusSig.Res o} {x x' : Chip}
    (h : chip file x o r x') : readableMemory x.mem o r x'.mem ∧ x'.regs = x.regs := by
  cases o with
  | read c a =>
    have hspace : a.memSpaceId = t.msid := ho.2
    obtain ⟨rfl, rfl⟩ := h
    rw [hspace, hmem]
    exact ⟨⟨rfl, rfl⟩, rfl⟩
  | write c a v =>
    have hspace : a.memSpaceId = t.msid := ho.2
    obtain ⟨rfl, rfl⟩ := h
    rw [hspace, hmem]
    exact ⟨.inl ⟨rfl, rfl⟩, rfl⟩

/-- What holds of a program on plain memory holds of it on the target. -/
theorem wp_chip {α : Type} {p : Bus α} (hp : p.Asks (OnTarget t) fun _ => True)
    {Q : α → Mem → Prop} (h : p.wp readableMemory Q (fun _ _ => False) x.mem) :
    p.wp (chip file) (fun a x' => Q a x'.mem ∧ x'.regs = x.regs) (fun _ _ => False) x := by
  refine wp_mono _ ?_ ?_ (hp.sim (fun m (y : Chip) => y.mem = m ∧ y.regs = x.regs) ?_ ⟨rfl, rfl⟩ h)
  · rintro a x' ⟨m, ⟨rfl, hregs⟩, hQ⟩
    exact ⟨hQ, hregs⟩
  · rintro e x' ⟨m, -, hfalse⟩
    exact hfalse
  · rintro m y o r y' ho ⟨rfl, hregs⟩ hE
    obtain ⟨hmove, hsame⟩ := chip_memory hmem ho hE
    exact ⟨y'.mem, hmove, rfl, hsame.trans hregs⟩

omit hmem in
theorem chip_succeeds : Succeeds (chip file) where
  read := by
    rintro x c a v x' ⟨rfl, -⟩
    exact ⟨_, rfl⟩
  write := by
    rintro x c a v b x' ⟨rfl, -⟩
    rfl

include hr

theorem wp_tcmcdRead_chip : (tcmcdRead t addr buf len).wp (chip file)
    (fun r x' => r.1 = 0 ∧ (∀ i < len.toNat, r.2 i = x.mem (addr.toNat + i)) ∧ x' = x)
    (fun _ _ => False) x := by
  have hspec := wp_and _ (wp_env_mono memory_of_readable (tcmcdRead_spec t addr buf len hr x.mem))
    (tcmcdRead_readable t addr buf len hr x.mem)
  refine wp_mono _ ?_ (fun _ _ h => h)
    (wp_chip hmem x (asks_tcmcdRead t addr buf len)
      (wp_mono _ (fun _ _ h => h) (fun _ _ h => h.1) hspec))
  rintro r x' ⟨⟨⟨hsame, hread⟩, hok⟩, hregs⟩
  refine ⟨hok, ?_, ?_⟩
  · rcases hread with hbad | ⟨-, hdata⟩
    · rw [hok] at hbad
      cases hbad
    · exact hdata
  · obtain ⟨m', regs'⟩ := x'
    cases hsame
    cases hregs
    rfl

theorem wp_tcmcdWrite_chip : (tcmcdWrite t addr buf len).wp (chip file)
    (fun rc x' => rc = 0 ∧ x' = { x with mem := storeRange x.mem addr.toNat len.toNat buf })
    (fun _ _ => False) x := by
  have hspec := wp_chip hmem x (asks_tcmcdWrite t addr buf len)
    (wp_env_mono memory_of_readable (tcmcdWrite_spec t addr buf len hr x.mem))
  refine wp_mono _ ?_ (fun _ _ h => h.1)
    (wp_and _ hspec (tcmcdWrite_succeeds chip_succeeds t addr buf len x))
  rintro rc x' ⟨⟨hwrite, hregs⟩, rfl⟩
  refine ⟨rfl, ?_⟩
  rcases hwrite with ⟨-, hstored⟩ | ⟨hbad, -⟩
  · obtain ⟨m', regs'⟩ := x'
    cases hstored
    cases hregs
    rfl
  · cases hbad

end

/-! ## The registers of the target -/

section
variable {file : UInt32 → Bool} {X : Abort → Conn × Chip → Prop} (s : Stub)
  (hregs : ∀ i a, s.active.reg i = some a → file a.memSpaceId = true) (c : Conn) (x : Chip)
include hregs

theorem wp_getReg_wired {i : Fin NREG} (hi : s.active.regok i = true) :
    (getReg s (s.active.rega i)).wp (wired file)
      (fun v y => v = x.regs s.active.target.core (s.active.rega i) ∧ y = (c, x)) X (c, x) := by
  have hfile := hregs i _ (reg_some.mpr ⟨hi, rfl⟩)
  unfold getReg
  rintro r ⟨c', x'⟩ ⟨⟨rfl, hx⟩, hc⟩
  rw [if_pos hfile]
  exact ⟨rfl, Prod.ext hc hx⟩

theorem wp_regTexts_wired (is : List (Fin NREG)) :
    (regTexts s is).wp (wired file)
      (fun text y => text = is.flatMap (regShown s.active x.regs) ∧ y = (c, x)) X (c, x) := by
  induction is with
  | nil => exact ⟨rfl, rfl⟩
  | cons i is ih =>
    have htext : (regText s i).wp (wired file)
        (fun text y => text = regShown s.active x.regs i ∧ y = (c, x)) X (c, x) := by
      rw [regText, regShown, CoreMap.reg]
      cases hi : s.active.regok i with
      | false => exact ⟨rfl, rfl⟩
      | true =>
        simp only [↓reduceIte, wp_bind]
        apply wp_mono _ ?_ (fun _ _ h => h) (wp_getReg_wired s hregs c x hi)
        rintro _ _ ⟨rfl, rfl⟩
        exact ⟨rfl, rfl⟩
    simp only [regTexts, wp_bind]
    apply wp_mono _ ?_ (fun _ _ h => h) htext
    rintro _ _ ⟨rfl, rfl⟩
    rw [wp_bind]
    apply wp_mono _ ?_ (fun _ _ h => h) ih
    rintro _ _ ⟨rfl, rfl⟩
    exact ⟨rfl, rfl⟩

theorem wp_setReg_wired {i : Fin NREG} (hi : s.active.regok i = true) (v : UInt32) :
    (setReg s (s.active.rega i) v).wp (wired file)
      (fun _ y => y = (c, { x with regs := x.regs.set s.active.target.core (s.active.rega i) v }))
      X (c, x) := by
  have hfile := hregs i _ (reg_some.mpr ⟨hi, rfl⟩)
  unfold setReg
  rintro r ⟨c', x'⟩ ⟨⟨rfl, hx⟩, hc⟩
  rw [if_pos hfile] at hx
  exact Prod.ext hc hx

theorem wp_setRegs_wired (p : List UInt8) (is : List (Fin NREG)) :
    (setRegs s p is).wp (wired file)
      (fun _ y => y = (c, { x with regs := setAll s.active p is x.regs })) X (c, x) := by
  induction is generalizing x with
  | nil => rfl
  | cons i is ih =>
    simp only [setRegs, setAll, List.foldl_cons]
    cases hi : s.active.regok i with
    | false =>
      have hnone : s.active.reg i = none := reg_none.mpr hi
      simp only [hnone]
      exact ih x
    | true =>
      have hsome : s.active.reg i = some (s.active.rega i) := reg_some.mpr ⟨hi, rfl⟩
      simp only [hsome, ↓reduceIte, wp_bind]
      refine wp_mono _ ?_ (fun _ _ h => h) (wp_setReg_wired s hregs c x hi _)
      rintro _ _ rfl
      exact ih { x with regs := x.regs.set s.active.target.core (s.active.rega i) _ }

end

/-! ## One command -/

/-- The command is done, its answer is sent, and the stub waits for the next. -/
structure Obeyed (s : Stub) (c : Conn) (x : Chip) (cmd : Command) (s' : Stub) (y : Conn × Chip) :
    Prop where
  sent : y.1 = (rspPutPacket ((view s x).answer cmd).text c).2
  all : s'.all = s.all
  ncore : s'.ncore = s.ncore
  done : view s' y.2 = (view s x).after cmd
  untouched : Untouched s x y.2

/-- So it goes for the packet `p`, whatever stands behind it in the buffer. -/
def Obeys (file : UInt32 → Bool) (s : Stub) (x : Chip) (cmd : Command) (p : List UInt8) : Prop :=
  ∀ (polls : Nat) (n : Int) (c : Conn) (stale : List UInt8),
    (dispatch polls s (p ++ 0 :: stale) n).wp (wired file)
      (fun r y => ∃ s', r = some s' ∧ Obeyed s c x cmd s' y) (fun _ _ => False) (c, x)

section
variable {file : UInt32 → Bool} {s : Stub} {x : Chip}

theorem untouched_refl (s : Stub) (x : Chip) : Untouched s x x := fun _ _ _ => rfl

/-- A command that only sends its answer. -/
theorem obeys_of_reply {cmd : Command} {p : List UInt8} (hafter : (view s x).after cmd = view s x)
    (hp : ∀ polls n stale, dispatch polls s (p ++ 0 :: stale) n =
      (putPacket ((view s x).answer cmd).text >>= fun _ => return some s)) :
    Obeys file s x cmd p := by
  intro polls n c stale
  rw [hp, wp_bind]
  refine wp_putPacket_wired c x _ ⟨s, rfl, ?_⟩
  exact ⟨rfl, rfl, rfl, hafter.symm, untouched_refl s x⟩

theorem obeys_why : Obeys file s x .why (bytes "?") :=
  obeys_of_reply rfl fun _ _ _ => rfl

theorem obeys_thread : Obeys file s x .thread (bytes "qC") :=
  obeys_of_reply rfl fun _ _ _ => rfl

theorem obeys_threads : Obeys file s x .threads (bytes "qfThreadInfo") :=
  obeys_of_reply rfl fun _ _ _ => rfl

theorem obeys_alive (args : List UInt8) : Obeys file s x .alive (84 :: args) :=
  obeys_of_reply rfl fun _ _ _ => rfl

/-- What a number selects. -/
theorem threadArg_number (s : Stub) (op : UInt8) {n : Nat} {ds : List UInt8}
    (hds : Number 31 ds n ∨ n = 0 ∧ ds = bytes "-1") (stale : List UInt8) :
    (threadArg s (ds ++ 0 :: stale)).cur =
      if 1 ≤ n ∧ n ≤ s.ncore then n - 1 else s.cur := by
  have hcur := threadArg_cur s ⟨72 :: op :: ds, stale⟩
  have hbuf : (Packet.buf ⟨72 :: op :: ds, stale⟩).drop 2 = ds ++ 0 :: stale := rfl
  have hle := s.ncore_le
  simp only [NCORE] at hle
  rw [cutId, hbuf] at hcur
  rcases hds with hds | ⟨rfl, rfl⟩
  · have hvalue : strtol (ds ++ 0 :: stale) = n := by
      have hnum := number16_hexText ds hds.text 0 digit16_zero (by decide) stale
      have hsmall := hds.small
      simp only [strtol, hnum, hds.value]
      simp
      omega
    have hcut : Int.bmod (n : Int) (2 ^ 32) = n := by
      have hsmall := hds.small
      exact Int.bmod_eq_of_le (by omega) (by omega)
    rw [hvalue, hcut] at hcur
    split at hcur <;> split <;> omega
  · have hvalue : strtol (bytes "-1" ++ 0 :: stale) = -1 :=
      (strtol_local (bytes "-1") stale).trans rfl
    rw [hvalue] at hcur
    rw [if_neg (by omega)] at hcur ⊢
    exact Int.ofNat_inj.mp hcur

theorem obeys_select {op : UInt8} {n : Nat} {ds : List UInt8}
    (hds : Number 31 ds n ∨ n = 0 ∧ ds = bytes "-1") :
    Obeys file s x (.select n) (72 :: op :: ds) := by
  intro polls m c stale
  obtain ⟨hall, hncore, -⟩ := threadArg_frame s (ds ++ 0 :: stale)
  have hcur := threadArg_number s op hds stale
  rw [dispatch_H polls s _ m rfl, handle_H_eq]
  simp only [wp_bind]
  refine wp_putPacket_wired c x _ ⟨_, rfl, rfl, hall, hncore, ?_, untouched_refl s x⟩
  have hview : view (threadArg s (ds ++ 0 :: stale)) x =
      { view s x with cur := (threadArg s (ds ++ 0 :: stale)).cur } := by
    simp only [view, hall, hncore]
  change view (threadArg s (ds ++ 0 :: stale)) x =
    if 1 ≤ n ∧ n ≤ s.ncore then { view s x with cur := n - 1 } else view s x
  rw [hview, hcur]
  split
  · rfl
  · rfl

end

/-! ## Registers -/

theorem hexData_digits {d text : List UInt8} (h : HexData d text) :
    ∀ c ∈ text, (digit16 c).isSome := by
  induction h with
  | nil => simp
  | cons hh hl _ _ ih => simpa [hh, hl] using ih

theorem strlen_clean {p t : List UInt8} (h : (0 : UInt8) ∉ p) :
    strlen (p ++ 0 :: t) = p.length := by
  induction p with
  | nil => simp [strlen]
  | cons b p ih =>
    rw [List.mem_cons, not_or] at h
    simp [strlen, Ne.symm h.1, ih h.2]

theorem length_flatMap_regs {f : Fin NREG → List UInt8} (hf : ∀ i, (f i).length = 8) :
    (regIndices.flatMap f).length = NREG * 8 := by
  simp [List.length_flatMap, hf, regIndices]

theorem strtoull_number {n : Nat} {ds : List UInt8} (hds : Number 32 ds n) {c : UInt8}
    (hc : digit16 c = none) (hx : c ≠ 120 ∧ c ≠ 88) (t : List UInt8) :
    strtoull (ds ++ c :: t) = UInt64.ofNat n ∧ (UInt64.ofNat n).toUInt32.toNat = n := by
  have hsmall := hds.small
  rw [strtoull_hexText ds hds.text c hc hx t (by rw [hds.value]; omega), hds.value]
  refine ⟨rfl, ?_⟩
  simp only [UInt64.toNat_toUInt32, UInt64.toNat_ofNat']
  omega

section
variable {file : UInt32 → Bool} {s : Stub} (hexp : Exposed file s.ncore s.all) (x : Chip)

/-- The register with the number that was given. -/
theorem regAt_number {n : Nat} {ds : List UInt8} (hds : Number 32 ds n) {c : UInt8}
    (hc : digit16 c = none) (hx : c ≠ 120 ∧ c ≠ 88) (t : List UInt8) (i : Fin NREG) :
    regAt s (strtoull (ds ++ c :: t)).toUInt32 = some i ↔ i.val = n ∧ s.active.regok i = true := by
  obtain ⟨hvalue, hnat⟩ := strtoull_number hds hc hx t
  rw [hvalue, regAt]
  simp only [hnat]
  split
  · rename_i hlt
    split
    · rename_i hok
      rw [Option.some.injEq]
      constructor
      · rintro rfl
        exact ⟨rfl, hok⟩
      · rintro ⟨rfl, -⟩
        rfl
    · rename_i hno
      constructor
      · rintro ⟨⟩
      · rintro ⟨rfl, hok⟩
        exact absurd hok hno
  · rename_i hge
    constructor
    · rintro ⟨⟩
    · rintro ⟨rfl, -⟩
      exact absurd i.isLt hge

theorem regShown_view (i : Fin NREG) :
    regShown s.active x.regs i = wordText ((view s x).regs s.cur i) := by
  have hcur := s.cur_lt
  rw [regShown, view, s.active_eq]
  simp only [hcur, ↓reduceIte]
  cases (s.all s.cur).reg i with
  | none => rfl
  | some a => exact (wordText_some _).symm

/-- Where the registers of the current core in `P` have new values and the others have not,
the commands that write registers are done. -/
theorem view_setRegs {P : Fin NREG → Prop} [DecidablePred P] {vs : Fin NREG → UInt32} {regs' : Regs}
    (h : ∀ k < s.ncore, ∀ i a, (s.all k).reg i = some a → regs' (s.all k).target.core a =
      if k = s.cur ∧ P i then vs i else x.regs (s.all k).target.core a) :
    view s { x with regs := regs' } = (view s x).setRegs P vs := by
  simp only [view, Debuggee.setRegs, Debuggee.mk.injEq, true_and, and_true]
  funext k i
  by_cases hk : k < s.ncore
  · simp only [hk, ↓reduceIte]
    cases ha : (s.all k).reg i with
    | none => simp
    | some a =>
      rw [Option.map_some, h k hk i a ha]
      split <;> rfl
  · simp [hk]

include hexp

theorem Exposed.active_regs (i : Fin NREG) (a : McdAddr) (ha : s.active.reg i = some a) :
    file a.memSpaceId = true := by
  rw [s.active_eq] at ha
  exact hexp.regs s.cur s.cur_lt i a ha

theorem Exposed.active_once : s.active.MapsOnce := by
  rw [s.active_eq]
  exact hexp.once s.cur s.cur_lt

theorem obeys_readAll : Obeys file s x .readAll (bytes "g") := by
  intro polls n c stale
  have hp : dispatch polls s (bytes "g" ++ 0 :: stale) n =
    (handle_g s >>= fun _ => return some s) := rfl
  rw [hp, handle_g, bind_bind, wp_bind]
  refine wp_mono _ ?_ (fun _ _ h => h) (wp_regTexts_wired s hexp.active_regs c x regIndices)
  rintro _ _ ⟨rfl, rfl⟩
  rw [wp_bind]
  refine wp_putPacket_wired c x _ ⟨s, rfl, ?_, rfl, rfl, rfl, untouched_refl s x⟩
  have htext : regIndices.flatMap (regShown s.active x.regs) =
      ((view s x).answer .readAll).text := by
    simp only [Debuggee.answer, Answer.text, List.flatMap_map]
    congr 1
    funext i
    exact regShown_view x i
  rw [htext]

theorem obeys_readReg {n : Nat} {ds : List UInt8} (hds : Number 32 ds n) :
    Obeys file s x (.readReg n) (112 :: ds) := by
  intro polls m c stale
  have hp : dispatch polls s (112 :: ds ++ 0 :: stale) m =
      (handle_p s (112 :: (ds ++ 0 :: stale)) >>= fun _ => return some s) := by
    simp only [dispatch, List.cons_append, List.getD_cons_zero]
    rfl
  have hat := regAt_number (s := s) hds digit16_zero (by decide) stale
  have hcur := s.cur_lt
  rw [hp, wp_bind, handle_p, List.drop_one, List.tail_cons]
  cases hi : regAt s (strtoull (ds ++ 0 :: stale)).toUInt32 with
  | none =>
    -- the register is not exposed, or there is none with this number
    have hreg : (view s x).reg n = none := by
      rw [Debuggee.reg]
      split
      · rename_i hlt
        have hno : s.active.regok ⟨n, hlt⟩ = false := by
          by_contra hok
          have hsome := (hat ⟨n, hlt⟩).mpr ⟨rfl, by simpa using hok⟩
          rw [hi] at hsome
          cases hsome
        rw [s.active_eq] at hno
        simp [view, hcur, reg_none.mpr hno]
      · rfl
    refine wp_putPacket_wired c x _ ⟨s, rfl, ?_, rfl, rfl, rfl, untouched_refl s x⟩
    simp [Debuggee.answer, Answer.text, hreg, wordText]
  | some i =>
    obtain ⟨rfl, hok⟩ := (hat i).mp hi
    have hreg : (view s x).reg i.val = some (x.regs s.active.target.core (s.active.rega i)) := by
      have hsome : s.active.reg i = some (s.active.rega i) := reg_some.mpr ⟨hok, rfl⟩
      rw [s.active_eq] at hsome ⊢
      simp [Debuggee.reg, view, hcur, hsome]
    simp only [wp_bind]
    refine wp_mono _ ?_ (fun _ _ h => h) (wp_getReg_wired s hexp.active_regs c x hok)
    rintro _ _ ⟨rfl, rfl⟩
    refine wp_putPacket_wired c x _ ⟨s, rfl, ?_, rfl, rfl, rfl, untouched_refl s x⟩
    simp [Debuggee.answer, Answer.text, hreg, wordText_some]

/-- One register of the current core is written. -/
theorem set_done {i : Fin NREG} {a : McdAddr} (ha : s.active.reg i = some a) (v : UInt32) :
    view s { x with regs := x.regs.set s.active.target.core a v } =
      (view s x).after (.writeReg i.val v) ∧
    Untouched s x { x with regs := x.regs.set s.active.target.core a v } := by
  rw [s.active_eq] at ha ⊢
  constructor
  · apply view_setRegs x
    intro k hk j b hb
    rw [Regs.set]
    by_cases hhere : k = s.cur ∧ j.val = i.val
    · obtain ⟨rfl, hj⟩ := hhere
      obtain rfl : j = i := Fin.ext hj
      have hab : b = a := Option.some.inj (hb.symm.trans ha)
      rw [if_pos ⟨rfl, hab⟩, if_pos ⟨rfl, rfl⟩]
    · rw [if_neg hhere, if_neg]
      rintro ⟨hcore, rfl⟩
      obtain rfl := hexp.apart k hk s.cur s.cur_lt hcore
      exact hhere ⟨rfl, congrArg Fin.val (hexp.once s.cur s.cur_lt j i b hb ha)⟩
  · intro c' b hother
    refine if_neg ?_
    rintro ⟨rfl, rfl⟩
    exact hother s.cur s.cur_lt rfl i ha

theorem obeys_writeReg {n : Nat} {v : UInt32} {ds text : List UInt8} (hds : Number 32 ds n)
    (htext : HexData (wordBytes v) text) :
    Obeys file s x (.writeReg n v) (80 :: ds ++ 61 :: text) := by
  intro polls m c stale
  have hat := regAt_number (s := s) hds (c := 61) (by decide) (by decide) (text ++ 0 :: stale)
  have hvalue : getU32Le (text ++ 0 :: stale) = v := getU32Le_hexData htext _
  rw [dispatch_P polls s _ m rfl, RegisterWrites.handle_P_packet hds.text, wp_bind]
  cases hi : regAt s (strtoull (ds ++ 61 :: (text ++ 0 :: stale))).toUInt32 with
  | none =>
    -- nothing is written, and the answer is the same
    refine wp_putPacket_wired c x _ ⟨s, rfl, rfl, rfl, rfl, ?_, untouched_refl s x⟩
    have hnone : ∀ i, s.active.reg i ≠ none → i.val ≠ n := by
      intro i hne hn
      have hok : s.active.regok i = true := by
        rw [Ne, reg_none] at hne
        simpa using hne
      have hsome := (hat i).mpr ⟨hn, hok⟩
      rw [hi] at hsome
      cases hsome
    refine view_setRegs x fun k hk i a ha => (if_neg ?_).symm
    rintro ⟨rfl, hn⟩
    rw [← s.active_eq] at ha
    exact hnone i (by simp [ha]) hn
  | some i =>
    obtain ⟨rfl, hok⟩ := (hat i).mp hi
    obtain ⟨hdone, huntouched⟩ := set_done hexp x (reg_some.mpr ⟨hok, rfl⟩) v
    simp only [wp_bind]
    refine wp_mono _ ?_ (fun _ _ h => h) (wp_setReg_wired s hexp.active_regs c x hok _)
    rintro _ _ rfl
    rw [hvalue]
    exact wp_putPacket_wired c _ _ ⟨s, rfl, rfl, rfl, rfl, hdone, huntouched⟩

theorem setAll_done {p : List UInt8} {vs : Fin NREG → UInt32}
    (hp : ∀ i : Fin NREG, getU32Le (p.drop (i * 8)) = vs i) :
    view s { x with regs := setAll s.active p regIndices x.regs } =
      (view s x).after (.writeAll vs) ∧
    Untouched s x { x with regs := setAll s.active p regIndices x.regs } := by
  constructor
  · apply view_setRegs x
    intro k hk i a ha
    by_cases hhere : k = s.cur
    · subst hhere
      rw [← s.active_eq] at ha ⊢
      rw [setAll_at (hexp.active_once) (mem_regIndices i) ha, if_pos ⟨rfl, trivial⟩, hp]
    · rw [if_neg fun h => hhere h.1, setAll_other]
      intro j _ _ hcore
      rw [s.active_eq] at hcore
      exact hhere (hexp.apart k hk s.cur s.cur_lt hcore)
  · intro c' b hother
    refine setAll_other fun i _ hi hcore => ?_
    rw [s.active_eq] at hi hcore
    exact hother s.cur s.cur_lt hcore.symm i hi

theorem obeys_writeAll {vs : Fin NREG → UInt32} {texts : Fin NREG → List UInt8}
    (htexts : ∀ i, HexData (wordBytes (vs i)) (texts i)) :
    Obeys file s x (.writeAll vs) (71 :: regIndices.flatMap texts) := by
  intro polls n c stale
  have hlen : ∀ i, (texts i).length = 8 := fun i => by simpa using (htexts i).length
  have hvalue : ∀ i : Fin NREG,
      getU32Le ((regIndices.flatMap texts ++ 0 :: stale).drop (i * 8)) = vs i := by
    intro i
    obtain ⟨rest, hrest⟩ := drop_flatMap hlen regIndices (0 :: stale) i.val (by simp [regIndices])
    have hget : ∀ h : i.val < regIndices.length, regIndices[i.val] = i :=
      fun h => by simp [regIndices]
    rw [hrest, hget]
    exact getU32Le_hexData (htexts i) rest
  have hlong : ¬ strlen (regIndices.flatMap texts ++ 0 :: stale) < NREG * 8 := by
    have hclean : (0 : UInt8) ∉ regIndices.flatMap texts := by
      intro hmem
      obtain ⟨i, -, hi⟩ := List.mem_flatMap.mp hmem
      exact absurd (hexData_digits (htexts i) 0 hi) (by decide)
    rw [strlen_clean hclean, length_flatMap_regs hlen]
    omega
  have hp : dispatch polls s (71 :: regIndices.flatMap texts ++ 0 :: stale) n =
      (handle_G s (regIndices.flatMap texts ++ 0 :: stale) >>= fun _ => return some s) := by
    simp only [dispatch, List.cons_append, List.getD_cons_zero]
    rfl
  obtain ⟨hdone, huntouched⟩ := setAll_done hexp x hvalue
  rw [hp, handle_G, if_neg hlong, bind_bind, wp_bind]
  refine wp_mono _ ?_ (fun _ _ h => h) (wp_setRegs_wired s hexp.active_regs c x _ regIndices)
  rintro _ _ rfl
  rw [wp_bind]
  exact wp_putPacket_wired c _ _ ⟨s, rfl, rfl, rfl, rfl, hdone, huntouched⟩

/-! ## Memory -/

theorem obeys_readMem {a n : Nat} {ads nds : List UInt8} (ha : Number 32 ads a)
    (hn : Number 32 nds n) (hfit : n ≤ (BUFSZ - 8) / 2) :
    Obeys file s x (.readMem a n) (packetm ads nds) := by
  intro polls m c stale
  have hmem : file s.active.target.msid = false := by
    rw [s.active_eq]
    exact hexp.mem s.cur s.cur_lt
  have hlen : (UInt64.ofNat n).toUInt32.toNat = n :=
    (strtoull_number hn digit16_zero (by decide) []).2
  have haddr : (UInt64.ofNat a).toNat = a := by
    have hsmall := ha.small
    rw [UInt64.toNat_ofNat']
    omega
  have hsmall := ha.small
  simp only [BUFSZ] at hfit
  rw [dispatch_m polls s _ m rfl, handle_m_packetm s ha.text (by rw [ha.value]; omega) hn.text
    (by rw [hn.value]; omega), ha.value, hn.value, wp_bind]
  split
  · rename_i hzero
    obtain rfl : n = 0 := by
      rw [← hlen, hzero]
      rfl
    exact wp_putPacket_wired c x _ ⟨s, rfl, rfl, rfl, rfl, rfl, untouched_refl s x⟩
  · have hmin : min (UInt64.ofNat n).toUInt32 (UInt32.ofNat ((BUFSZ - 8) / 2)) =
        (UInt64.ofNat n).toUInt32 := by
      rw [UInt32.min_def, if_pos]
      rw [UInt32.le_iff_toNat_le, hlen]
      exact hfit
    simp only [hmin, wp_bind]
    rintro garbage ⟨c', x'⟩ ⟨hc, hx⟩
    obtain rfl : c' = c := hc
    obtain rfl : x' = x := hx
    have hr : WordRange (UInt64.ofNat a) (UInt64.ofNat n).toUInt32 := ⟨by omega⟩
    rw [wp_ret, wp_bind]
    have hbus := wp_onBus_wired c' x' (wp_tcmcdRead_chip hmem hr garbage x')
    refine wp_mono _ ?_ (fun _ _ h => h.1) hbus
    rintro ⟨rc, mb⟩ ⟨c'', x''⟩ ⟨⟨hrc, hread, hx⟩, hc⟩
    obtain rfl : rc = 0 := hrc
    obtain rfl : x'' = x' := hx
    obtain rfl : c'' = c' := hc
    have htext : hexOfBytes mb n = ((view s x'').answer (.readMem a n)).text := by
      rw [hlen, haddr] at hread
      simp only [Debuggee.answer, Answer.text, hexOfBytes, List.flatMap_map]
      apply List.flatMap_congr
      intro i hi
      exact congrArg hexOfByte (hread i (List.mem_range.mp hi))
    simp only [ne_eq, not_true_eq_false, ↓reduceIte, hlen, htext]
    exact wp_putPacket_wired c'' x'' _ ⟨s, rfl, rfl, rfl, rfl, rfl, untouched_refl s x''⟩

theorem obeys_writeMem {a : Nat} {d ads nds text : List UInt8} (ha : Number 32 ads a)
    (hn : Number 32 nds d.length) (htext : HexData d text)
    (hfit : (packetM ads nds text).length < BUFSZ) :
    Obeys file s x (.writeMem a d) (packetM ads nds text) := by
  intro polls m c stale
  have hmem : file s.active.target.msid = false := by
    rw [s.active_eq]
    exact hexp.mem s.cur s.cur_lt
  have hlen : (UInt64.ofNat d.length).toUInt32.toNat = d.length :=
    (strtoull_number hn digit16_zero (by decide) []).2
  have haddr : (UInt64.ofNat a).toNat = a := by
    have hsmall := ha.small
    rw [UInt64.toNat_ofNat']
    omega
  have hsmall := ha.small
  have hd := fits_reply ha.text hn.value htext hfit
  simp only [BUFSZ] at hd
  have hpacket : packetM ads nds text ++ 0 :: stale = packetM ads nds (text ++ 0 :: stale) := by
    simp [packetM]
  have hr : WordRange (UInt64.ofNat a) (UInt64.ofNat d.length).toUInt32 := ⟨by omega⟩
  rw [hpacket, dispatch_M polls s _ m rfl, handle_M_packetM s ha.text (by rw [ha.value]; omega)
    hn.text (by rw [hn.value]; omega), ha.value, hn.value, hlen, hexPairs_hexData htext, wp_bind]
  dsimp only
  rw [wp_bind]
  have hwrite := wp_onBus_wired c x (wp_tcmcdWrite_chip hmem hr (fun i => d.getD i 0) x)
  refine wp_mono _ ?_ (fun _ _ h => h.1) hwrite
  rintro rc ⟨c', x'⟩ ⟨⟨hrc, hx⟩, hc⟩
  obtain rfl : rc = 0 := hrc
  obtain rfl : x' = _ := hx
  obtain rfl : c' = c := hc
  rw [hlen, haddr]
  exact wp_putPacket_wired c' _ _ ⟨s, rfl, rfl, rfl, rfl, rfl, fun _ _ _ => rfl⟩

/-- Every command is obeyed, in each of its spellings. -/
theorem obeys_spelt {cmd : Command} {p : List UInt8} (hp : cmd.Spelt p) (hfit : p.length < BUFSZ) :
    Obeys file s x cmd p := by
  cases cmd with
  | why =>
    obtain rfl := hp
    exact obeys_why
  | thread =>
    obtain rfl := hp
    exact obeys_thread
  | threads =>
    obtain rfl := hp
    exact obeys_threads
  | alive =>
    obtain ⟨args, rfl⟩ := hp
    exact obeys_alive args
  | select n =>
    obtain ⟨op, ds, rfl, hds⟩ := hp
    exact obeys_select hds
  | readAll =>
    obtain rfl := hp
    exact obeys_readAll hexp x
  | writeAll vs =>
    obtain ⟨texts, rfl, htexts⟩ := hp
    exact obeys_writeAll hexp x htexts
  | readReg n =>
    obtain ⟨ds, rfl, hds⟩ := hp
    exact obeys_readReg hexp x hds
  | writeReg n v =>
    obtain ⟨ds, text, rfl, hds, htext⟩ := hp
    exact obeys_writeReg hexp x hds htext
  | readMem a n =>
    obtain ⟨ads, nds, rfl, ha, hn, hsmall⟩ := hp
    exact obeys_readMem hexp x ha hn hsmall
  | writeMem a d =>
    obtain ⟨ads, nds, text, rfl, ha, hn, htext⟩ := hp
    exact obeys_writeMem hexp x ha hn htext hfit

end

end OpenTricore.Debugger
