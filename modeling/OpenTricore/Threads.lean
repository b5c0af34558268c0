import OpenTricore.ReplyWire

/-! Threads stay separate. A session is a run of packets from the start of the stub, each
with the replies to it. Which thread is selected is said twice: by the texts of the packets
alone (`selected`), and by what the stub does. The two agree exactly as long as each `H`
packet is taken for the number it gives (`selects_iff`), and then

* everything the stub asks and replies is about the core that was selected last
  (`separate`);
* the registers of a core are changed by `G` and `P` packets for it and by no others
  (`Step.changes`);
* each core sees the session it would see alone (`Session.alone`). -/

namespace OpenTricore.Threads
open OpenTricore Lib Lib.Prog

/-! ## The thread that is meant -/

/-- The number that an `H` packet gives, behind its two letters. -/
def named : List UInt8 → Option Int
  | c :: _ :: args => if c = 72 then some (strtol (args ++ [0])) else none
  | _ => none

/-- The thread that is meant to be selected after the packet. -/
def wanted (ncore cur : Nat) (payload : List UInt8) : Nat :=
  match named payload with
  | some n => if 1 ≤ n ∧ n ≤ ncore then (n - 1).toNat else cur
  | none => cur

/-- The number that the stub finds in its buffer, cut to an `int`. -/
def cutId (p : Packet) : Int := Int.bmod (strtol (p.buf.drop 2)) (2 ^ 32)

/-- An `H` packet selects no thread but the one it names, or selects the one that is
selected. -/
def Heeds (s : Stub) (p : Packet) : Prop :=
  p.payload.getD 0 0 = 72 → 0 < strtol (p.buf.drop 2) → 1 ≤ cutId p → cutId p ≤ s.ncore →
    named p.payload = some (cutId p) ∨ cutId p = s.cur + 1

theorem buf_head (p : Packet) : p.buf.getD 0 0 = p.payload.getD 0 0 := by
  obtain ⟨payload, stale⟩ := p
  cases payload with
  | nil => rfl
  | cons c payload => rfl

theorem named_none {payload : List UInt8} (h : payload.getD 0 0 ≠ 72) : named payload = none := by
  rcases payload with _ | ⟨c, _ | ⟨op, args⟩⟩
  · rfl
  · rfl
  · exact if_neg h

/-- A number behind the letters is found as it was given. -/
theorem named_some {p : Packet} {n : Int} (h : named p.payload = some n) :
    strtol (p.buf.drop 2) = n := by
  obtain ⟨payload, stale⟩ := p
  rcases payload with _ | ⟨c, _ | ⟨op, args⟩⟩
  · cases h
  · cases h
  · by_cases hc : c = 72
    · have hn : strtol (args ++ [0]) = n := by simpa [named, hc] using h
      rw [← hn]
      exact strtol_local args stale
    · simp [named, hc] at h

/-- What an `H` packet selects. -/
theorem threadArg_cur (s : Stub) (p : Packet) :
    ((threadArg s (p.buf.drop 2)).cur : Int) =
      if 0 < strtol (p.buf.drop 2) ∧ 1 ≤ cutId p ∧ cutId p ≤ s.ncore then cutId p - 1
      else s.cur := by
  rw [threadArg, cutId]
  by_cases hpos : 0 < strtol (p.buf.drop 2)
  · rw [if_pos hpos, selectThread]
    split
    · rw [if_neg (by omega)]
    · rw [if_pos (by omega)]
      dsimp only
      omega
  · rw [if_neg hpos, if_neg (by omega)]

/-- A number that names a thread fits an `int`. -/
theorem bmod_thread {n : Int} {ncore : Nat} (hn : 1 ≤ n) (hle : n ≤ ncore) (h : ncore ≤ NCORE) :
    Int.bmod n (2 ^ 32) = n := by
  have hsmall : (ncore : Int) ≤ 8 := Int.ofNat_le.mpr h
  exact Int.bmod_eq_of_le (by omega) (by omega)

/-- The stub selects what is meant exactly if it takes the packet for the number it gives. -/
theorem selects_iff {s s' : Stub} {p : Packet} (h : Selects s p.buf s') :
    s'.all = s.all ∧ s'.ncore = s.ncore ∧
      (s'.cur = wanted s.ncore s.cur p.payload ↔ Heeds s p) := by
  rw [Selects, buf_head] at h
  by_cases hH : p.payload.getD 0 0 = 72
  · rw [if_pos hH] at h
    subst h
    obtain ⟨hall, hncore, -⟩ := threadArg_frame s (p.buf.drop 2)
    refine ⟨hall, hncore, ?_⟩
    have hcur := threadArg_cur s p
    have hle := s.ncore_le
    simp only [Heeds, wanted, hH, forall_const]
    cases hn : named p.payload with
    | none =>
      simp only [reduceCtorEq, false_or]
      split at hcur <;> omega
    | some n =>
      have hread := named_some hn
      have hcut : cutId p = Int.bmod n (2 ^ 32) := by rw [cutId, hread]
      rw [hread] at hcur ⊢
      simp only [Option.some.injEq]
      by_cases hin : 1 ≤ n ∧ n ≤ s.ncore
      · have hfit := bmod_thread hin.1 hin.2 hle
        rw [if_pos (by omega)] at hcur
        rw [if_pos hin]
        omega
      · rw [if_neg hin]
        split at hcur <;> omega
  · rw [if_neg hH] at h
    refine ⟨h.all, h.ncore, ?_⟩
    rw [wanted, named_none hH]
    exact ⟨fun _ hc => absurd hc hH, fun _ => h.cur⟩

/-! ## Sessions -/

/-- A packet, and the replies to it. -/
structure Exchange where
  packet : Packet
  replies : List (List UInt8)

section
variable {σ : Type}

/-- One packet, after which the stub waits for the next. -/
def Step (E : Env BusSig σ) (polls : Nat) (s : Stub) (x : σ) (e : Exchange) (s' : Stub) (x' : σ) :
    Prop :=
  Runs (replying E) (dispatchPacket polls s e.packet) (x, []) (.ok (some s')) (x', e.replies)

/-- Packets that are `ok` where they arrive, one after the other. -/
inductive Session (ok : Stub → Packet → Prop) (E : Env BusSig σ) (polls : Nat) :
    Stub → σ → List Exchange → Stub → σ → Prop
  | nil (s : Stub) (x : σ) : Session ok E polls s x [] s x
  | cons {s s' s'' : Stub} {x x' x'' : σ} {e : Exchange} {es : List Exchange}
      (hok : ok s e.packet) (hstep : Step E polls s x e s' x')
      (hrest : Session ok E polls s' x' es s'' x'') : Session ok E polls s x (e :: es) s'' x''

/-- The thread that was selected last. -/
def selected (ncore cur : Nat) (es : List Exchange) : Nat :=
  es.foldl (fun k e => wanted ncore k e.packet.payload) cur

variable {E : Env BusSig σ} {polls : Nat} {s s' : Stub} {x x' : σ}

theorem Step.selects {e : Exchange} (h : Step E polls s x e s' x') :
    Selects s e.packet.buf s' :=
  (dispatch_asks polls s _ _).result h s' rfl

theorem Session.threads {es : List Exchange} (h : Session Heeds E polls s x es s' x') :
    s'.all = s.all ∧ s'.ncore = s.ncore ∧ s'.cur = selected s.ncore s.cur es := by
  induction h with
  | nil s x => exact ⟨rfl, rfl, rfl⟩
  | cons hok hstep hrest ih =>
    obtain ⟨hall, hncore, hcur⟩ := selects_iff hstep.selects
    obtain ⟨hall', hncore', hcur'⟩ := ih
    refine ⟨hall'.trans hall, hncore'.trans hncore, ?_⟩
    rw [hcur', hncore, hcur.mpr hok]
    rfl

/-! ## What is asked and replied -/

/-- The text of a stop reply for thread `k + 1`, and that of the current thread. -/
def stopText (k : Nat) : List UInt8 := bytes "T05thread:" ++ printHex (k + 1) ++ bytes ";"

def currentText (k : Nat) : List UInt8 := bytes "QC" ++ printHex (k + 1)

/-- Of the replies only two kinds start with `T` or `Q`. -/
theorem reply_letter {s : Stub} {d : List UInt8} (h : Reply s d) :
    d = stopText s.cur ∨ d = currentText s.cur ∨ (d.head? ≠ some 84 ∧ d.head? ≠ some 81) := by
  have hfixed : ∀ d ∈ fixedReplies, d.head? ≠ some 84 ∧ d.head? ≠ some 81 := by decide
  have hlist : ∀ n : Fin (NCORE + 1),
      (threadList n).head? ≠ some 84 ∧ (threadList n).head? ≠ some 81 := by decide
  cases h with
  | fixed h => exact .inr (.inr (hfixed d h))
  | stop => exact .inl rfl
  | current => exact .inr (.inl rfl)
  | threads => exact .inr (.inr (hlist ⟨s.ncore, Nat.lt_succ_of_le s.ncore_le⟩))
  | values h hlen =>
    refine .inr (.inr ?_)
    cases d with
    | nil => exact ⟨nofun, nofun⟩
    | cons b d =>
      have hb := h b List.mem_cons_self
      constructor
      · rintro ⟨⟩
        exact absurd hb (by rw [ValueChar]; decide)
      · rintro ⟨⟩
        exact absurd hb (by rw [ValueChar]; decide)
  | chunk args =>
    refine .inr (.inr ?_)
    rcases qxferChunk_cases MEMMAP args with hend | ⟨b, n, m, rfl | rfl, hchunk⟩
    · rw [hend]
      decide
    · rw [hchunk]
      exact ⟨nofun, nofun⟩
    · rw [hchunk]
      exact ⟨nofun, nofun⟩

theorem reply_stop {s : Stub} {d : List UInt8} (h : Reply s d) (hT : bytes "T05" <+: d) :
    d = stopText s.cur := by
  have hhead : d.head? = some 84 := by
    obtain ⟨t, rfl⟩ := hT
    rfl
  rcases reply_letter h with rfl | rfl | ⟨hne, -⟩
  · rfl
  · cases hhead
  · exact absurd hhead hne

theorem reply_current {s : Stub} {d : List UInt8} (h : Reply s d) (hQ : bytes "QC" <+: d) :
    d = currentText s.cur := by
  have hhead : d.head? = some 81 := by
    obtain ⟨t, rfl⟩ := hQ
    rfl
  rcases reply_letter h with rfl | rfl | ⟨-, hne⟩
  · cases hhead
  · rfl
  · exact absurd hhead hne

/-- Thread `k + 1` is selected, and whatever happens next is about it. -/
structure Separate (ncore : Nat) (all : Nat → CoreMap) (k : Nat) (s : Stub) : Prop where
  threads : s.ncore = ncore
  maps : s.all = all
  current : s.cur = k
  inRange : k < ncore
  active : s.active = all k
  accesses : ∀ polls p, (dispatchPacket polls s p).Asks s.May fun _ => True
  stops : ∀ d, Reply s d → bytes "T05" <+: d → d = stopText k
  currents : ∀ d, Reply s d → bytes "QC" <+: d → d = currentText k
  interrupt : reportStop s = putPacket (stopText k)
  query : ∀ polls stale, dispatchPacket polls s ⟨bytes "qC", stale⟩ =
    (putPacket (currentText k) >>= fun _ => return some s)

theorem dispatch_qC (polls : Nat) (s : Stub) (stale : List UInt8) :
    dispatchPacket polls s ⟨bytes "qC", stale⟩ =
      (putPacket (currentText s.cur) >>= fun _ => return some s) := rfl

theorem separate_of {k : Nat} {t : Stub} (hall : t.all = s.all) (hncore : t.ncore = s.ncore)
    (hcur : t.cur = k) : Separate s.ncore s.all k t := by
  subst hcur
  exact {
    threads := hncore
    maps := hall
    current := rfl
    inRange := hncore ▸ t.cur_lt
    active := by rw [t.active_eq, hall]
    accesses := fun polls p => (dispatch_asks polls t _ _).mono fun _ _ => trivial
    stops := fun _ => reply_stop
    currents := fun _ => reply_current
    interrupt := rfl
    query := fun polls stale => dispatch_qC polls t stale }

theorem Session.separate {es : List Exchange} (h : Session Heeds E polls s x es s' x') :
    Separate s.ncore s.all (selected s.ncore s.cur es) s' :=
  separate_of h.threads.1 h.threads.2.1 h.threads.2.2

/-- The next packet keeps the threads separate exactly if the stub takes it for the number
it gives. -/
theorem Session.next_iff {es : List Exchange} (h : Session Heeds E polls s x es s' x')
    {e : Exchange} {s'' : Stub} {x'' : σ} (hstep : Step E polls s' x' e s'' x'') :
    Separate s.ncore s.all (wanted s.ncore (selected s.ncore s.cur es) e.packet.payload) s'' ↔
      Heeds s' e.packet := by
  obtain ⟨hall, hncore, hcur⟩ := h.threads
  obtain ⟨hall', hncore', hiff⟩ := selects_iff hstep.selects
  rw [← hcur, ← hncore, ← hall, ← hiff]
  exact ⟨fun hsep => hsep.current, separate_of hall' hncore'⟩

end

/-! ## Registers -/

/-- The registers of all cores. -/
abbrev Regs := Core → McdAddr → UInt32

def Regs.set (regs : Regs) (c : Core) (a : McdAddr) (v : UInt32) : Regs :=
  fun c' a' => if c' = c ∧ a' = a then v else regs c' a'

/-- Each core has registers of its own. An access that may fail leaves them when it does. -/
def coreRegs (fails : BusOp → Prop) : Env BusSig Regs
  | regs, .read c a, r, regs' =>
    (r = some (regs c a) ∨ (r = none ∧ fails (.read c a))) ∧ regs' = regs
  | regs, .write c a v, r, regs' =>
    (r = true ∧ regs' = regs.set c a v) ∨ (r = false ∧ fails (.write c a v) ∧ regs' = regs)

section
variable {fails : BusOp → Prop} {regs regs' : Regs}

theorem set_other {c c' : Core} (h : c ≠ c') (a : McdAddr) (v : UInt32) :
    regs.set c a v c' = regs c' := by
  funext a'
  exact if_neg fun hc => h hc.1.symm

/-- The registers of the other cores are as they were. -/
theorem coreRegs_other {o : BusOp} {r : BusSig.Res o} (h : coreRegs fails regs o r regs')
    {c : Core} (hc : BusOp.core o ≠ c) : regs' c = regs c := by
  cases o with
  | read c' a =>
    obtain ⟨-, rfl⟩ := h
    rfl
  | write c' a v =>
    rcases h with ⟨-, rfl⟩ | ⟨-, -, rfl⟩
    · exact set_other hc a v
    · rfl

/-- An access to a core goes the same way whatever the other cores hold. -/
theorem coreRegs_sim {o : BusOp} {r : BusSig.Res o} (h : coreRegs fails regs o r regs')
    {alone : Regs} (ha : alone (BusOp.core o) = regs (BusOp.core o)) :
    ∃ alone', coreRegs fails alone o r alone' ∧
      alone' (BusOp.core o) = regs' (BusOp.core o) := by
  cases o with
  | read c a =>
    obtain ⟨hr, rfl⟩ := h
    refine ⟨alone, ⟨?_, rfl⟩, ha⟩
    rw [show alone c = regs' c from ha]
    exact hr
  | write c a v =>
    rcases h with ⟨hr, rfl⟩ | ⟨hr, hfails, rfl⟩
    · refine ⟨alone.set c a v, .inl ⟨hr, rfl⟩, ?_⟩
      funext a'
      have hrest := congrFun ha a'
      simp only [BusOp.core] at hrest
      simp only [Regs.set, BusOp.core, hrest]
    · exact ⟨alone, .inr ⟨hr, hfails, rfl⟩, ha⟩

end

/-! ## Register packets -/

/-- The packets `g`, `G`, `p` and `P`. -/
def Accesses (payload : List UInt8) : Prop := payload.getD 0 0 ∈ [103, 71, 112, 80]

/-- The packets `G` and `P`. -/
def Writes (payload : List UInt8) : Prop := payload.getD 0 0 ∈ [71, 80]

/-- A register packet, or an `H` packet. -/
def RegPacket (payload : List UInt8) : Prop := Accesses payload ∨ payload.getD 0 0 = 72

/-- What the stub does for a register packet. -/
def regCommand (s : Stub) (p : Packet) : StubProg Unit :=
  if p.payload.getD 0 0 = 103 then handle_g s
  else if p.payload.getD 0 0 = 71 then handle_G s (p.buf.drop 1)
  else if p.payload.getD 0 0 = 112 then handle_p s p.buf
  else handle_P s p.buf

theorem dispatch_regCommand (polls : Nat) (s : Stub) {p : Packet} (h : Accesses p.payload) :
    dispatchPacket polls s p = (regCommand s p >>= fun _ => return some s) := by
  have hhead := buf_head p
  simp only [Accesses, List.mem_cons, List.not_mem_nil, or_false] at h
  rcases h with h | h | h | h <;>
    · rw [h] at hhead
      simp only [dispatchPacket, dispatch, regCommand, hhead, h]
      rfl

/-- A stub with one core. -/
def lone (m : CoreMap) : Stub := .start 1 (fun _ => m) one_core

/-- The handlers look at the map of the selected core and at nothing else of the stub. -/
theorem regTexts_lone (s : Stub) (is : List (Fin NREG)) :
    regTexts s is = regTexts (lone s.active) is := by
  induction is with
  | nil => rfl
  | cons i is ih =>
    rw [regTexts, regTexts, ih]
    rfl

theorem setRegs_lone (s : Stub) (p : List UInt8) (is : List (Fin NREG)) :
    setRegs s p is = setRegs (lone s.active) p is := by
  induction is with
  | nil => rfl
  | cons i is ih =>
    rw [setRegs, setRegs, ih]
    rfl

theorem regCommand_lone (s : Stub) (p : Packet) :
    regCommand s p = regCommand (lone s.active) p := by
  have hg : handle_g s = handle_g (lone s.active) := by
    rw [handle_g, handle_g, regTexts_lone]
  have hG : handle_G s (p.buf.drop 1) = handle_G (lone s.active) (p.buf.drop 1) := by
    rw [handle_G, handle_G, setRegs_lone]
  rw [regCommand, regCommand, hg, hG]
  rfl

/-- A question that is no write. -/
def Reads : StubSig.Op → Prop
  | .bus (.write ..) => False
  | _ => True

theorem asks_regTexts_reads (s : Stub) (is : List (Fin NREG)) :
    (regTexts s is).Asks Reads fun _ => True := by
  induction is with
  | nil => trivial
  | cons i is ih =>
    have htext : (regText s i).Asks Reads fun _ => True := by
      rw [regText]
      refine asks_ite (fun _ => ?_) fun _ => trivial
      refine asks_stubAsk trivial fun (v : Option UInt32) => ?_
      cases v with
      | none => trivial
      | some v => trivial
    rw [regTexts, asks_bind]
    apply Asks.mono htext
    intro text _
    rw [asks_bind]
    exact ih.mono fun _ _ => trivial

/-- Of the register packets `G` and `P` alone write. -/
theorem dispatch_reads (polls : Nat) (s : Stub) {p : Packet} (h : RegPacket p.payload)
    (hw : ¬ Writes p.payload) : (dispatchPacket polls s p).Asks Reads fun _ => True := by
  rcases h with h | h
  · rw [dispatch_regCommand polls s h, asks_bind, regCommand]
    simp only [Writes, List.mem_cons, List.not_mem_nil, or_false, not_or] at hw
    simp only [Accesses, List.mem_cons, List.not_mem_nil, or_false] at h
    refine asks_ite (fun _ => ?_) fun hg => ?_
    · rw [handle_g, asks_bind]
      apply Asks.mono (asks_regTexts_reads s regIndices)
      exact fun text _ => (asks_putPacket _).mpr ⟨trivial, trivial⟩
    refine asks_ite (fun hG => absurd hG hw.1) fun _ => ?_
    refine asks_ite (fun _ => ?_) fun hp => ?_
    · rw [handle_p]
      split
      · refine asks_stubAsk trivial fun (v : Option UInt32) => ?_
        cases v with
        | none => exact (asks_putPacket _).mpr ⟨trivial, trivial⟩
        | some v => exact (asks_putPacket _).mpr ⟨trivial, trivial⟩
      · exact (asks_putPacket _).mpr ⟨trivial, trivial⟩
    · rcases h with h | h | h | h
      · exact absurd h hg
      · exact absurd h hw.1
      · exact absurd h hp
      · exact absurd h hw.2
  · rw [dispatchPacket, dispatch_H polls s _ _ ((buf_head p).trans h), handle_H_eq, asks_bind,
      asks_bind]
    exact (asks_putPacket _).mpr ⟨trivial, trivial⟩

/-! ## One packet -/

section
variable {fails : BusOp → Prop} {polls : Nat} {s s' : Stub} {regs regs' : Regs} {e : Exchange}

/-- A packet leaves the registers of the cores that are not selected. -/
theorem Step.other (h : Step (coreRegs fails) polls s regs e s' regs') {c : Core}
    (hc : s.active.target.core ≠ c) : regs' c = regs c := by
  have hinv := asks_replying (E := coreRegs fails) (dispatch_asks polls s e.packet.buf
    e.packet.payload.length) (fun r => r c = regs c) (fun _ _ _ _ ho hr hE =>
      (coreRegs_other hE (ho.1 ▸ hc)).trans hr) rfl []
  exact ((h.sound _ hinv).1 _ rfl).2

/-- A packet that does not write leaves all registers. -/
theorem Step.reads (h : Step (coreRegs fails) polls s regs e s' regs')
    (hreg : RegPacket e.packet.payload) (hw : ¬ Writes e.packet.payload) : regs' = regs := by
  have hinv := asks_replying (E := coreRegs fails) (dispatch_reads polls s hreg hw)
    (fun r => r = regs) ?_ rfl []
  · exact ((h.sound _ hinv).1 _ rfl).2
  · intro r o _ r' ho hr hE
    cases o with
    | read c a => exact hE.2.trans hr
    | write c a v => exact ho.elim

/-- Registers are changed for the selected core only, and by `G` and `P` only. -/
theorem Step.changes (h : Step (coreRegs fails) polls s regs e s' regs')
    (hreg : RegPacket e.packet.payload) {c : Core} (hc : regs' c ≠ regs c) :
    s.active.target.core = c ∧ Writes e.packet.payload := by
  constructor
  · by_contra hne
    exact hc (h.other hne)
  · by_contra hw
    exact hc (congrFun (h.reads hreg hw) c)

/-- A value of a `P` packet is not read past its end. -/
def Whole (s : Stub) (p : Packet) : Prop := p.payload.getD 0 0 = 80 → ¬ ReadsStale s p.payload

theorem Whole.isolated {p : Packet} (h : Whole s p) (hreg : Accesses p.payload)
    (stale : List UInt8) :
    dispatchPacket polls s p = dispatchPacket polls s ⟨p.payload, stale⟩ := by
  refine (packets_isolated_iff polls s p.payload).mpr ?_ p.stale stale
  intro hstale
  by_cases hP : p.payload.getD 0 0 = 80
  · exact h hP hstale
  · rcases hstale with ⟨halone, -⟩ | ⟨pre, post, hpay, -⟩
    · rw [halone] at hreg
      exact absurd hreg (by rw [Accesses]; decide)
    · rw [hpay] at hP
      exact hP rfl

/-- The same text with the same replies. What stands behind the terminator may differ. -/
def SameText (e f : Exchange) : Prop :=
  e.packet.payload = f.packet.payload ∧ e.replies = f.replies

/-- The registers of one core agree, and the replies. -/
def AgreeOn (c : Core) (x y : Regs × List (List UInt8)) : Prop := y.1 c = x.1 c ∧ y.2 = x.2

/-- Agreement on the selected core is kept by whatever is asked. -/
theorem agreeOn_sim (x y : Regs × List (List UInt8)) (o : StubOp) (r : StubSig.Res o)
    (x' : Regs × List (List UInt8)) (ho : s.May o) (hxy : AgreeOn s.active.target.core x y)
    (hE : replying (coreRegs fails) x o r x') :
    ∃ y', replying (coreRegs fails) y o r y' ∧ AgreeOn s.active.target.core x' y' := by
  obtain ⟨hcore, hout⟩ := hxy
  cases o with
  | bus o =>
    obtain ⟨hbus, hsame⟩ := hE
    have hon : BusOp.core o = s.active.target.core := ho.1
    rw [← hon] at hcore ⊢
    obtain ⟨alone', hbus', hcore'⟩ := coreRegs_sim hbus hcore
    exact ⟨(alone', y.2), ⟨hbus', rfl⟩, hcore', hout.trans hsame.symm⟩
  | putPacket data =>
    obtain rfl := hE
    exact ⟨(y.1, y.2 ++ [data]), rfl, hcore, congrArg (· ++ [data]) hout⟩
  | _ =>
    obtain rfl := hE
    exact ⟨y, rfl, hcore, hout⟩

/-- A register packet goes as it would with the selected core alone. -/
theorem Step.alone (h : Step (coreRegs fails) polls s regs e s' regs')
    (hreg : Accesses e.packet.payload) (hwhole : Whole s e.packet) {f : Exchange}
    (hf : SameText e f) {alone : Regs}
    (ha : alone s.active.target.core = regs s.active.target.core) :
    ∃ alone', Step (coreRegs fails) polls (lone s.active) alone f (lone s.active) alone' ∧
      alone' s.active.target.core = regs' s.active.target.core := by
  obtain ⟨htext, hreplies⟩ := hf
  have hreg' : Accesses f.packet.payload := htext ▸ hreg
  have hsame : dispatchPacket polls s e.packet = dispatchPacket polls s f.packet := by
    rw [hwhole.isolated hreg f.packet.stale, htext]
  have hasks := dispatch_asks polls s f.packet.buf f.packet.payload.length
  rw [Step, hsame] at h
  rw [← dispatchPacket] at hasks
  rw [dispatch_regCommand polls s hreg', regCommand_lone] at h hasks
  obtain ⟨_, y, hrun, hend⟩ := h.unbind
  cases hend
  have hcan : (regCommand (lone s.active) f.packet).Can (replying (coreRegs fails))
      (fun _ y => y = (regs', e.replies)) (regs, []) := ⟨_, _, hrun, rfl⟩
  have hstart : AgreeOn s.active.target.core (regs, []) (alone, []) := ⟨ha, rfl⟩
  have hsim : (regCommand (lone s.active) f.packet).Can (replying (coreRegs fails))
      (fun _ y => ∃ x, AgreeOn s.active.target.core x y ∧ x = (regs', e.replies)) (alone, []) :=
    ((asks_bind _ _).mp hasks).can_sim (AgreeOn s.active.target.core) agreeOn_sim hstart hcan
  obtain ⟨_, ⟨alone', out⟩, hrun', _, ⟨hcore, hout⟩, rfl⟩ := hsim
  obtain rfl : out = e.replies := hout
  refine ⟨alone', ?_, hcore⟩
  rw [Step, dispatch_regCommand polls _ hreg', ← hreplies]
  exact hrun'.bind (.ret _ _)

end

/-! ## Each core alone -/

/-- The register packets that arrive while core `n` is selected. -/
def during (ncore n : Nat) : Nat → List Exchange → List Exchange
  | _, [] => []
  | cur, e :: es =>
    if cur = n ∧ e.packet.payload.getD 0 0 ≠ 72 then
      e :: during ncore n (wanted ncore cur e.packet.payload) es
    else during ncore n (wanted ncore cur e.packet.payload) es

/-- A stub with the core of `m` alone, from the registers of that core, replies the same to
the packets of `es` and leaves the same registers. -/
def AsAlone (fails : BusOp → Prop) (polls : Nat) (m : CoreMap) (regs : Regs) (es : List Exchange)
    (regs' : Regs) : Prop :=
  ∀ fs alone, List.Forall₂ SameText es fs → alone m.target.core = regs m.target.core →
    ∃ alone', Session (fun _ _ => True) (coreRegs fails) polls (lone m) alone fs (lone m) alone' ∧
      alone' m.target.core = regs' m.target.core

/-- Each core has a handle of its own. -/
def Distinct (ncore : Nat) (all : Nat → CoreMap) : Prop :=
  ∀ i < ncore, ∀ j < ncore, (all i).target.core = (all j).target.core → i = j

section
variable {fails : BusOp → Prop} {polls : Nat} {m : CoreMap} {regs regs' regs'' : Regs}
  {e : Exchange} {es : List Exchange}

theorem AsAlone.nil : AsAlone fails polls m regs [] regs := by
  intro fs alone hsame ha
  cases hsame
  exact ⟨alone, .nil _ _, ha⟩

/-- A packet that leaves the core as it is. -/
theorem AsAlone.skip (h : AsAlone fails polls m regs' es regs'')
    (hregs : regs' m.target.core = regs m.target.core) : AsAlone fails polls m regs es regs'' :=
  fun fs alone hsame ha => h fs alone hsame (ha.trans hregs.symm)

theorem AsAlone.cons {s s' : Stub} (h : AsAlone fails polls s.active regs' es regs'')
    (hstep : Step (coreRegs fails) polls s regs e s' regs') (hreg : Accesses e.packet.payload)
    (hwhole : Whole s e.packet) : AsAlone fails polls s.active regs (e :: es) regs'' := by
  intro fs alone hsame ha
  cases hsame with
  | cons hf hrest =>
    obtain ⟨alone', hstep', ha'⟩ := hstep.alone hreg hwhole hf ha
    obtain ⟨alone'', hsession, ha''⟩ := h _ alone' hrest ha'
    exact ⟨alone'', .cons trivial hstep' hsession, ha''⟩

theorem Session.alone {s s' : Stub}
    (h : Session (fun s p => Heeds s p ∧ Whole s p) (coreRegs fails) polls s regs es s' regs')
    (hdistinct : Distinct s.ncore s.all) (hreg : ∀ e ∈ es, RegPacket e.packet.payload) {n : Nat}
    (hn : n < s.ncore) :
    AsAlone fails polls (s.all n) regs (during s.ncore n s.cur es) regs' := by
  induction h with
  | nil s regs => exact .nil
  | @cons s s' s'' regs regs' regs'' e es hok hstep hrest ih =>
    obtain ⟨hheeds, hwhole⟩ := hok
    obtain ⟨hall, hncore, hcur⟩ := selects_iff hstep.selects
    have htail := ih (hall ▸ hncore ▸ hdistinct) (fun f hf => hreg f (List.mem_cons_of_mem _ hf))
      (hncore ▸ hn)
    rw [hall, hncore, hcur.mpr hheeds] at htail
    have hpacket := hreg e List.mem_cons_self
    rw [during]
    split
    · rename_i hhere
      obtain ⟨rfl, hH⟩ := hhere
      rw [← s.active_eq] at htail ⊢
      exact htail.cons hstep (hpacket.resolve_right hH) hwhole
    · rename_i helse
      apply htail.skip
      by_contra hne
      obtain ⟨hcore, hwrites⟩ := hstep.changes hpacket hne
      rw [s.active_eq] at hcore
      refine helse ⟨hdistinct _ s.cur_lt n hn hcore, ?_⟩
      intro hH
      rw [Writes, hH] at hwrites
      exact absurd hwrites (by decide)

end

/-- In every session of a started stub whose `H` packets select no thread but the one they
name, the selected thread is the one named last, and all that is asked and replied is about
it. Registers of a core change by `G` and `P` packets for it alone, and where no value of a
`P` packet is read past its end, each core has the session it would have alone. -/
theorem threads_separate (polls ncore : Nat) (all : Nat → CoreMap)
    (h : 0 < ncore ∧ ncore ≤ NCORE) :
    (∀ {σ : Type} (E : Env BusSig σ) x es s x',
      Session Heeds E polls (.start ncore all h) x es s x' →
        Separate ncore all (selected ncore 0 es) s ∧
          ∀ e s' x'', Step E polls s x' e s' x'' →
            (Separate ncore all (wanted ncore (selected ncore 0 es) e.packet.payload) s' ↔
              Heeds s e.packet)) ∧
    (Distinct ncore all → ∀ fails regs es s regs',
      (Session Heeds (coreRegs fails) polls (.start ncore all h) regs es s regs' →
        ∀ e s' regs'', Step (coreRegs fails) polls s regs' e s' regs'' →
          RegPacket e.packet.payload → ∀ n < ncore,
            regs'' (all n).target.core ≠ regs' (all n).target.core →
              selected ncore 0 es = n ∧ Writes e.packet.payload) ∧
      (Session (fun s p => Heeds s p ∧ Whole s p) (coreRegs fails) polls (.start ncore all h) regs
          es s regs' →
        (∀ e ∈ es, RegPacket e.packet.payload) → ∀ n < ncore,
          AsAlone fails polls (all n) regs (during ncore n 0 es) regs')) := by
  refine ⟨fun E x es s x' hsession => ⟨hsession.separate, fun e s' x'' => hsession.next_iff⟩, ?_⟩
  intro hdistinct fails regs es s regs'
  refine ⟨?_, fun hsession hreg n hn => hsession.alone hdistinct hreg hn⟩
  intro hsession e s' regs'' hstep hpacket n hn hne
  have hsep := hsession.separate
  obtain ⟨hcore, hwrites⟩ := hstep.changes hpacket hne
  rw [hsep.active] at hcore
  exact ⟨hdistinct _ hsep.inRange n hn hcore, hwrites⟩

/-! ## Two cores -/

/-- Cores 0 and 1, with all their registers. -/
def pairMaps (i : Nat) : CoreMap := ⟨⟨i, 0⟩, fun r => ⟨UInt64.ofNat r, 1⟩, fun _ => true⟩

def pair : Stub := .start 2 pairMaps two_cores

/-- Every access succeeds. -/
def regsBy (regs : Regs) : (o : BusOp) → BusSig.Res o × Regs
  | .read c a => ((some (regs c a) : Option UInt32), regs)
  | .write c a v => (true, regs.set c a v)

theorem regsBy_coreRegs {fails : BusOp → Prop} (regs : Regs) (o : BusOp) :
    coreRegs fails regs o (regsBy regs o).1 (regsBy regs o).2 := by
  cases o with
  | read c a => exact ⟨.inl rfl, rfl⟩
  | write c a v => exact .inl ⟨rfl, rfl⟩

theorem step_regsBy {fails : BusOp → Prop} {s s' : Stub} {regs regs' : Regs} {e : Exchange}
    (h : (dispatchPacket 0 s e.packet).exec (replyingBy regsBy) (regs, []) =
      (.ok (some s'), (regs', e.replies))) :
    Step (coreRegs fails) 0 s regs e s' regs' := by
  have hruns := runs_replyingBy (E := coreRegs fails) regsBy regsBy_coreRegs
    (dispatchPacket 0 s e.packet) (regs, [])
  rw [h] at hruns
  exact hruns

def setFirst : Exchange := ⟨⟨bytes "P0=78563412", []⟩, [bytes "OK"]⟩
def toSecond : Exchange := ⟨⟨bytes "Hg2", []⟩, [bytes "OK"]⟩
def getZero : Exchange := ⟨⟨bytes "p0", []⟩, [bytes "00000000"]⟩
def toFirst : Exchange := ⟨⟨bytes "Hg1", []⟩, [bytes "OK"]⟩
def getFirst : Exchange := ⟨⟨bytes "p0", []⟩, [bytes "78563412"]⟩

def zeros : Regs := fun _ _ => 0

def firstSet : Regs := zeros.set 0 ⟨0, 1⟩ 0x12345678

theorem step_setFirst : Step (coreRegs fun _ => False) 0 pair zeros setFirst pair firstSet :=
  step_regsBy rfl

theorem step_toSecond {regs : Regs} :
    Step (coreRegs fun _ => False) 0 pair regs toSecond (selectThread pair 1) regs :=
  step_regsBy rfl

/-- A register of core 0 is set, and then one of core 1 and that of core 0 are read. -/
theorem pair_session : Session (fun s p => Heeds s p ∧ Whole s p) (coreRegs fun _ => False) 0 pair
    zeros [setFirst, toSecond, getZero, toFirst, getFirst] (selectThread (selectThread pair 1) 0)
    firstSet := by
  have hwhole : Whole pair setFirst.packet := by
    rintro - (⟨halone, -⟩ | ⟨pre, post, hpay, h61, h0, -, hshort⟩)
    · exact absurd halone (by decide)
    · have hfirst := strchr_first 61 (80 :: pre) post (by simpa using h61) (by simpa using h0)
      rw [List.cons_append] at hfirst
      rw [← List.cons_append, ← hpay] at hfirst
      obtain rfl : bytes "78563412" = post := by
        injection hfirst.symm.trans rfl with hpost
        injection hpost with _ htail
        exact htail.symm
      exact absurd hshort.1 (by decide)
  have hnoP : ∀ {s : Stub} {p : Packet}, p.payload.getD 0 0 ≠ 80 → Whole s p :=
    fun h hP => absurd hP h
  refine .cons ⟨fun h => absurd h (by decide), hwhole⟩ step_setFirst ?_
  refine .cons ⟨fun _ _ _ _ => .inl (by decide), hnoP (by decide)⟩ step_toSecond ?_
  refine .cons ⟨fun h => absurd h (by decide), hnoP (by decide)⟩ (step_regsBy rfl) ?_
  refine .cons ⟨fun _ _ _ _ => .inl (by decide), hnoP (by decide)⟩ (step_regsBy rfl) ?_
  exact .cons ⟨fun h => absurd h (by decide), hnoP (by decide)⟩ (step_regsBy rfl) (.nil _ _)

theorem threads_separate_pair :
    Separate 2 pairMaps 1 (selectThread pair 1) ∧
      (selected 2 0 [] = 0 ∧ Writes setFirst.packet.payload) ∧
      AsAlone (fun _ => False) 0 (pairMaps 1) zeros [getZero] firstSet := by
  have hdistinct : Distinct 2 pairMaps := fun i _ j _ h => h
  have hsecond : Session Heeds (coreRegs fun _ => False) 0 pair zeros [toSecond]
      (selectThread pair 1) zeros :=
    .cons (fun _ _ _ _ => .inl (by decide)) step_toSecond (.nil _ _)
  obtain ⟨hseparate, hregs⟩ := threads_separate 0 2 pairMaps two_cores
  refine ⟨(hseparate _ _ _ _ _ hsecond).1, ?_, ?_⟩
  · refine (hregs hdistinct _ zeros [] pair zeros).1 (.nil _ _) setFirst pair firstSet
      step_setFirst (.inl (by rw [Accesses]; decide)) 0 (by decide) ?_
    intro h
    exact absurd (congrFun h ⟨0, 1⟩) (by decide)
  · refine (hregs hdistinct _ _ _ _ _).2 pair_session ?_ 1 (by decide)
    simp only [RegPacket, Accesses]
    decide

/-- The number of the packet is 2 in its low half, and the second thread is selected. -/
theorem cut_number_selects :
    ¬ ∀ es s regs, Session (fun _ _ => True) (coreRegs fun _ => False) 0 pair zeros es s regs →
      Separate 2 pairMaps (selected 2 0 es) s := by
  intro h
  have hstep : Step (coreRegs fun _ => False) 0 pair zeros
      ⟨⟨bytes "Hg100000002", []⟩, [bytes "OK"]⟩ (selectThread pair 1) zeros := step_regsBy rfl
  have hsep := h _ _ _ (.cons trivial hstep (.nil _ _))
  exact absurd hsep.current (by decide)

end OpenTricore.Threads
