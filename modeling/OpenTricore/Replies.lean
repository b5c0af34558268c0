import OpenTricore.Isolation

/-! What a packet can make the stub do, for every state of the stub and every answer of
the target: all accesses and all run control go to the selected core, and each reply has
one of a few shapes (`dispatch_asks`). -/

namespace OpenTricore
open Lib Lib.Prog

/-! ## The access layer -/

def BusOp.core : BusOp → Core
  | .read c _ => c
  | .write c _ _ => c

def BusOp.mcdAddr : BusOp → McdAddr
  | .read _ a => a
  | .write _ a _ => a

/-- An access to the core and the memory space of `t`. -/
def OnTarget (t : Target) (o : BusSig.Op) : Prop :=
  BusOp.core o = t.core ∧ (BusOp.mcdAddr o).memSpaceId = t.msid

section
variable (t : Target)

theorem asks_tcmcdRead (addr : UInt64) (buf : Nat → UInt8) (len : UInt32) :
    (tcmcdRead t addr buf len).Asks (OnTarget t) fun _ => True := by
  apply asks_loop (fun _ => True) _ _ _ _ _ trivial
  rintro ⟨a, buf⟩ -
  dsimp only
  split
  · simp only [rd32Try, asks_bind, asks_xferR]
    refine ⟨⟨rfl, rfl⟩, fun r => ?_⟩
    cases r with
    | none => trivial
    | some w => trivial
  · trivial

theorem asks_oldWord (addr : UInt64) (len : UInt32) (a : UInt64) :
    (oldWord t addr len a).Asks (OnTarget t) fun _ => True := by
  rw [oldWord]
  split
  · trivial
  · exact ⟨⟨rfl, rfl⟩, fun _ => trivial⟩

theorem asks_tcmcdWrite (addr : UInt64) (buf : Nat → UInt8) (len : UInt32) :
    (tcmcdWrite t addr buf len).Asks (OnTarget t) fun _ => True := by
  apply asks_loop (fun _ => True) _ _ _ _ _ trivial
  intro a _
  split
  · rw [asks_bind]
    apply Asks.mono (asks_oldWord t addr len a)
    intro r _
    cases r with
    | none => trivial
    | some w =>
      simp only [asks_bind, asks_xferW]
      refine ⟨⟨rfl, rfl⟩, fun ok => ?_⟩
      cases ok with
      | true => trivial
      | false => trivial
  · trivial

theorem asks_w32 (a : UInt64) (v : UInt32) :
    (w32 t a v).Asks (OnTarget t) fun _ => True := by
  simp only [w32, asks_bind, asks_xferW]
  refine ⟨⟨rfl, rfl⟩, fun ok => ?_⟩
  cases ok with
  | true => trivial
  | false => trivial

theorem asks_w32Any (ws : List (UInt64 × UInt32)) :
    (w32Any t ws).Asks (OnTarget t) fun _ => True := by
  induction ws with
  | nil => trivial
  | cons w ws ih =>
    rw [w32Any, asks_bind]
    apply Asks.mono (asks_w32 t w.1 w.2)
    intro rc _
    split
    · trivial
    · exact ih

theorem asks_flashWaitLoop (n : Nat) : (flashWaitLoop t n).Asks (OnTarget t) fun _ => True := by
  induction n with
  | zero => trivial
  | succ n ih =>
    simp only [flashWaitLoop, asks_bind, asks_xferR]
    refine ⟨⟨rfl, rfl⟩, fun r => ?_⟩
    cases r with
    | none => trivial
    | some s =>
      dsimp only
      split
      · trivial
      · exact ih

theorem asks_flashWait : (flashWait t).Asks (OnTarget t) fun _ => True := by
  unfold flashWait
  exact asks_flashWaitLoop t 200000

theorem asks_flashCommand (ws : List (UInt64 × UInt32)) :
    (flashCommand t ws).Asks (OnTarget t) fun _ => True := by
  rw [flashCommand, asks_bind]
  apply Asks.mono (asks_w32Any t ws)
  intro failed _
  split
  · trivial
  · rw [asks_bind]
    exact (asks_flashWait t).mono fun _ _ => trivial

theorem asks_tcmcdFlashErase (addr len : UInt64) :
    (tcmcdFlashErase t addr len).Asks (OnTarget t) fun _ => True := by
  rw [tcmcdFlashErase]
  split
  · trivial
  · apply asks_loop (fun _ => True) _ _ _ _ _ trivial
    intro s _
    split
    · rw [asks_bind]
      apply Asks.mono (asks_flashCommand t _)
      intro failed _
      split <;> trivial
    · trivial

theorem asks_programPage (addr : UInt64) (data : Nat → UInt8) (len off : UInt32) :
    (programPage t addr data len off).Asks (OnTarget t) fun _ => True := by
  rw [programPage_eq]
  exact asks_flashCommand t _

theorem asks_tcmcdFlashProgram (addr : UInt64) (data : Nat → UInt8) (len : UInt32) :
    (tcmcdFlashProgram t addr data len).Asks (OnTarget t) fun _ => True := by
  rw [tcmcdFlashProgram]
  split
  · trivial
  · rw [asks_bind]
    apply Asks.mono (R := fun _ => True)
    · apply asks_loop (fun _ => True) _ _ _ _ _ trivial
      intro off _
      split
      · rw [asks_bind]
        apply Asks.mono (asks_programPage t addr data len off)
        intro failed _
        split <;> trivial
      · trivial
    · intro rc _
      split
      · trivial
      · rw [asks_bind]
        exact (asks_w32 t _ _).mono fun _ _ => trivial

theorem asks_flashDone (b : FlashBuf) : (flashDone t b).Asks (OnTarget t) fun _ => True := by
  rw [flashDone]
  split
  · trivial
  · rw [asks_bind]
    exact (asks_tcmcdFlashProgram t _ _ _).mono fun _ _ => trivial

end

/-! ## Shapes of replies -/

/-- The texts that stand in the source. -/
def fixedReplies : List (List UInt8) :=
  [bytes "", bytes "OK", bytes "E01", bytes "1", bytes "l",
    bytes "PacketSize=1000;qXfer:memory-map:read+", bytes "vCont;c;C;s;S"]

/-- A hexadecimal digit, or the `x` of a value that is not there. -/
def ValueChar (b : UInt8) : Prop := digit16 b ≠ none ∨ b = 120

/-- What a stub may reply. -/
inductive Reply (s : Stub) : List UInt8 → Prop
  | fixed {d : List UInt8} (h : d ∈ fixedReplies) : Reply s d
  | stop : Reply s (stopReply s)
  | current : Reply s (bytes "QC" ++ printHex (s.cur + 1))
  | threads : Reply s (threadList s.ncore)
  | values {d : List UInt8} (h : ∀ b ∈ d, ValueChar b) (hlen : d.length ≤ BUFSZ) : Reply s d
  | chunk (args : List UInt8) : Reply s (qxferChunk MEMMAP args)

theorem hexd_digit {n : Nat} (h : n < 16) : digit16 (hexd n) = some n := by
  have key : ∀ n : Fin 16, digit16 (hexd n) = some n.val := by decide
  exact key ⟨n, h⟩

theorem valueChar_hexd {n : Nat} (h : n < 16) : ValueChar (hexd n) :=
  .inl (by simp [hexd_digit h])

theorem valueChar_hexOfByte (b : UInt8) : ∀ c ∈ hexOfByte b, ValueChar c := by
  have hhigh : (b >>> 4).toNat < 16 := by
    rw [UInt8.toNat_shiftRight]
    have := b.toNat_lt
    simp [Nat.shiftRight_eq_div_pow]
    omega
  have hlow : (b &&& 0xF).toNat < 16 := by
    rw [UInt8.toNat_and]
    exact Nat.lt_of_le_of_lt Nat.and_le_right (by decide)
  intro c hc
  simp only [hexOfByte, List.mem_cons, List.not_mem_nil, or_false] at hc
  rcases hc with rfl | rfl
  · exact valueChar_hexd hhigh
  · exact valueChar_hexd hlow

theorem valueChar_hexOfBytes (mb : Nat → UInt8) (n : Nat) : ∀ c ∈ hexOfBytes mb n, ValueChar c := by
  intro c hc
  obtain ⟨i, -, hi⟩ := List.mem_flatMap.mp hc
  exact valueChar_hexOfByte (mb i) c hi

theorem valueChar_putU32Le (v : UInt32) : ∀ c ∈ putU32Le v, ValueChar c := by
  have hnibble : ∀ x : UInt32, (x &&& 0xF).toNat < 16 := by
    intro x
    rw [UInt32.toNat_and]
    exact Nat.lt_of_le_of_lt Nat.and_le_right (by decide)
  intro c hc
  obtain ⟨b, -, hb⟩ := List.mem_flatMap.mp hc
  simp only [List.mem_cons, List.not_mem_nil, or_false] at hb
  rcases hb with rfl | rfl
  · exact valueChar_hexd (hnibble _)
  · exact valueChar_hexd (hnibble _)

theorem valueChar_unavailable : ∀ c ∈ unavailable, ValueChar c := by
  intro c hc
  exact .inr (List.eq_of_mem_replicate hc)

/-! ## What the stub may ask -/

/-- An access that goes to the selected core: in its memory space, or to one of its
registers. -/
def Stub.Access (s : Stub) (o : BusSig.Op) : Prop :=
  BusOp.core o = s.active.target.core ∧
    ((BusOp.mcdAddr o).memSpaceId = s.active.target.msid ∨
      ∃ i, s.active.regok i = true ∧ BusOp.mcdAddr o = s.active.rega i)

def Stub.May (s : Stub) : StubOp → Prop
  | .bus o => s.Access o
  | .getPacket _ => False
  | .putPacket d => Reply s d
  | .sockHasByte => True
  | .readByte => True
  | .qryState c => c = s.active.target.core
  | .stop c => c = s.active.target.core
  | .run c => c = s.active.target.core
  | .step c => c = s.active.target.core
  | .createTrig c t =>
    c = s.active.target.core ∧ t.addrStart.memSpaceId = s.active.target.msid
  | .activateTrigSet c => c = s.active.target.core
  | .removeTrig c _ => c = s.active.target.core
  | .malloc _ => True

/-- The threads, and which of them is selected, are as they were. -/
structure SameThreads (s s' : Stub) : Prop where
  all : s'.all = s.all
  ncore : s'.ncore = s.ncore
  cur : s'.cur = s.cur

theorem SameThreads.refl (s : Stub) : SameThreads s s := ⟨rfl, rfl, rfl⟩

section
variable {α : Type} {s : Stub} {P : StubSig.Op → Prop}

theorem asks_stubAsk {o : StubOp} {f : StubSig.Res o → StubProg α} {R : α → Prop} (ho : P o)
    (hf : ∀ r, (f r).Asks P R) : (ask o >>= f).Asks P R :=
  ⟨ho, hf⟩

theorem asks_putPacket {R : Unit → Prop} (d : List UInt8) :
    Prog.Asks P R (putPacket d) ↔ P (.putPacket d) ∧ R () := by
  constructor
  · rintro ⟨hd, hR⟩
    exact ⟨hd, hR (0 : Int)⟩
  · rintro ⟨hd, hR⟩
    exact ⟨hd, fun _ => hR⟩

theorem asks_onBus {p : Bus α} {R : α → Prop} (h : p.Asks (OnTarget s.active.target) R) :
    (onBus p).Asks s.May R := by
  have hwide : p.Asks (fun o => s.May (.bus o)) R := Asks.widen h fun o ho => ⟨ho.1, .inl ho.2⟩
  exact hwide.lift

theorem asks_fixed {R : Unit → Prop} {d : List UInt8} (h : d ∈ fixedReplies) (hR : R ()) :
    Prog.Asks s.May R (putPacket d) :=
  (asks_putPacket d).mpr ⟨.fixed h, hR⟩

/-- A fixed reply, and the stub as it was. -/
theorem asks_fixed_same {d : List UInt8} (h : d ∈ fixedReplies) :
    (putPacket d >>= fun _ => (pure s : StubProg Stub)).Asks s.May (SameThreads s) := by
  rw [asks_bind]
  exact asks_fixed h (.refl s)

theorem asks_reportStop : (reportStop s).Asks s.May fun _ => True :=
  (asks_putPacket _).mpr ⟨.stop, trivial⟩

theorem asks_pollInterrupt : (pollInterrupt s).Asks s.May fun _ => True := by
  refine asks_stubAsk trivial fun (has : Bool) => ?_
  cases has with
  | false => trivial
  | true =>
    refine asks_stubAsk trivial fun (byte : Option UInt8) => ?_
    cases byte with
    | none => trivial
    | some c =>
      dsimp only
      split
      · exact asks_stubAsk rfl fun _ => trivial
      · trivial

theorem asks_waitAndReport (polls : Nat) : (waitAndReport polls s).Asks s.May fun _ => True := by
  rw [waitAndReport, asks_bind]
  apply Asks.mono (R := fun _ => True)
  · apply asks_loop (fun _ => True) _ _ _ _ _ trivial
    intro _ _
    refine asks_stubAsk rfl fun (st : Option McdCoreState) => ?_
    rcases st with _ | _ | _
    · trivial
    · rw [asks_bind]
      exact asks_pollInterrupt.mono fun _ _ => trivial
    · trivial
  · exact fun _ _ => asks_reportStop

theorem asks_doContinue (polls : Nat) : (doContinue polls s).Asks s.May fun _ => True := by
  refine asks_stubAsk rfl fun (ok : Bool) => ?_
  cases ok with
  | true => exact asks_waitAndReport polls
  | false => exact asks_fixed (by decide) trivial

theorem asks_doStep (polls : Nat) : (doStep polls s).Asks s.May fun _ => True := by
  refine asks_stubAsk rfl fun (ok : Bool) => ?_
  cases ok with
  | true => exact asks_waitAndReport polls
  | false => exact asks_fixed (by decide) trivial

/-! ## The handlers -/

theorem asks_trigSet (addr : UInt64) (gtype : Int) (range : UInt32) :
    (trigSet s addr gtype range).Asks s.May fun x => SameThreads s x.2 := by
  rw [trigSet]
  split
  · exact .refl s
  · split
    · exact .refl s
    · refine asks_stubAsk ⟨rfl, rfl⟩ fun (id : Option UInt32) => ?_
      cases id with
      | none => exact .refl s
      | some id =>
        refine asks_stubAsk rfl fun _ => ?_
        split
        · exact ⟨rfl, rfl, rfl⟩
        · exact .refl s

theorem asks_trigClear (addr : UInt64) (gtype : Int) :
    (trigClear s addr gtype).Asks s.May (SameThreads s) := by
  rw [trigClear]
  split
  · exact .refl s
  · refine asks_stubAsk rfl fun _ => ?_
    refine asks_stubAsk rfl fun _ => ?_
    exact ⟨rfl, rfl, rfl⟩

theorem asks_handle_Z (p : List UInt8) : (handle_Z s p).Asks s.May (SameThreads s) := by
  rw [handle_Z]
  dsimp only
  split
  · exact asks_fixed_same (by decide)
  · split
    · exact asks_fixed_same (by decide)
    · rw [asks_bind]
      apply Asks.mono (asks_trigSet _ _ _)
      intro x hx
      rw [asks_bind]
      split
      · exact asks_fixed (by decide) hx
      · exact asks_fixed (by decide) hx

theorem asks_handle_z (p : List UInt8) : (handle_z s p).Asks s.May (SameThreads s) := by
  rw [handle_z]
  split
  · exact asks_fixed_same (by decide)
  · split
    · exact asks_fixed_same (by decide)
    · rw [asks_bind]
      apply Asks.mono (asks_trigClear _ _)
      intro s' hs
      rw [asks_bind]
      exact asks_fixed (by decide) hs

theorem asks_handle_q (p : List UInt8) : (handle_q s p).Asks s.May fun _ => True := by
  have hreply : ∀ {d : List UInt8}, Reply s d → (putPacket d).Asks s.May fun _ => True :=
    fun hd => (asks_putPacket _).mpr ⟨hd, trivial⟩
  unfold handle_q
  split
  · exact asks_fixed (by decide) trivial
  split
  · split
    · exact hreply (.chunk _)
    · exact hreply (.chunk _)
  split
  · exact asks_fixed (by decide) trivial
  split
  · exact hreply .current
  split
  · exact hreply .threads
  split
  · exact asks_fixed (by decide) trivial
  split
  · exact asks_fixed (by decide) trivial
  · exact asks_fixed (by decide) trivial

theorem okOr_fixed (rc : Int) : okOr rc ∈ fixedReplies := by
  rw [okOr]
  split <;> decide

theorem asks_vCont (polls : Nat) (p : List UInt8) :
    (vCont polls s p).Asks s.May fun _ => True := by
  unfold vCont
  dsimp only
  split
  · exact asks_doStep polls
  split
  · exact asks_doContinue polls
  · exact asks_fixed (by decide) trivial

theorem asks_vFlashErase (p : List UInt8) : (vFlashErase s p).Asks s.May fun _ => True := by
  rw [vFlashErase]
  rw [asks_bind]
  apply Asks.mono (asks_onBus (asks_tcmcdFlashErase _ _ _))
  exact fun rc _ => asks_fixed (okOr_fixed rc) trivial

theorem asks_vFlashWrite (p : List UInt8) (n : Int) :
    (vFlashWrite s p n).Asks s.May (SameThreads s) := by
  rw [vFlashWrite]
  split
  · trivial
  · rw [asks_bind]
    exact asks_fixed (okOr_fixed _) ⟨rfl, rfl, rfl⟩

theorem asks_vFlashDone : (vFlashDone s).Asks s.May (SameThreads s) := by
  rw [vFlashDone, asks_bind]
  apply Asks.mono (asks_onBus (asks_flashDone _ _))
  intro x _
  rw [asks_bind]
  exact asks_fixed (okOr_fixed _) ⟨rfl, rfl, rfl⟩

/-- A handler that keeps the stub. -/
theorem asks_same {p : StubProg Unit} (h : p.Asks s.May fun _ => True) :
    (p >>= fun _ => (pure s : StubProg Stub)).Asks s.May (SameThreads s) := by
  rw [asks_bind]
  exact h.mono fun _ _ => .refl s

theorem asks_handle_v (polls : Nat) (p : List UInt8) (n : Int) :
    (handle_v polls s p n).Asks s.May (SameThreads s) := by
  unfold handle_v
  split
  · exact asks_fixed_same (by decide)
  split
  · exact asks_fixed_same (by decide)
  split
  · exact asks_same (asks_vCont polls p)
  split
  · exact asks_same (asks_vFlashErase p)
  split
  · exact asks_vFlashWrite p n
  split
  · exact asks_vFlashDone
  · exact asks_fixed_same (by decide)

theorem asks_getReg {i : Fin NREG} (h : s.active.regok i = true) :
    (getReg s (s.active.rega i)).Asks s.May fun _ => True := by
  refine asks_stubAsk ⟨rfl, .inr ⟨i, h, rfl⟩⟩ fun (v : Option UInt32) => ?_
  cases v with
  | none => trivial
  | some v => trivial

theorem asks_setReg {i : Fin NREG} (h : s.active.regok i = true) (v : UInt32) :
    (setReg s (s.active.rega i) v).Asks s.May fun _ => True := by
  refine asks_stubAsk ⟨rfl, .inr ⟨i, h, rfl⟩⟩ fun (ok : Bool) => ?_
  cases ok with
  | true => trivial
  | false => trivial

/-- The text of `n` registers. -/
def RegTexts (n : Nat) (text : List UInt8) : Prop :=
  (∀ c ∈ text, ValueChar c) ∧ text.length = 8 * n

theorem asks_regText (i : Fin NREG) : (regText s i).Asks s.May (RegTexts 1) := by
  rw [regText]
  split
  · rename_i hok
    rw [asks_bind]
    exact (asks_getReg hok).mono fun v _ => ⟨valueChar_putU32Le v, rfl⟩
  · exact ⟨valueChar_unavailable, rfl⟩

theorem asks_regTexts (is : List (Fin NREG)) :
    (regTexts s is).Asks s.May (RegTexts is.length) := by
  induction is with
  | nil => exact ⟨List.forall_mem_nil _, rfl⟩
  | cons i is ih =>
    rw [regTexts, asks_bind]
    apply Asks.mono (asks_regText i)
    rintro text ⟨htext, hlen⟩
    rw [asks_bind]
    apply Asks.mono ih
    rintro rest ⟨hrest, hlen'⟩
    refine ⟨fun c hc => (List.mem_append.mp hc).elim (htext c) (hrest c), ?_⟩
    rw [List.length_append, List.length_cons]
    omega

theorem asks_handle_g : (handle_g s).Asks s.May fun _ => True := by
  rw [handle_g, asks_bind]
  apply Asks.mono (asks_regTexts regIndices)
  rintro text ⟨htext, hlen⟩
  have hfits : text.length ≤ BUFSZ := by
    rw [hlen, regIndices, List.length_finRange]
    decide
  exact (asks_putPacket _).mpr ⟨.values htext hfits, trivial⟩

theorem asks_setRegs (p : List UInt8) (is : List (Fin NREG)) :
    (setRegs s p is).Asks s.May fun _ => True := by
  induction is with
  | nil => trivial
  | cons i is ih =>
    rw [setRegs]
    split
    · rename_i hok
      rw [asks_bind]
      exact (asks_setReg hok _).mono fun _ _ => ih
    · exact ih

theorem asks_handle_G (p : List UInt8) : (handle_G s p).Asks s.May fun _ => True := by
  rw [handle_G]
  split
  · exact asks_fixed (by decide) trivial
  · rw [asks_bind]
    exact (asks_setRegs p regIndices).mono fun _ _ => asks_fixed (by decide) trivial

theorem regAt_ok {idx : UInt32} {i : Fin NREG} (h : regAt s idx = some i) :
    s.active.regok i = true := by
  rw [regAt] at h
  split at h
  · split at h
    · cases h
      assumption
    · cases h
  · cases h

theorem asks_handle_p (p : List UInt8) : (handle_p s p).Asks s.May fun _ => True := by
  rw [handle_p]
  split
  · rename_i i hi
    rw [asks_bind]
    exact (asks_getReg (regAt_ok hi)).mono fun v _ =>
      (asks_putPacket _).mpr ⟨.values (valueChar_putU32Le v) (show 8 ≤ BUFSZ by decide), trivial⟩
  · exact (asks_putPacket _).mpr ⟨.values valueChar_unavailable (by decide), trivial⟩

theorem asks_handle_P (p : List UInt8) : (handle_P s p).Asks s.May fun _ => True := by
  rw [handle_P]
  split
  · exact asks_fixed (by decide) trivial
  · split
    · rename_i i hi
      rw [asks_bind]
      exact (asks_setReg (regAt_ok hi) _).mono fun _ _ => asks_fixed (by decide) trivial
    · exact asks_fixed (by decide) trivial

theorem asks_handle_m (p : List UInt8) : (handle_m s p).Asks s.May fun _ => True := by
  have hfits : ∀ mb, (hexOfBytes mb
      (min (numberAfterComma p).toUInt32 (UInt32.ofNat ((BUFSZ - 8) / 2))).toNat).length ≤
        BUFSZ := by
    intro mb
    rw [length_hexOfBytes]
    have hcap : ∀ a b : UInt32, (min a b).toNat ≤ b.toNat := by
      intro a b
      change (if a ≤ b then a else b).toNat ≤ b.toNat
      split
      · exact UInt32.le_iff_toNat_le.mp ‹_›
      · exact Nat.le_refl _
    have hlen := hcap (numberAfterComma p).toUInt32 (UInt32.ofNat ((BUFSZ - 8) / 2))
    exact Nat.le_trans (Nat.mul_le_mul_left 2 hlen) (by decide)
  rw [handle_m]
  dsimp only
  split
  · exact asks_fixed (by decide) trivial
  · refine asks_stubAsk trivial fun (mb : Nat → UInt8) => ?_
    rw [asks_bind]
    apply Asks.mono (asks_onBus (asks_tcmcdRead _ _ _ _))
    intro x _
    split
    · exact asks_fixed (by decide) trivial
    · exact (asks_putPacket _).mpr ⟨.values (valueChar_hexOfBytes _ _) (hfits _), trivial⟩

theorem asks_handle_M (p : List UInt8) : (handle_M s p).Asks s.May fun _ => True := by
  rw [handle_M]
  split
  · dsimp only
    split
    · exact asks_fixed (by decide) trivial
    · rw [asks_bind]
      apply Asks.mono (asks_onBus (asks_tcmcdWrite _ _ _ _))
      exact fun rc _ => asks_fixed (okOr_fixed rc) trivial
  · exact asks_fixed (by decide) trivial

/-! ## The loop -/

/-- What a packet leaves: the threads as they were, but for the one an `H` packet selects. -/
def Selects (s : Stub) (buf : List UInt8) (s' : Stub) : Prop :=
  if buf.getD 0 0 = 72 then s' = threadArg s (buf.drop 2) else SameThreads s s'

theorem asks_stays {p : StubProg Unit} (h : p.Asks s.May fun _ => True) :
    (p >>= fun _ => (pure (some s) : StubProg (Option Stub))).Asks s.May
      fun x => ∀ s', x = some s' → SameThreads s s' := by
  rw [asks_bind]
  apply Asks.mono h
  rintro _ _ _ ⟨⟩
  exact .refl s

theorem asks_moves {p : StubProg Stub} (h : p.Asks s.May (SameThreads s)) :
    (p >>= fun s' => (pure (some s') : StubProg (Option Stub))).Asks s.May
      fun x => ∀ s', x = some s' → SameThreads s s' := by
  rw [asks_bind]
  apply Asks.mono h
  rintro s' hs _ ⟨⟩
  exact hs

/-- Everything a packet can make the stub do. -/
theorem dispatch_asks (polls : Nat) (s : Stub) (buf : List UInt8) (n : Int) :
    (dispatch polls s buf n).Asks s.May fun x => ∀ s', x = some s' → Selects s buf s' := by
  by_cases hH : buf.getD 0 0 = 72
  · rw [dispatch_H polls s buf n hH, handle_H_eq, asks_bind, asks_bind]
    apply asks_fixed (by decide)
    rintro s' ⟨⟩
    rw [Selects, if_pos hH]
  · have hother : (dispatch polls s buf n).Asks s.May
        fun x => ∀ s', x = some s' → SameThreads s s' := by
      refine asks_ite (fun _ => asks_stays asks_reportStop) fun _ => ?_
      refine asks_ite (fun _ => asks_stays asks_handle_g) fun _ => ?_
      refine asks_ite (fun _ => asks_stays (asks_handle_G _)) fun _ => ?_
      refine asks_ite (fun _ => asks_stays (asks_handle_p _)) fun _ => ?_
      refine asks_ite (fun _ => asks_stays (asks_handle_P _)) fun _ => ?_
      refine asks_ite (fun _ => asks_stays (asks_handle_m _)) fun _ => ?_
      refine asks_ite (fun _ => asks_stays (asks_handle_M _)) fun _ => ?_
      refine asks_ite (fun _ => asks_stays (asks_handle_q _)) fun _ => ?_
      refine asks_ite (fun _ => asks_moves (asks_handle_v polls _ _)) fun _ => ?_
      refine asks_ite (fun _ => asks_moves (asks_handle_Z _)) fun _ => ?_
      refine asks_ite (fun _ => asks_moves (asks_handle_z _)) fun _ => ?_
      refine asks_ite (fun h => absurd h hH) fun _ => ?_
      refine asks_ite (fun _ => asks_stays (asks_fixed (by decide) trivial)) fun _ => ?_
      refine asks_ite (fun _ => asks_stays (asks_doContinue polls)) fun _ => ?_
      refine asks_ite (fun _ => asks_stays (asks_doStep polls)) fun _ => ?_
      refine asks_ite (fun _ => ?_) fun _ => ?_
      · rw [asks_bind]
        apply asks_fixed (by decide)
        rintro s' ⟨⟩
      refine asks_ite (fun _ => ?_) fun _ => asks_stays (asks_fixed (by decide) trivial)
      rintro s' ⟨⟩
    apply Asks.mono hother
    intro x hx s' hs
    rw [Selects, if_neg hH]
    exact hx s' hs

end

end OpenTricore
