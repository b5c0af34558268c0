import OpenTricore.CanQueue
import OpenTricore.Lib.Fifo

/-! CAN frames in internal loopback. To its caller the driver is a queue of frames: over any
sequence of calls the frames received are those sent. -/

namespace OpenTricore.Can
open Lib Lib.Prog
open DataFlash (MmioOp MmioSig Mmio load store poll asks_load asks_store asks_poll)

/-! ## Sequences of calls -/

inductive Call
  | send (id : UInt32) (data : Nat → UInt8) (len : UInt32)
  | recv (p : Pointers) (out : Message)

inductive Result
  | sent (rc : Int)
  | received (rc : Int) (out : Message)

def Call.code : Call → Mmio Result
  | .send id data len => do return .sent (← canSend id data len)
  | .recv p out => do
    let x ← canRecv p out
    return .received x.1 x.2

def callAll : List Call → Mmio (List Result)
  | [] => return []
  | c :: cs => do
    let r ← c.code
    return r :: (← callAll cs)

/-- A call as an operation on a queue of frames, and what it returns for the answer. -/
def Call.op : Call → QueueOp Frame
  | .send id data len => .put (frameOf id data len)
  | .recv _ _ => .take

def Call.result : Call → Option Frame → Result
  | .send _ _ _, _ => .sent 0
  | .recv _ out, none => .received 1 out
  | .recv p out, some f => .received 0 (out.store p f)

theorem wp_code {X : Empty → Node → Prop} {q : List Frame} {s : Node} (hs : Idle q s) (c : Call)
    (hle : q.length ≤ 2) (hafter : (c.op.after q).length ≤ 2) :
    c.code.wp loopback (fun r s' => r = c.result (c.op.answer q) ∧ Idle (c.op.after q) s') X s := by
  cases c with
  | send id data len =>
    have hlt : q.length < 2 := by
      have h : (q ++ [frameOf id data len]).length ≤ 2 := hafter
      rwa [List.length_append] at h
    rw [Call.code, wp_bind]
    apply wp_mono _ ?_ (fun _ _ h => h) (wp_canSend hs hlt id data len)
    rintro _ s' ⟨rfl, hs'⟩
    exact ⟨rfl, hs'⟩
  | recv p out =>
    rw [Call.code, wp_bind]
    apply wp_mono _ ?_ (fun _ _ h => h) (wp_canRecv hs hle p out)
    rintro _ s' ⟨rfl, hs'⟩
    refine ⟨?_, hs'⟩
    cases q with
    | nil => rfl
    | cons f q => rfl

theorem wp_callAll {X : Empty → Node → Prop} (cs : List Call) {q : List Frame} {s : Node}
    (hs : Idle q s) (hfit : QueueOp.Within 2 q (cs.map Call.op)) :
    (callAll cs).wp loopback (fun rs s' =>
      rs = List.zipWith Call.result cs (QueueOp.answers q (cs.map Call.op)) ∧
        Idle (QueueOp.rest q (cs.map Call.op)) s') X s := by
  induction cs generalizing q s with
  | nil => exact ⟨rfl, hs⟩
  | cons c cs ih =>
    rw [callAll, wp_bind]
    apply wp_mono _ ?_ (fun _ _ h => h) (wp_code hs c hfit.1 hfit.2.start)
    rintro _ s' ⟨rfl, hs'⟩
    rw [wp_bind]
    apply wp_mono _ ?_ (fun _ _ h => h) (ih hs' hfit.2)
    rintro _ s'' ⟨rfl, hs''⟩
    exact ⟨rfl, hs''⟩

/-! ## Set-up -/

/-- An access that requests nothing, takes nothing and leaves the queue as it is. -/
def Harmless : MmioSig.Op → Prop
  | MmioOp.read _ => True
  | MmioOp.write a _ => a ≠ CAN_TXBAR ∧ a ≠ CAN_RXF0A ∧ a ∉ queueWords

theorem harmless_read (a : UInt32) : Harmless (MmioOp.read a) := trivial

theorem harmless_write {a : UInt32} (h : a ≠ CAN_TXBAR ∧ a ≠ CAN_RXF0A ∧ a ∉ queueWords)
    (v : UInt32) :
    Harmless (MmioOp.write a v) := h

theorem initModule_harmless : initModule.Asks Harmless fun _ => True := by
  have hclc := harmless_write (a := CAN_CLC) (by decide)
  have hmcr := harmless_write (a := CAN_MCR) (by decide)
  simp only [initModule, asks_bind, asks_load, asks_store, asks_poll, harmless_read, hclc, hmcr,
    implies_true, and_self]

theorem enterConfiguration_harmless (internalLoopback : Int) :
    (enterConfiguration internalLoopback).Asks Harmless fun _ => True := by
  have hcccr := harmless_write (a := CAN_CCCR) (by decide)
  have htest := harmless_write (a := CAN_TEST) (by decide)
  have hnbtp := harmless_write (a := CAN_NBTP) (by decide)
  have hrxesc := harmless_write (a := CAN_RXESC) (by decide)
  have htxesc := harmless_write (a := CAN_TXESC) (by decide)
  unfold enterConfiguration
  split <;> simp only [orInto, asks_bind, asks_load, asks_store, asks_poll, harmless_read, hcccr,
    htest, hnbtp, hrxesc, htxesc, implies_true, and_self]

theorem leaveConfiguration_harmless : leaveConfiguration.Asks Harmless fun _ => True := by
  have hgfc := harmless_write (a := CAN_GFC) (by decide)
  have hir := harmless_write (a := CAN_IR) (by decide)
  have hcccr := harmless_write (a := CAN_CCCR) (by decide)
  have hend : ∀ done : Bool,
      (if done then return 0 else return -1 : Mmio Int).Asks Harmless fun _ => True := by
    intro done
    cases done <;> trivial
  simp only [leaveConfiguration, andInto, asks_bind, asks_load, asks_store, asks_poll,
    harmless_read,
    hgfc, hir, hcccr, implies_true, and_self, hend]

/-- Nothing is requested and the FIFO is empty, wherever its sections are. -/
def Unused (s : Node) : Prop := s.pending = false ∧ s.fill = 0 ∧ s.get < 2

theorem Harmless.keeps {s s' : Node} {o : MmioOp} {r : MmioSig.Res o} (ho : Harmless o)
    (hs : s.pending = false) (h : loopback s o r s') :
    s'.pending = false ∧ s'.fill = s.fill ∧ s'.get = s.get ∧
      ∀ a ∈ queueWords, s'.mem a = s.mem a := by
  obtain ⟨s₁, hsteps, haccess⟩ := h
  rw [still hs hsteps] at haccess
  cases o with
  | read a =>
    obtain ⟨-, rfl⟩ := haccess
    split
    · exact ⟨hs, rfl, rfl, fun _ _ => rfl⟩
    · exact ⟨hs, rfl, rfl, fun _ _ => rfl⟩
  | write a v =>
    obtain ⟨hbar, hack, hqueue⟩ := ho
    cases haccess
    rw [Node.write, if_neg (fun h => hbar h.1), if_neg (fun h => hack h.1)]
    exact ⟨hs, rfl, rfl, fun x hx => Function.update_of_ne (ne_of_mem_of_not_mem hx hqueue) ..⟩

theorem Harmless.unused {s s' : Node} {o : MmioOp} {r : MmioSig.Res o} (ho : Harmless o)
    (hs : Unused s) (h : loopback s o r s') : Unused s' := by
  obtain ⟨hidle, hfill, hget, -⟩ := ho.keeps hs.1 h
  exact ⟨hidle, hfill.trans hs.2.1, hget ▸ hs.2.2⟩

theorem Harmless.idle {q : List Frame} {s s' : Node} {o : MmioOp} {r : MmioSig.Res o}
    (ho : Harmless o)
    (hs : Idle q s) (h : loopback s o r s') : Idle q s' := by
  obtain ⟨hidle, hfill, hget, hmem⟩ := ho.keeps hs.2 h
  exact ⟨hs.1.congr hfill hget hmem, hidle⟩

/-- `can_init` leaves an empty queue, whatever the registers read. -/
theorem wp_canInit {X : Empty → Node → Prop} {s : Node} (hs : Unused s) (internalLoopback : Int) :
    (canInit internalLoopback).wp loopback (fun _ s' => Idle [] s') X s := by
  have hunused : ∀ s (o : MmioSig.Op) (r : MmioSig.Res o) s', Harmless o → Unused s →
      loopback s o r s' → Unused s' := fun _ _ _ _ ho hs h => ho.unused hs h
  have hidle : ∀ s (o : MmioSig.Op) (r : MmioSig.Res o) s', Harmless o → Idle [] s →
      loopback s o r s' → Idle [] s' := fun _ _ _ _ ho hs h => ho.idle hs h
  rw [canInit, wp_bind]
  apply wp_mono _ ?_ (fun e => e.elim) (initModule_harmless.invariant Unused hunused hs)
  rintro _ s₁ ⟨-, hs₁⟩
  rw [wp_bind]
  apply wp_mono _ ?_ (fun e => e.elim)
    ((enterConfiguration_harmless internalLoopback).invariant Unused hunused hs₁)
  rintro _ s₂ ⟨-, hs₂⟩
  rw [setSections, wp_bind, wp_bind]
  apply wp_storePlain hs₂.1 (by decide)
  apply wp_storePlain (by exact hs₂.1) (by decide)
  have hready : Idle [] { s₂ with mem := Function.update (Function.update s₂.mem CAN_RXF0C
      (((2 : UInt32) <<< 16) ||| RXF0_OFF)) CAN_TXBC (((1 : UInt32) <<< 16) ||| TXB0_OFF) } :=
    ⟨⟨rfl, rfl, hs₂.2.1, hs₂.2.2, fun i hi => absurd hi (Nat.not_lt_zero i)⟩, hs₂.1⟩
  apply wp_mono _ ?_ (fun e => e.elim)
    (leaveConfiguration_harmless.invariant (Idle []) hidle hready)
  rintro _ s₃ ⟨-, hs₃⟩
  exact hs₃

/-! ## The controller goes on -/

/-- What the controller needs to answer. -/
def Regular (s : Node) : Prop :=
  s.mem CAN_RXF0C = ((2 : UInt32) <<< 16) ||| RXF0_OFF ∧ s.fill ≤ 2 ∧ s.get < 2

theorem elementCopied_withElement (mem : UInt32 → UInt32) (t : UInt32) {i : Nat} (hi : i < 2) :
    ElementCopied mem (withElement mem (slotAddress i) (mem (t + 0x0)) (mem (t + 0x4))
      (mem (t + 0x8))
      (mem (t + 0xC))) t (slotAddress i) := by
  have hi' : i = 0 ∨ i = 1 := by omega
  rcases hi' with rfl | rfl
  · exact ⟨rfl, rfl, rfl, rfl, fun a ha => withElement_other _ _ _ _ _ _ ha⟩
  · exact ⟨rfl, rfl, rfl, rfl, fun a ha => withElement_other _ _ _ _ _ _ ha⟩

/-- The controller can finish what was requested. -/
theorem Regular.finishes {s : Node} (hs : Regular s) :
    ∃ s', Relation.ReflTransGen Transmits s s' ∧ s'.pending = false ∧ Regular s' := by
  obtain ⟨hfifo, hfill, hget⟩ := hs
  have hsize : s.size = 2 := Node.size_two hfifo
  cases hpending : s.pending with
  | false => exact ⟨s, .refl, hpending, hfifo, hfill, hget⟩
  | true =>
    by_cases hfull : s.size ≤ s.fill
    · exact ⟨_, .single (.lose hpending hfull), rfl, hfifo, hfill, hget⟩
    · have hput : s.slot ((s.get + s.fill) % s.size) = slotAddress ((s.get + s.fill) % 2) := by
        rw [hsize, Node.slot, hfifo]
        rfl
      have hslot : (s.get + s.fill) % 2 < 2 := Nat.mod_lt _ Nat.two_pos
      have hcopy := elementCopied_withElement s.mem s.buffer hslot
      rw [← hput] at hcopy
      refine ⟨_, .single (.copy _ hpending (Nat.lt_of_not_le hfull) hcopy), rfl, ?_, ?_, hget⟩
      · rw [hput]
        exact (withElement_other _ _ _ _ _ _ (slot_words hslot).1).trans hfifo
      · exact hsize ▸ Nat.lt_of_not_le hfull

/-- An access that keeps the FIFO where it is. -/
def KeepsFifo : MmioSig.Op → Prop
  | MmioOp.read _ => True
  | MmioOp.write a v => a = CAN_RXF0C → v = ((2 : UInt32) <<< 16) ||| RXF0_OFF

theorem keepsFifo_read (a : UInt32) : KeepsFifo (MmioOp.read a) := trivial

theorem keepsFifo_write {a : UInt32} (h : a ≠ CAN_RXF0C) (v : UInt32) :
    KeepsFifo (MmioOp.write a v) :=
  fun ha => absurd ha h

theorem Harmless.keepsFifo {o : MmioSig.Op} (h : Harmless o) : KeepsFifo o := by
  cases o with
  | read a => trivial
  | write a v =>
    intro ha
    exact absurd (ha ▸ List.mem_cons_self) h.2.2

/-- A status word that reads these two fields. -/
theorem exists_status {fill get : Nat} (hfill : fill ≤ 2) (hget : get < 2) :
    ∃ r : UInt32, r &&& 0x7F = UInt32.ofNat fill ∧ (r >>> 8) &&& 0x3F = UInt32.ofNat get := by
  have hfill' : fill = 0 ∨ fill = 1 ∨ fill = 2 := by omega
  have hget' : get = 0 ∨ get = 1 := by omega
  refine ⟨UInt32.ofNat fill ||| (UInt32.ofNat get <<< 8), ?_⟩
  rcases hfill' with rfl | rfl | rfl <;> rcases hget' with rfl | rfl <;> decide

theorem Regular.write {s : Node} {a v : UInt32} (ho : KeepsFifo (MmioOp.write a v))
    (hs : Regular s) :
    Regular (s.write a v) := by
  obtain ⟨hfifo, hfill, hget⟩ := hs
  have hfifo' : Function.update s.mem a v CAN_RXF0C = ((2 : UInt32) <<< 16) ||| RXF0_OFF := by
    by_cases ha : a = CAN_RXF0C
    · rw [ha, Function.update_self]
      exact ho ha
    · rw [Function.update_of_ne (Ne.symm ha)]
      exact hfifo
  rw [Node.write]
  split
  · exact ⟨hfifo', hfill, hget⟩
  · split
    · refine ⟨hfifo', Nat.le_trans (Nat.sub_le _ _) hfill, ?_⟩
      show (s.get + 1) % Node.size { s with mem := Function.update s.mem a v } < 2
      rw [Node.size_two hfifo']
      exact Nat.mod_lt _ Nat.two_pos
    · exact ⟨hfifo', hfill, hget⟩

theorem Regular.answers {s : Node} {o : MmioSig.Op} (ho : KeepsFifo o) (hs : Regular s) :
    ∃ r s', loopback s o r s' ∧ Regular s' := by
  obtain ⟨s₁, hsteps, hidle, hs₁⟩ := hs.finishes
  obtain ⟨hfifo, hfill, hget⟩ := hs₁
  cases o with
  | read a =>
    have hnot : ∀ {p : Prop}, s₁.pending = true → p :=
      fun h => absurd (hidle.symm.trans h) Bool.false_ne_true
    obtain ⟨r, hreads⟩ : ∃ r, s₁.Reads a r := by
      by_cases hstatus : a = CAN_RXF0S
      · subst hstatus
        obtain ⟨r, hr, hr'⟩ := exists_status hfill hget
        exact ⟨r, fun h => absurd h.2 (by decide), fun _ => hr, fun _ => hr',
          fun h => absurd h (by decide),
          fun _ => hnot⟩
      · by_cases hrequest : a = CAN_TXBRP
        · subst hrequest
          refine ⟨0, fun h => absurd h.2 (by decide), fun h => absurd h hstatus,
            fun h => absurd h hstatus,
            fun _ => ?_, fun _ => hnot⟩
          exact ⟨fun h => absurd rfl h, hnot⟩
        · exact ⟨s₁.mem a, fun _ => rfl, fun h => absurd h hstatus, fun h => absurd h hstatus,
            fun h => absurd h hrequest, fun h => absurd h hrequest⟩
    refine ⟨r, _, ⟨s₁, hsteps, hreads, rfl⟩, ?_⟩
    split
    · exact ⟨hfifo, hfill, hget⟩
    · exact ⟨hfifo, hfill, hget⟩
  | write a v =>
    exact ⟨(), _, ⟨s₁, hsteps, rfl⟩, Regular.write ho ⟨hfifo, hfill, hget⟩⟩

theorem canSend_keepsFifo (id : UInt32) (data : Nat → UInt8) (len : UInt32) :
    (canSend id data len).Asks KeepsFifo fun _ => True := by
  have ht0 := keepsFifo_write (a := CAN_RAM + TXB0_OFF + 0x0) (by decide)
  have ht1 := keepsFifo_write (a := CAN_RAM + TXB0_OFF + 0x4) (by decide)
  have hw0 := keepsFifo_write (a := CAN_RAM + TXB0_OFF + 0x8) (by decide)
  have hw1 := keepsFifo_write (a := CAN_RAM + TXB0_OFF + 0xC) (by decide)
  have hrequest := keepsFifo_write (a := CAN_TXBAR) (by decide)
  have hend : ∀ done : Bool,
      (if done then return 0 else return -1 : Mmio Int).Asks KeepsFifo fun _ => True := by
    intro done
    cases done <;> trivial
  simp only [canSend, asks_bind, asks_store, asks_poll, keepsFifo_read, ht0, ht1, hw0,
    hw1, hrequest,
    implies_true, and_self, hend]

theorem canRecv_keepsFifo (p : Pointers) (out : Message) :
    (canRecv p out).Asks KeepsFifo fun _ => True := by
  have hack := keepsFifo_write (a := CAN_RXF0A) (by decide)
  rw [canRecv, asks_bind, asks_load]
  refine ⟨trivial, fun r => asks_ite (fun _ => trivial) fun _ => ?_⟩
  rw [asks_bind, asks_load]
  refine ⟨trivial, fun r0 => ?_⟩
  rw [asks_bind, asks_load]
  refine ⟨trivial, fun r1 => asks_ite (fun _ => ?_) fun _ => ?_⟩
  · simp only [asks_bind, asks_load, asks_store, keepsFifo_read, hack, implies_true,
      and_self, pure_eq,
      asks_ret]
  · simp only [asks_bind, asks_store, hack, implies_true, and_self, pure_eq, asks_ret]

theorem callAll_keepsFifo (cs : List Call) : (callAll cs).Asks KeepsFifo fun _ => True := by
  induction cs with
  | nil => trivial
  | cons c cs ih =>
    rw [callAll, asks_bind]
    have hcall : c.code.Asks KeepsFifo fun _ => True := by
      cases c with
      | send id data len =>
        rw [Call.code, asks_bind]
        exact (canSend_keepsFifo id data len).mono fun _ _ => trivial
      | recv p out =>
        rw [Call.code, asks_bind]
        exact (canRecv_keepsFifo p out).mono fun _ _ => trivial
    apply hcall.mono
    intro r _
    rw [asks_bind]
    exact ih.mono fun _ _ => trivial

theorem canInit_keepsFifo (internalLoopback : Int) :
    (canInit internalLoopback).Asks KeepsFifo fun _ => True := by
  rw [canInit, asks_bind]
  apply (initModule_harmless.widen fun _ h => h.keepsFifo).mono
  intro _ _
  rw [asks_bind]
  apply ((enterConfiguration_harmless internalLoopback).widen fun _ h => h.keepsFifo).mono
  intro _ _
  rw [setSections, asks_bind, asks_bind, asks_store]
  refine ⟨fun _ => rfl, fun _ => ⟨fun h => absurd h (by decide), fun _ => ?_⟩⟩
  exact leaveConfiguration_harmless.widen fun _ h => h.keepsFifo

/-- A sequence of calls that fits has a run. -/
theorem callAll_completes (cs : List Call) {s : Node} (hs : Idle [] s)
    (hfit : QueueOp.Within 2 [] (cs.map Call.op)) :
    (callAll cs).Can loopback (fun rs _ =>
      rs = List.zipWith Call.result cs (QueueOp.answers [] (cs.map Call.op))) s := by
  have hregular : Regular s := ⟨hs.1.fifo, hs.1.fill ▸ Nat.zero_le _, hs.1.get⟩
  apply (callAll_keepsFifo cs).can_within Regular (fun _ _ ho h => h.answers ho) hregular
  exact wp_mono _ (fun _ _ h => h.1) (fun _ _ h => h) (wp_callAll cs hs hfit)

/-- What a sequence of calls does after `can_init`. `results` has the answers of a queue of
frames, `order` says that it loses and duplicates none, and `empty` that `can_recv` returns
1 when no frame is unread. -/
structure RoundTrip (cs : List Call) (rs : List Result) (s' : Node) : Prop where
  results : rs = List.zipWith Call.result cs (QueueOp.answers [] (cs.map Call.op))
  order : QueueOp.puts (cs.map Call.op) =
    (QueueOp.answers [] (cs.map Call.op)).reduceOption ++ QueueOp.rest [] (cs.map Call.op)
  unread : s'.fill = (QueueOp.rest [] (cs.map Call.op)).length
  empty : ∀ before p out later, cs = before ++ .recv p out :: later →
    ((∃ out', rs[before.length]? = some (.received 1 out')) ↔
      QueueOp.rest [] (before.map Call.op) = [])

theorem result_empty (p : Pointers) (out : Message) (q : List Frame) :
    (∃ out', (Call.recv p out).result (QueueOp.take.answer q) = .received 1 out') ↔ q = [] := by
  cases q with
  | nil => exact iff_of_true ⟨out, rfl⟩ rfl
  | cons f q =>
    apply iff_of_false ?_ (List.cons_ne_nil f q)
    rintro ⟨out', h⟩
    have hrc := (Result.received.inj h).1
    exact absurd hrc (by decide)

/-- Frames go round in order and whole, as long as no more than two are unread. -/
theorem frames_round_trip (cs : List Call) (hfit : QueueOp.Within 2 [] (cs.map Call.op))
    (s s₁ s' : Node) (hs : Unused s) (rc : Int) (hinit : Runs loopback (canInit 1) s (.ok rc) s₁)
    (rs : List Result) (h : Runs loopback (callAll cs) s₁ (.ok rs) s') : RoundTrip cs rs s' := by
  have hidle : Idle [] s₁ := (hinit.sound _ (wp_canInit (X := fun _ _ => False) hs 1)).1 rc rfl
  obtain ⟨rfl, hidle'⟩ := (h.sound _ (wp_callAll (X := fun _ _ => False) cs hidle hfit)).1 rs rfl
  refine ⟨rfl, QueueOp.conserved [] _, hidle'.1.fill, ?_⟩
  rintro before p out later rfl
  have hanswer := QueueOp.getElem?_answers [] (before.map Call.op) (Call.recv p out).op
    (later.map Call.op)
  rw [List.length_map, ← List.map_cons, ← List.map_append] at hanswer
  rw [List.getElem?_zipWith, hanswer, List.getElem?_append_right (Nat.le_refl _), Nat.sub_self]
  rw [← result_empty p out]
  constructor
  · rintro ⟨out', h⟩
    exact ⟨out', Option.some.inj h⟩
  · rintro ⟨out', h⟩
    exact ⟨out', congrArg some h⟩

/-- Sent, received, and found empty, as in `can_demo.c`. -/
def demoCalls : List Call :=
  [.send 0x123 (fun i => [0xEF, 0xBE, 0xAD, 0xDE, 0x78, 0x56, 0x34, 0x12].getD i 0) 8,
    .recv ⟨true, true, true⟩ ⟨0, fun _ => 0, 0⟩, .recv ⟨true, true, true⟩ ⟨0, fun _ => 0, 0⟩]

theorem frames_round_trip_demo : ∃ rs s', RoundTrip demoCalls rs s' := by
  have hregular : Regular ⟨fun _ => 0x20000, false, 0, 0, 0⟩ := ⟨rfl, by decide, by decide⟩
  have hunused : Unused ⟨fun _ => 0x20000, false, 0, 0, 0⟩ := ⟨rfl, rfl, by decide⟩
  obtain ⟨rc, s₁, hinit, hidle⟩ :=
    (canInit_keepsFifo 1).can_within Regular (fun _ _ ho h => h.answers ho)
    hregular (wp_canInit hunused 1)
  obtain ⟨rs, s', hrun, -⟩ := callAll_completes demoCalls hidle (by decide)
  exact ⟨rs, s', frames_round_trip demoCalls (by decide) _ s₁ s' hunused rc hinit rs hrun⟩

end OpenTricore.Can
