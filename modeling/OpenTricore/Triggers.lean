import OpenTricore.Isolation
import Mathlib.Logic.Relation

/-! Hardware triggers across threads. The table of the stub remembers the address,
the kind and the id of a trigger, but not the core it was created on, and ids are
per core. Here sessions of `H`, `Z` and `z` packets are run against cores whose
triggers live and die by these calls.

* `dispatch_insert`, `dispatch_clear`, `dispatch_thread`: all that a packet can do;
* `Track`: which packet created each live trigger, and the core of each entry;
* `Agree`: table and cores agree, kept by every step that does not go wrong
  (`agree_step`);
* `triggers_cleared`: what a `z` packet that is answered by `OK` leaves. -/

namespace OpenTricore.Triggers
open OpenTricore Lib Lib.Prog

/-! ## Triggers of the cores -/

/-- The triggers that are live on each core, by their ids. `refused` is set once a
removal of a live trigger was refused. -/
structure TrigHw where
  live : Core → UInt32 → Bool
  refused : Bool

def TrigHw.set (hw : TrigHw) (c : Core) (id : UInt32) (b : Bool) : TrigHw :=
  { hw with live := fun c' id' => if c' = c ∧ id' = id then b else hw.live c' id' }

/-- A trigger is created under an id that is free on its core, or not at all. A
removal takes the trigger of that core with that id, or fails. -/
def mcdTrigs : Env StubSig (TrigHw × List (List UInt8))
  | x, .createTrig c _, r, y =>
    (r = none ∧ y = x) ∨ ∃ id, r = some id ∧ x.1.live c id = false ∧ y = (x.1.set c id true, x.2)
  | x, .removeTrig c id, r, y =>
    (r = true ∧ x.1.live c id = true ∧ y = (x.1.set c id false, x.2)) ∨
      (r = false ∧ y = ({ x.1 with refused := x.1.refused || x.1.live c id }, x.2))
  | x, .putPacket data, _, y => y = (x.1, x.2 ++ [data])
  | x, _, _, y => y = x

theorem wp_putPacket_trigs {X : Abort → TrigHw × List (List UInt8) → Prop}
    {Q : Unit → TrigHw × List (List UInt8) → Prop} (data : List UInt8)
    (x : TrigHw × List (List UInt8)) (h : Q () (x.1, x.2 ++ [data])) :
    (putPacket data).wp mcdTrigs Q X x := by
  simp only [putPacket, wp_bind]
  rintro r _ rfl
  exact h

/-! ## What a packet can do -/

/-- Kind and address of a `Z` or `z` packet, if it is understood. -/
def trigRequest (p : List UInt8) : Option (Int × UInt64) :=
  match trigTypeOf (trigKind p), strchr 44 p with
  | some _, some comma => some (trigKind p, strtoull (comma.drop 1))
  | _, _ => none

/-- The kind and the comma of a packet that asks for something. -/
theorem trigRequest_some {b : List UInt8} {k : Int × UInt64} (hk : trigRequest b = some k) :
    ∃ t comma, trigTypeOf (trigKind b) = some t ∧ strchr 44 b = some comma ∧
      k = (trigKind b, strtoull (comma.drop 1)) := by
  unfold trigRequest at hk
  split at hk
  · rename_i t comma ht hcomma
    exact ⟨t, comma, ht, hcomma, (Option.some.inj hk).symm⟩
  · cases hk

/-- The range that a `Z` packet asks for. -/
def trigRange (p : List UInt8) : UInt32 :=
  match strchr 44 p with
  | none => 0
  | some comma =>
    if trigKind p ≥ 2 ∧ trigLen (comma.drop 1) > 0 then trigLen (comma.drop 1) - 1 else 0

section requests
variable (polls : Nat) (s : Stub) {p : Packet}

theorem dispatch_Z_some (hp : p.buf.getD 0 0 = 90) {k : Int × UInt64}
    (hk : trigRequest p.buf = some k) :
    dispatchPacket polls s p = (trigSet s k.2 k.1 (trigRange p.buf) >>= fun x =>
      putPacket (okOr x.1) >>= fun _ => return some x.2) := by
  have hZ : dispatchPacket polls s p = (handle_Z s p.buf >>= fun s => return some s) := by
    simp only [dispatchPacket, dispatch, hp]
    rfl
  obtain ⟨t, comma, ht, hcomma, rfl⟩ := trigRequest_some hk
  simp only [hZ, handle_Z, ht, hcomma, trigRange, bind_bind]
  rfl

theorem dispatch_Z_none (hp : p.buf.getD 0 0 = 90) (hk : trigRequest p.buf = none) :
    ∃ d, d ≠ bytes "OK" ∧
      dispatchPacket polls s p = (putPacket d >>= fun _ => return some s) := by
  have hZ : dispatchPacket polls s p = (handle_Z s p.buf >>= fun s => return some s) := by
    simp only [dispatchPacket, dispatch, hp]
    rfl
  rw [hZ, handle_Z]
  unfold trigRequest at hk
  cases ht : trigTypeOf (trigKind p.buf) with
  | none => exact ⟨bytes "", by decide, rfl⟩
  | some t =>
    cases hcomma : strchr 44 p.buf with
    | none => exact ⟨bytes "E01", by decide, rfl⟩
    | some comma => simp [ht, hcomma] at hk

theorem dispatch_z_some (hp : p.buf.getD 0 0 = 122) {k : Int × UInt64}
    (hk : trigRequest p.buf = some k) :
    dispatchPacket polls s p = (trigClear s k.2 k.1 >>= fun s' =>
      putPacket (bytes "OK") >>= fun _ => return some s') := by
  have hz : dispatchPacket polls s p = (handle_z s p.buf >>= fun s => return some s) := by
    simp only [dispatchPacket, dispatch, hp]
    rfl
  obtain ⟨t, comma, ht, hcomma, rfl⟩ := trigRequest_some hk
  simp only [hz, handle_z, ht, hcomma, bind_bind]
  rfl

theorem dispatch_z_none (hp : p.buf.getD 0 0 = 122) (hk : trigRequest p.buf = none) :
    ∃ d, d ≠ bytes "OK" ∧
      dispatchPacket polls s p = (putPacket d >>= fun _ => return some s) := by
  have hz : dispatchPacket polls s p = (handle_z s p.buf >>= fun s => return some s) := by
    simp only [dispatchPacket, dispatch, hp]
    rfl
  rw [hz, handle_z]
  unfold trigRequest at hk
  cases ht : trigTypeOf (trigKind p.buf) with
  | none => exact ⟨bytes "", by decide, rfl⟩
  | some t =>
    cases hcomma : strchr 44 p.buf with
    | none => exact ⟨bytes "E01", by decide, rfl⟩
    | some comma => simp [ht, hcomma] at hk

end requests

/-- The core that is selected. -/
def core (s : Stub) : Core := s.active.target.core

def clearBp (s : Stub) (i : Fin MAX_BP) : Stub := s.setBp i { s.bp i with used := false }

/-- What `trig_set` does for a kind and an address. -/
inductive Added (s : Stub) (hw : TrigHw) (k : Int × UInt64) : Stub → TrigHw → Prop
  | kept : Added s hw k s hw
  | leaked (id : UInt32) (hid : hw.live (core s) id = false) (hfull : findFree s.bp = none) :
      Added s hw k s (hw.set (core s) id true)
  | entered (id : UInt32) (i : Fin MAX_BP) (hnew : findBp s.bp k.2 k.1 = none)
      (hid : hw.live (core s) id = false) (hfree : findFree s.bp = some i) :
      Added s hw k (s.setBp i ⟨k.2, k.1, id, true⟩) (hw.set (core s) id true)

/-- How `trig_set` ends for a kind and an address that it supports. -/
inductive Inserted (s : Stub) (hw : TrigHw) (k : Int × UInt64) : Int → Stub → TrigHw → Prop
  | present (i : Fin MAX_BP) (h : findBp s.bp k.2 k.1 = some i) : Inserted s hw k 0 s hw
  | refused (hnew : findBp s.bp k.2 k.1 = none) : Inserted s hw k (-1) s hw
  | leaked (id : UInt32) (hnew : findBp s.bp k.2 k.1 = none) (hid : hw.live (core s) id = false)
      (hfull : findFree s.bp = none) : Inserted s hw k (-1) s (hw.set (core s) id true)
  | entered (id : UInt32) (i : Fin MAX_BP) (hnew : findBp s.bp k.2 k.1 = none)
      (hid : hw.live (core s) id = false) (hfree : findFree s.bp = some i) :
      Inserted s hw k 0 (s.setBp i ⟨k.2, k.1, id, true⟩) (hw.set (core s) id true)

theorem Inserted.added {s s' : Stub} {hw hw' : TrigHw} {k : Int × UInt64} {rc : Int}
    (h : Inserted s hw k rc s' hw') : Added s hw k s' hw' := by
  cases h with
  | present i h => exact .kept
  | refused hnew => exact .kept
  | leaked id hnew hid hfull => exact .leaked id hid hfull
  | entered id i hnew hid hfree => exact .entered id i hnew hid hfree

/-- What `trig_clear` does. -/
inductive Removed (s : Stub) (hw : TrigHw) (k : Int × UInt64) : Stub → TrigHw → Prop
  | absent (h : findBp s.bp k.2 k.1 = none) : Removed s hw k s hw
  | removed (i : Fin MAX_BP) (h : findBp s.bp k.2 k.1 = some i) :
      Removed s hw k (clearBp s i) (hw.set (core s) (s.bp i).trigId false)
  | refused (i : Fin MAX_BP) (h : findBp s.bp k.2 k.1 = some i) :
      Removed s hw k (clearBp s i)
        { hw with refused := hw.refused || hw.live (core s) (s.bp i).trigId }

section effects
variable (s : Stub) (hw : TrigHw) (out : List (List UInt8))

theorem wp_trigSet (addr : UInt64) (gtype : Int) (range : UInt32) {t : TrigType}
    (ht : trigTypeOf gtype = some t) :
    (trigSet s addr gtype range).wp mcdTrigs
      (fun a y => y.2 = out ∧ Inserted s hw (gtype, addr) a.1 a.2 y.1)
      (fun _ _ => False) (hw, out) := by
  unfold trigSet
  rw [ht]
  cases hnew : findBp s.bp addr gtype with
  | some i => exact ⟨rfl, .present i hnew⟩
  | none =>
    simp only [wp_bind]
    rintro r _ (⟨rfl, rfl⟩ | ⟨id, rfl, hid, rfl⟩)
    · exact ⟨rfl, .refused hnew⟩
    · simp only [wp_ret, wp_bind]
      rintro r _ rfl
      cases hfree : findFree s.bp with
      | none => exact ⟨rfl, .leaked id hnew hid hfree⟩
      | some i => exact ⟨rfl, .entered id i hnew hid hfree⟩

theorem wp_trigClear (addr : UInt64) (gtype : Int) :
    (trigClear s addr gtype).wp mcdTrigs (fun s' y => y.2 = out ∧ Removed s hw (gtype, addr) s' y.1)
      (fun _ _ => False) (hw, out) := by
  unfold trigClear
  split
  · rename_i habsent
    exact ⟨rfl, .absent habsent⟩
  · rename_i i hfound
    simp only [wp_bind]
    rintro r _ (⟨rfl, -, rfl⟩ | ⟨rfl, rfl⟩)
    · rintro r _ rfl
      exact ⟨rfl, .removed i hfound⟩
    · rintro r _ rfl
      exact ⟨rfl, .refused i hfound⟩

end effects

/-- The packet is answered once, and `P` holds of the reply and what is left. -/
def Answered (out : List (List UInt8)) (P : List UInt8 → Stub → TrigHw → Prop) (r : Option Stub)
    (y : TrigHw × List (List UInt8)) : Prop :=
  ∃ reply s', r = some s' ∧ y.2 = out ++ [reply] ∧ P reply s' y.1

section packets
variable (polls : Nat) (s : Stub) (hw : TrigHw) (out : List (List UInt8)) (p : Packet)

theorem dispatch_insert (hp : p.buf.getD 0 0 = 90) :
    (dispatchPacket polls s p).wp mcdTrigs (Answered out fun reply s' hw' =>
      match trigRequest p.buf with
      | none => s' = s ∧ hw' = hw
      | some k => ∃ rc, reply = okOr rc ∧ Inserted s hw k rc s' hw') (fun _ _ => False)
      (hw, out) := by
  cases hk : trigRequest p.buf with
  | none =>
    obtain ⟨d, -, hd⟩ := dispatch_Z_none polls s hp hk
    rw [hd, wp_bind]
    exact wp_putPacket_trigs _ _ ⟨_, s, rfl, rfl, rfl, rfl⟩
  | some k =>
    obtain ⟨t, _, ht, -, rfl⟩ := trigRequest_some hk
    rw [dispatch_Z_some polls s hp hk, wp_bind]
    refine wp_mono _ ?_ (fun _ _ h => h) (wp_trigSet s hw out _ _ _ ht)
    rintro ⟨rc, s'⟩ ⟨hw', _⟩ ⟨rfl, hinserted⟩
    rw [wp_bind]
    exact wp_putPacket_trigs _ _ ⟨_, s', rfl, rfl, rc, rfl, hinserted⟩

theorem dispatch_set (hp : p.buf.getD 0 0 = 90) :
    (dispatchPacket polls s p).wp mcdTrigs (Answered out fun _ s' hw' =>
      match trigRequest p.buf with
      | none => s' = s ∧ hw' = hw
      | some k => Added s hw k s' hw') (fun _ _ => False) (hw, out) := by
  apply wp_mono _ ?_ (fun _ _ h => h) (dispatch_insert polls s hw out p hp)
  rintro r y ⟨reply, s', hr, hy, heffect⟩
  refine ⟨reply, s', hr, hy, ?_⟩
  cases hk : trigRequest p.buf with
  | none =>
    rw [hk] at heffect
    exact heffect
  | some k =>
    rw [hk] at heffect
    obtain ⟨rc, -, hinserted⟩ := heffect
    exact hinserted.added

theorem dispatch_clear (hp : p.buf.getD 0 0 = 122) :
    (dispatchPacket polls s p).wp mcdTrigs (Answered out fun reply s' hw' =>
      match trigRequest p.buf with
      | none => reply ≠ bytes "OK" ∧ s' = s ∧ hw' = hw
      | some k => Removed s hw k s' hw') (fun _ _ => False) (hw, out) := by
  cases hk : trigRequest p.buf with
  | none =>
    obtain ⟨d, hne, hd⟩ := dispatch_z_none polls s hp hk
    rw [hd, wp_bind]
    exact wp_putPacket_trigs _ _ ⟨_, s, rfl, rfl, hne, rfl, rfl⟩
  | some k =>
    rw [dispatch_z_some polls s hp hk, wp_bind]
    refine wp_mono _ ?_ (fun _ _ h => h) (wp_trigClear s hw out _ _)
    rintro s' ⟨hw', _⟩ ⟨rfl, hremoved⟩
    rw [wp_bind]
    exact wp_putPacket_trigs _ _ ⟨_, s', rfl, rfl, hremoved⟩

theorem dispatch_thread (hp : p.buf.getD 0 0 = 72) :
    (dispatchPacket polls s p).wp mcdTrigs (Answered out fun _ s' hw' =>
      s' = threadArg s (p.buf.drop 2) ∧ hw' = hw) (fun _ _ => False) (hw, out) := by
  rw [dispatchPacket, dispatch_H polls s _ _ hp, wp_bind, handle_H_eq]
  simp only [wp_bind]
  exact wp_putPacket_trigs _ _ ⟨_, _, rfl, rfl, rfl, rfl⟩

end packets

/-! ## Sessions -/

/-- The stub and the cores, with the request that created each live trigger and the
core that each table entry was made on. -/
structure State where
  stub : Stub
  hw : TrigHw
  tag : Core → UInt32 → Option (Int × UInt64)
  home : Fin MAX_BP → Core

/-- No trigger is live. -/
def State.start (s : Stub) : State :=
  ⟨s, ⟨fun _ _ => false, false⟩, fun _ _ => none, fun _ => 0⟩

/-- A trigger that is new was created by the packet, and an entry that is new was
made on the core that was selected. -/
def State.next (st : State) (p : Packet) (s' : Stub) (hw' : TrigHw) : State where
  stub := s'
  hw := hw'
  tag c id :=
    if hw'.live c id then (if st.hw.live c id then st.tag c id else trigRequest p.buf) else none
  home i := if (s'.bp i).used && !(st.stub.bp i).used then core st.stub else st.home i

/-- The stub handles the packet `p` and answers it with `reply`. -/
inductive Step (polls : Nat) (st : State) (p : Packet) (reply : List UInt8) : State → Prop
  | run {s' : Stub} {hw' : TrigHw}
      (hr : Runs mcdTrigs (dispatchPacket polls st.stub p) (st.hw, []) (.ok (some s'))
        (hw', [reply])) :
      Step polls st p reply (st.next p s' hw')

/-- An `H`, a `Z` or a `z` packet. -/
def TrigPacket (p : Packet) : Prop :=
  p.buf.getD 0 0 = 72 ∨ p.buf.getD 0 0 = 90 ∨ p.buf.getD 0 0 = 122

/-- The states of sessions of such packets in which every step meets `C`. -/
def Reached (C : State → Packet → State → Prop) (polls : Nat) : State → State → Prop :=
  Relation.ReflTransGen fun st st' =>
    ∃ p reply, TrigPacket p ∧ Step polls st p reply st' ∧ C st p st'

/-- The step does not go wrong: no trigger is created when the table is full, an entry
is cleared with the core selected that it was made on, and no removal is refused. -/
structure Safe (st : State) (p : Packet) (st' : State) : Prop where
  room : findFree st.stub.bp = none → ∀ c id, st'.hw.live c id = true → st.hw.live c id = true
  home : p.buf.getD 0 0 = 122 → ∀ k, trigRequest p.buf = some k →
    ∀ i, findBp st.stub.bp k.2 k.1 = some i → st.home i = core st.stub
  removal : st'.hw.refused = false

/-- What is asked of a step: after a `z` packet answered by `OK`, no trigger of that
kind and address is live on any core; only such a packet ends triggers, those of its
kind and address on the selected core; and an entry marked unused had its own trigger
removed from the core it was created on. -/
structure Sound (st : State) (p : Packet) (reply : List UInt8) (st' : State) : Prop where
  none_left : p.buf.getD 0 0 = 122 → reply = bytes "OK" → ∀ k, trigRequest p.buf = some k →
    ∀ c id, st'.tag c id ≠ some k
  others : ∀ c id k, st.tag c id = some k →
    ¬ (p.buf.getD 0 0 = 122 ∧ trigRequest p.buf = some k ∧ c = core st.stub) → st'.tag c id = some k
  unused : ∀ i, (st.stub.bp i).used = true → (st'.stub.bp i).used = false →
    st.tag (st.home i) (st.stub.bp i).trigId = some ((st.stub.bp i).gtype, (st.stub.bp i).addr) ∧
      st'.hw.live (st.home i) (st.stub.bp i).trigId = false

/-! ## Table and cores agree -/

theorem findBp_some {bp : Fin MAX_BP → BpEntry} {addr : UInt64} {gtype : Int} {i : Fin MAX_BP}
    (h : findBp bp addr gtype = some i) :
    (bp i).used = true ∧ (bp i).addr = addr ∧ (bp i).gtype = gtype := by
  have hi := List.find?_some h
  simp only [Bool.and_eq_true, beq_iff_eq] at hi
  exact ⟨hi.1.1, hi.1.2, hi.2⟩

theorem findBp_none {bp : Fin MAX_BP → BpEntry} {addr : UInt64} {gtype : Int}
    (h : findBp bp addr gtype = none) (i : Fin MAX_BP) (hi : (bp i).used = true) :
    ¬ ((bp i).gtype = gtype ∧ (bp i).addr = addr) := by
  rintro ⟨hg, ha⟩
  have hno := List.find?_eq_none.mp h i (List.mem_finRange i)
  simp [hi, hg, ha] at hno

theorem findFree_some {bp : Fin MAX_BP → BpEntry} {i : Fin MAX_BP} (h : findFree bp = some i) :
    (bp i).used = false := by
  simpa using List.find?_some h

/-- Entering what the table does not hold leaves no two entries for one request. -/
theorem once_entered {bp : Fin MAX_BP → BpEntry} {e : BpEntry} (i : Fin MAX_BP)
    (honce : ∀ j j', (bp j).used = true → (bp j').used = true →
      (bp j).gtype = (bp j').gtype → (bp j).addr = (bp j').addr → j = j')
    (hnew : findBp bp e.addr e.gtype = none) (j j' : Fin MAX_BP)
    (hj : (if j = i then e else bp j).used = true)
    (hj' : (if j' = i then e else bp j').used = true)
    (hg : (if j = i then e else bp j).gtype = (if j' = i then e else bp j').gtype)
    (ha : (if j = i then e else bp j).addr = (if j' = i then e else bp j').addr) : j = j' := by
  split at hj
  · rename_i heq
    split at hj'
    · rename_i heq'
      rw [heq, heq']
    · rename_i hne'
      rw [if_pos heq, if_neg hne'] at hg ha
      exact absurd ⟨hg.symm, ha.symm⟩ (findBp_none hnew j' hj')
  · rename_i hne
    split at hj'
    · rename_i heq'
      rw [if_neg hne, if_pos heq'] at hg ha
      exact absurd ⟨hg, ha⟩ (findBp_none hnew j hj)
    · rename_i hne'
      rw [if_neg hne, if_neg hne'] at hg ha
      exact honce j j' hj hj' hg ha

/-- Every live trigger has one entry, which holds its kind, address and id, and the
other way round. -/
structure Agree (st : State) : Prop where
  live : ∀ c id, st.hw.live c id = (st.tag c id).isSome
  entry : ∀ i, (st.stub.bp i).used = true →
    st.tag (st.home i) (st.stub.bp i).trigId = some ((st.stub.bp i).gtype, (st.stub.bp i).addr)
  listed : ∀ c id k, st.tag c id = some k → ∃ i, (st.stub.bp i).used = true ∧ st.home i = c ∧
    (st.stub.bp i).trigId = id ∧ ((st.stub.bp i).gtype, (st.stub.bp i).addr) = k
  once : ∀ i j, (st.stub.bp i).used = true → (st.stub.bp j).used = true →
    (st.stub.bp i).gtype = (st.stub.bp j).gtype → (st.stub.bp i).addr = (st.stub.bp j).addr → i = j

theorem agree_start (s : Stub) (hs : ∀ i, (s.bp i).used = false) : Agree (.start s) where
  live _ _ := rfl
  entry i hi := by
    rw [State.start, hs i] at hi
    cases hi
  listed _ _ _ h := by cases h
  once i _ hi := by
    rw [State.start, hs i] at hi
    cases hi

section agree
variable {st : State} {p : Packet}

/-- A live trigger keeps its tag. -/
theorem next_tag_live {s' : Stub} {hw' : TrigHw} {c : Core} {id : UInt32}
    (h : st.hw.live c id = true) (h' : hw'.live c id = true) :
    (st.next p s' hw').tag c id = st.tag c id := by
  simp only [State.next, h, h', ↓reduceIte]

theorem next_tag_dead {s' : Stub} {hw' : TrigHw} {c : Core} {id : UInt32}
    (h' : hw'.live c id = false) : (st.next p s' hw').tag c id = none := by
  simp only [State.next, h', Bool.false_eq_true, ↓reduceIte]

theorem next_tag_new {s' : Stub} {hw' : TrigHw} {c : Core} {id : UInt32}
    (h : st.hw.live c id = false) (h' : hw'.live c id = true) :
    (st.next p s' hw').tag c id = trigRequest p.buf := by
  simp only [State.next, h, h', Bool.false_eq_true, ↓reduceIte]

theorem Agree.dead (hagree : Agree st) {c : Core} {id : UInt32} (h : st.hw.live c id = false) :
    st.tag c id = none := by
  rw [hagree.live c id] at h
  simpa using h

theorem next_same_tag (hagree : Agree st) {s' : Stub} {hw' : TrigHw}
    (hlive : hw'.live = st.hw.live) : (st.next p s' hw').tag = st.tag := by
  funext c id
  cases h : st.hw.live c id with
  | true => exact next_tag_live h (hlive ▸ h)
  | false => rw [next_tag_dead (hlive ▸ h), hagree.dead h]

theorem next_tag_created (hagree : Agree st) {s' : Stub} {k : Int × UInt64}
    (hk : trigRequest p.buf = some k) {c : Core} {id : UInt32} (hid : st.hw.live c id = false)
    (c' : Core) (id' : UInt32) :
    (st.next p s' (st.hw.set c id true)).tag c' id' =
      if c' = c ∧ id' = id then some k else st.tag c' id' := by
  split
  · rename_i heq
    obtain ⟨rfl, rfl⟩ := heq
    rw [next_tag_new hid (if_pos ⟨rfl, rfl⟩), hk]
  · rename_i hne
    have hlive : (st.hw.set c id true).live c' id' = st.hw.live c' id' := if_neg hne
    cases h : st.hw.live c' id' with
    | true => exact next_tag_live h (hlive.trans h)
    | false => rw [next_tag_dead (hlive.trans h), hagree.dead h]

theorem next_tag_removed (hagree : Agree st) {s' : Stub} (c : Core) (id : UInt32) (c' : Core)
    (id' : UInt32) :
    (st.next p s' (st.hw.set c id false)).tag c' id' =
      if c' = c ∧ id' = id then none else st.tag c' id' := by
  split
  · rename_i heq
    exact next_tag_dead (if_pos heq)
  · rename_i hne
    have hlive : (st.hw.set c id false).live c' id' = st.hw.live c' id' := if_neg hne
    cases h : st.hw.live c' id' with
    | true => exact next_tag_live h (hlive.trans h)
    | false => rw [next_tag_dead (hlive.trans h), hagree.dead h]

theorem next_same_home {s' : Stub} {hw' : TrigHw} (hbp : s'.bp = st.stub.bp) :
    (st.next p s' hw').home = st.home := by
  funext i
  simp only [State.next, hbp]
  cases (st.stub.bp i).used <;> rfl

theorem next_home_entered {s' : Stub} {hw' : TrigHw} {i : Fin MAX_BP} {e : BpEntry}
    (he : e.used = true) (hfree : (st.stub.bp i).used = false)
    (hbp : ∀ j, s'.bp j = if j = i then e else st.stub.bp j) (j : Fin MAX_BP) :
    (st.next p s' hw').home j = if j = i then core st.stub else st.home j := by
  simp only [State.next, hbp]
  split
  · rename_i heq
    rw [heq, hfree, he]
    rfl
  · cases (st.stub.bp j).used <;> rfl

theorem next_home_cleared {s' : Stub} {hw' : TrigHw} {i : Fin MAX_BP} {e : BpEntry}
    (he : e.used = false) (hbp : ∀ j, s'.bp j = if j = i then e else st.stub.bp j)
    (j : Fin MAX_BP) : (st.next p s' hw').home j = st.home j := by
  simp only [State.next, hbp]
  split
  · rw [he]
    rfl
  · cases (st.stub.bp j).used <;> rfl

theorem agree_same (hagree : Agree st) {s' : Stub} {hw' : TrigHw} (hbp : s'.bp = st.stub.bp)
    (hlive : hw'.live = st.hw.live) : Agree (st.next p s' hw') := by
  have htag : (st.next p s' hw').tag = st.tag := next_same_tag hagree hlive
  have hhome : (st.next p s' hw').home = st.home := next_same_home hbp
  have hstub : (st.next p s' hw').stub.bp = st.stub.bp := hbp
  refine ⟨?_, ?_, ?_, ?_⟩
  · intro c id
    rw [htag, ← hagree.live c id]
    exact congrFun (congrFun hlive c) id
  · rw [htag, hhome, hstub]
    exact hagree.entry
  · rw [htag, hhome, hstub]
    exact hagree.listed
  · rw [hstub]
    exact hagree.once

theorem agree_entered (hagree : Agree st) {k : Int × UInt64} (hk : trigRequest p.buf = some k)
    {id : UInt32} {i : Fin MAX_BP} (hnew : findBp st.stub.bp k.2 k.1 = none)
    (hid : st.hw.live (core st.stub) id = false) (hfree : findFree st.stub.bp = some i) :
    Agree (st.next p (st.stub.setBp i ⟨k.2, k.1, id, true⟩)
      (st.hw.set (core st.stub) id true)) := by
  generalize hnext : st.next p (st.stub.setBp i ⟨k.2, k.1, id, true⟩)
    (st.hw.set (core st.stub) id true) = st'
  have hfree := findFree_some hfree
  have htag : ∀ c' id', st'.tag c' id' =
      if c' = core st.stub ∧ id' = id then some k else st.tag c' id' := by
    intro c' id'
    rw [← hnext, next_tag_created hagree hk hid]
  have hbp : ∀ j, st'.stub.bp j = if j = i then ⟨k.2, k.1, id, true⟩ else st.stub.bp j := by
    intro j
    rw [← hnext]
    rfl
  have hhome : ∀ j, st'.home j = if j = i then core st.stub else st.home j := by
    intro j
    rw [← hnext]
    exact next_home_entered rfl hfree (fun _ => rfl) j
  -- an old entry is about a trigger that was live before
  have hold : ∀ j, j ≠ i → (st.stub.bp j).used = true →
      ¬ (st.home j = core st.stub ∧ (st.stub.bp j).trigId = id) := by
    rintro j - hj ⟨hc, ht⟩
    have hentry := hagree.entry j hj
    rw [hc, ht, hagree.dead hid] at hentry
    cases hentry
  refine ⟨?_, ?_, ?_, ?_⟩
  · intro c' id'
    rw [htag, ← hnext]
    show (if c' = core st.stub ∧ id' = id then true else st.hw.live c' id') = _
    split
    · rfl
    · exact hagree.live c' id'
  · intro j hj
    rw [hbp] at hj ⊢
    rw [hhome, htag]
    split
    · rw [if_pos ⟨rfl, rfl⟩]
    · rename_i hne
      rw [if_neg hne] at hj
      rw [if_neg (hold j hne hj)]
      exact hagree.entry j hj
  · intro c' id' k' htag'
    rw [htag] at htag'
    split at htag'
    · rename_i heq
      injection htag' with hk'
      refine ⟨i, ?_⟩
      rw [hbp, hhome, if_pos rfl, if_pos rfl]
      exact ⟨rfl, heq.1.symm, heq.2.symm, hk'⟩
    · obtain ⟨j, hj, hc, ht, hk'⟩ := hagree.listed c' id' k' htag'
      have hne : j ≠ i := by
        rintro rfl
        rw [hfree] at hj
        cases hj
      refine ⟨j, ?_⟩
      rw [hbp, hhome, if_neg hne, if_neg hne]
      exact ⟨hj, hc, ht, hk'⟩
  · intro j j' hj hj' hg ha
    rw [hbp] at hj hg ha
    rw [hbp] at hj' hg ha
    exact once_entered i hagree.once hnew j j' hj hj' hg ha

/-- Two entries are never about one trigger. -/
theorem Agree.apart (hagree : Agree st) {i j : Fin MAX_BP} (hi : (st.stub.bp i).used = true)
    (hj : (st.stub.bp j).used = true) (hc : st.home j = st.home i)
    (ht : (st.stub.bp j).trigId = (st.stub.bp i).trigId) : j = i := by
  have hentry := hagree.entry j hj
  rw [hc, ht, hagree.entry i hi] at hentry
  injection hentry with hk
  injection hk with hg ha
  exact hagree.once j i hj hi hg.symm ha.symm

theorem agree_removed (hagree : Agree st) {i : Fin MAX_BP} (hi : (st.stub.bp i).used = true)
    (hcore : st.home i = core st.stub) :
    Agree (st.next p (clearBp st.stub i)
      (st.hw.set (core st.stub) (st.stub.bp i).trigId false)) := by
  generalize hnext : st.next p (clearBp st.stub i)
    (st.hw.set (core st.stub) (st.stub.bp i).trigId false) = st'
  have htag : ∀ c' id', st'.tag c' id' =
      if c' = core st.stub ∧ id' = (st.stub.bp i).trigId then none else st.tag c' id' := by
    intro c' id'
    rw [← hnext, next_tag_removed hagree]
  have hbp : ∀ j, st'.stub.bp j =
      if j = i then { st.stub.bp i with used := false } else st.stub.bp j := by
    intro j
    rw [← hnext]
    rfl
  have hhome : ∀ j, st'.home j = st.home j := by
    intro j
    rw [← hnext]
    exact next_home_cleared rfl (fun _ => rfl) j
  -- the entries that stay in use
  have hstay : ∀ j, (st'.stub.bp j).used = true → j ≠ i ∧ (st.stub.bp j).used = true := by
    intro j hj
    rw [hbp] at hj
    split at hj
    · cases hj
    · exact ⟨by assumption, hj⟩
  refine ⟨?_, ?_, ?_, ?_⟩
  · intro c' id'
    rw [htag, ← hnext]
    show (if c' = core st.stub ∧ id' = (st.stub.bp i).trigId then false else st.hw.live c' id') = _
    split
    · rfl
    · exact hagree.live c' id'
  · intro j hj
    obtain ⟨hne, hj⟩ := hstay j hj
    rw [hhome, htag, hbp, if_neg hne, if_neg, hagree.entry j hj]
    rintro ⟨hc, ht⟩
    exact hne (hagree.apart hi hj (hc.trans hcore.symm) ht)
  · intro c' id' k htag'
    rw [htag] at htag'
    split at htag'
    · cases htag'
    · rename_i hother
      obtain ⟨j, hj, hc, ht, hk⟩ := hagree.listed c' id' k htag'
      have hne : j ≠ i := by
        rintro rfl
        exact hother ⟨hc.symm.trans hcore, ht.symm⟩
      refine ⟨j, ?_⟩
      rw [hbp, hhome, if_neg hne]
      exact ⟨hj, hc, ht, hk⟩
  · intro j j' hj hj' hg ha
    obtain ⟨hne, hj⟩ := hstay j hj
    obtain ⟨hne', hj'⟩ := hstay j' hj'
    rw [hbp, hbp, if_neg hne, if_neg hne'] at hg ha
    exact hagree.once j j' hj hj' hg ha

end agree

/-! ## Steps -/

section steps
variable {polls : Nat} {st st' : State} {p : Packet} {reply : List UInt8}

/-- All that a step can be. -/
theorem step_cases (hp : TrigPacket p) (hstep : Step polls st p reply st') :
    ∃ s' hw', st' = st.next p s' hw' ∧
      (((s'.all = st.stub.all ∧ s'.ncore = st.stub.ncore ∧ s'.bp = st.stub.bp) ∧ hw' = st.hw ∧
          (p.buf.getD 0 0 = 122 → trigRequest p.buf = none ∧ reply ≠ bytes "OK")) ∨
        (p.buf.getD 0 0 = 90 ∧ ∃ k, trigRequest p.buf = some k ∧ Added st.stub st.hw k s' hw') ∨
        (p.buf.getD 0 0 = 122 ∧ ∃ k, trigRequest p.buf = some k ∧
          Removed st.stub st.hw k s' hw')) := by
  cases hstep with
  | @run s' hw' hr =>
    refine ⟨s', hw', rfl, ?_⟩
    rcases hp with hp | hp | hp
    · obtain ⟨_, _, hs, -, rfl, hhw⟩ :=
        (hr.sound _ (dispatch_thread polls st.stub st.hw [] p hp)).1 _ rfl
      obtain rfl := Option.some.inj hs
      exact .inl ⟨threadArg_frame _ _, hhw, fun hz => absurd (hp.symm.trans hz) (by decide)⟩
    · obtain ⟨_, _, hs, -, heffect⟩ :=
        (hr.sound _ (dispatch_set polls st.stub st.hw [] p hp)).1 _ rfl
      obtain rfl := Option.some.inj hs
      cases hk : trigRequest p.buf with
      | none =>
        rw [hk] at heffect
        obtain ⟨rfl, hhw⟩ := heffect
        exact .inl ⟨⟨rfl, rfl, rfl⟩, hhw,
          fun hz => absurd (hp.symm.trans hz) (by decide)⟩
      | some k =>
        rw [hk] at heffect
        exact .inr (.inl ⟨hp, k, rfl, heffect⟩)
    · obtain ⟨r, _, hs, hout, heffect⟩ :=
        (hr.sound _ (dispatch_clear polls st.stub st.hw [] p hp)).1 _ rfl
      obtain rfl := Option.some.inj hs
      obtain rfl : reply = r := by simpa using hout
      cases hk : trigRequest p.buf with
      | none =>
        rw [hk] at heffect
        obtain ⟨hno, rfl, hhw⟩ := heffect
        exact .inl ⟨⟨rfl, rfl, rfl⟩, hhw, fun _ => ⟨rfl, hno⟩⟩
      | some k =>
        rw [hk] at heffect
        exact .inr (.inr ⟨hp, k, rfl, heffect⟩)

/-- The trigger of an entry is live on its core, so a refusal to remove it is seen. -/
theorem not_refused (hagree : Agree st) (hz : p.buf.getD 0 0 = 122) {k : Int × UInt64}
    (hk : trigRequest p.buf = some k) {i : Fin MAX_BP} (hfound : findBp st.stub.bp k.2 k.1 = some i)
    (hsafe : Safe st p (st.next p (clearBp st.stub i)
      { st.hw with refused := st.hw.refused || st.hw.live (core st.stub) (st.stub.bp i).trigId })) :
    False := by
  have hentry := hagree.entry i (findBp_some hfound).1
  have hlive := hagree.live (core st.stub) (st.stub.bp i).trigId
  rw [hsafe.home hz k hk i hfound] at hentry
  rw [hentry] at hlive
  have hkept := hsafe.removal
  simp only [State.next, hlive, Option.isSome_some, Bool.or_true] at hkept
  cases hkept

theorem agree_step (hagree : Agree st) (hp : TrigPacket p) (hstep : Step polls st p reply st')
    (hsafe : Safe st p st') : Agree st' := by
  obtain ⟨s', hw', rfl, ⟨⟨-, -, hbp⟩, rfl, -⟩ | ⟨-, k, hk, hadded⟩ | ⟨hz, k, hk, hremoved⟩⟩ :=
    step_cases hp hstep
  · exact agree_same hagree hbp rfl
  · cases hadded with
    | kept => exact agree_same hagree rfl rfl
    | leaked id hid hfull =>
      have hlive := hsafe.room hfull (core st.stub) id (if_pos ⟨rfl, rfl⟩)
      rw [hid] at hlive
      cases hlive
    | entered id i hnew hid hfree => exact agree_entered hagree hk hnew hid hfree
  · cases hremoved with
    | absent habsent => exact agree_same hagree rfl rfl
    | removed i hfound =>
        exact agree_removed hagree (findBp_some hfound).1 (hsafe.home hz k hk i hfound)
    | refused i hfound => exact (not_refused hagree hz hk hfound hsafe).elim

/-- A `Z` packet ends no trigger. -/
theorem added_keeps (hagree : Agree st) {k : Int × UInt64} (hk : trigRequest p.buf = some k)
    {s' : Stub} {hw' : TrigHw} (hadded : Added st.stub st.hw k s' hw') {c : Core} {id : UInt32}
    {k' : Int × UInt64} (htag : st.tag c id = some k') :
    (st.next p s' hw').tag c id = some k' := by
  -- the new trigger gets an id that was free
  have hfree : ∀ id', st.hw.live (core st.stub) id' = false → ¬ (c = core st.stub ∧ id = id') := by
    rintro id' hid ⟨rfl, rfl⟩
    rw [hagree.dead hid] at htag
    cases htag
  cases hadded with
  | kept => rw [next_same_tag hagree rfl, htag]
  | leaked id' hid hfull => rw [next_tag_created hagree hk hid, if_neg (hfree id' hid), htag]
  | entered id' i hnew hid hfree' =>
      rw [next_tag_created hagree hk hid, if_neg (hfree id' hid), htag]

/-- The removed trigger is the only one of its kind and address. -/
theorem sound_removed (hagree : Agree st) (hz : p.buf.getD 0 0 = 122) {k : Int × UInt64}
    (hk : trigRequest p.buf = some k) {i : Fin MAX_BP} (hfound : findBp st.stub.bp k.2 k.1 = some i)
    (hcore : st.home i = core st.stub) :
    Sound st p reply (st.next p (clearBp st.stub i)
      (st.hw.set (core st.stub) (st.stub.bp i).trigId false)) := by
  obtain ⟨hi, ha, hg⟩ := findBp_some hfound
  have htag : ∀ c id, (st.next p (clearBp st.stub i)
      (st.hw.set (core st.stub) (st.stub.bp i).trigId false)).tag c id =
      if c = core st.stub ∧ id = (st.stub.bp i).trigId then none else st.tag c id :=
    next_tag_removed hagree (core st.stub) (st.stub.bp i).trigId
  refine ⟨?_, ?_, ?_⟩
  · intro _ _ k' hk' c id htag'
    obtain rfl := Option.some.inj (hk.symm.trans hk')
    rw [htag] at htag'
    split at htag'
    · cases htag'
    · rename_i hother
      obtain ⟨j, hj, hc, ht, hkj⟩ := hagree.listed c id k htag'
      have hsame := hagree.once j i hj hi (hg ▸ congrArg Prod.fst hkj) (ha ▸ congrArg Prod.snd hkj)
      rw [hsame] at hc ht
      exact hother ⟨hc.symm.trans hcore, ht.symm⟩
  · intro c id k' htag' hdiff
    rw [htag, if_neg]
    · exact htag'
    · rintro ⟨rfl, rfl⟩
      have hentry := hagree.entry i hi
      rw [hcore, htag', hg, ha] at hentry
      exact hdiff ⟨hz, hk.trans hentry.symm, rfl⟩
  · intro j hj hj'
    have hsame : j = i := by
      by_contra hne
      have hstay : (clearBp st.stub i).bp j = st.stub.bp j := if_neg hne
      exact absurd (hj.symm.trans ((congrArg BpEntry.used hstay).symm.trans hj')) (by decide)
    rw [hsame]
    refine ⟨hagree.entry i hi, ?_⟩
    rw [hcore]
    exact if_pos ⟨rfl, rfl⟩

theorem sound_step (hagree : Agree st) (hp : TrigPacket p) (hstep : Step polls st p reply st')
    (hsafe : Safe st p st') : Sound st p reply st' := by
  obtain ⟨s', hw', rfl, ⟨⟨-, -, hbp⟩, rfl, hno⟩ | ⟨hZ, k, hk, hadded⟩ | ⟨hz, k, hk, hremoved⟩⟩ :=
    step_cases hp hstep
  · refine ⟨?_, ?_, ?_⟩
    · intro hz _ k hk
      rw [(hno hz).1] at hk
      cases hk
    · intro c id k htag _
      rw [next_same_tag hagree rfl]
      exact htag
    · intro i hi hi'
      have hsame : (st.next p s' st.hw).stub.bp i = st.stub.bp i := congrFun hbp i
      rw [hsame, hi] at hi'
      cases hi'
  · have hnz : ¬ p.buf.getD 0 0 = 122 := fun hz => absurd (hZ.symm.trans hz) (by decide)
    refine ⟨fun hz => absurd hz hnz, fun c id k' htag _ => added_keeps hagree hk hadded htag, ?_⟩
    intro i hi hi'
    cases hadded with
    | kept => exact absurd (hi.symm.trans hi') (by decide)
    | leaked id hid hfull => exact absurd (hi.symm.trans hi') (by decide)
    | entered id j hnew hid hfree =>
      have hused : (if i = j then (⟨k.2, k.1, id, true⟩ : BpEntry) else st.stub.bp i).used =
          true := by
        split
        · rfl
        · exact hi
      exact absurd (hused.symm.trans hi') (by decide)
  · cases hremoved with
    | absent habsent =>
      have htag : (st.next p st.stub st.hw).tag = st.tag := next_same_tag hagree rfl
      refine ⟨?_, ?_, ?_⟩
      · intro _ _ k' hk' c id htag'
        obtain rfl := Option.some.inj (hk.symm.trans hk')
        rw [htag] at htag'
        obtain ⟨i, hi, -, -, rfl⟩ := hagree.listed c id k htag'
        exact findBp_none habsent i hi ⟨rfl, rfl⟩
      · intro c id k' htag' _
        rw [htag]
        exact htag'
      · exact fun i hi hi' => absurd (hi.symm.trans hi') (by decide)
    | removed i hfound => exact sound_removed hagree hz hk hfound (hsafe.home hz k hk i hfound)
    | refused i hfound => exact (not_refused hagree hz hk hfound hsafe).elim

end steps

/-! ## Sessions that do not go wrong -/

theorem reached_agree {polls : Nat} {s : Stub} (hs : ∀ i, (s.bp i).used = false) {st : State}
    (h : Reached Safe polls (.start s) st) : Agree st := by
  induction h with
  | refl => exact agree_start s hs
  | tail _ hstep ih =>
    obtain ⟨p, reply, hp, hstep, hsafe⟩ := hstep
    exact agree_step ih hp hstep hsafe

/-- In every session of `H`, `Z` and `z` packets whose steps do not go wrong, every
step does what is asked of it. -/
theorem triggers_cleared (polls : Nat) (s : Stub) (hs : ∀ i, (s.bp i).used = false)
    (st : State) (hreach : Reached Safe polls (.start s) st) (p : Packet) (hp : TrigPacket p)
    (reply : List UInt8) (st' : State) (hstep : Step polls st p reply st')
    (hsafe : Safe st p st') : Sound st p reply st' :=
  sound_step (reached_agree hs hreach) hp hstep hsafe

/-! ## A thread switch between insertion and removal -/

/-- A library that creates every trigger under the id 1, and refuses nothing. -/
def oneId (x : TrigHw × List (List UInt8)) :
    (o : StubOp) → StubSig.Res o × (TrigHw × List (List UInt8))
  | .createTrig c _ =>
    if x.1.live c 1 then ((none : Option UInt32), x) else (some (1 : UInt32), x.1.set c 1 true, x.2)
  | .removeTrig c id =>
    if x.1.live c id then (true, x.1.set c id false, x.2)
    else (false, { x.1 with refused := x.1.refused || x.1.live c id }, x.2)
  | .putPacket data => ((0 : Int), x.1, x.2 ++ [data])
  | .bus (.read _ _) => ((none : Option UInt32), x)
  | .bus (.write _ _ _) => (false, x)
  | .getPacket buf => (((-1 : Int), buf), x)
  | .sockHasByte => (false, x)
  | .readByte => ((none : Option UInt8), x)
  | .qryState _ => ((none : Option McdCoreState), x)
  | .stop _ => (false, x)
  | .run _ => (false, x)
  | .step _ => (false, x)
  | .activateTrigSet _ => (true, x)
  | .malloc _ => ((fun _ => 0 : Nat → UInt8), x)

theorem oneId_trigs (x : TrigHw × List (List UInt8)) (o : StubOp) :
    mcdTrigs x o (oneId x o).1 (oneId x o).2 := by
  cases o with
  | createTrig c t =>
    cases h : x.1.live c 1 with
    | true =>
      simp only [oneId, h, ↓reduceIte]
      exact .inl ⟨rfl, rfl⟩
    | false =>
      simp only [oneId, h, Bool.false_eq_true, ↓reduceIte]
      exact .inr ⟨1, rfl, h, rfl⟩
  | removeTrig c id =>
    cases h : x.1.live c id with
    | true =>
      simp only [oneId, h, ↓reduceIte]
      exact .inl ⟨rfl, h, rfl⟩
    | false =>
      simp only [oneId, h, Bool.false_eq_true, ↓reduceIte]
      exact .inr ⟨rfl, by rw [h]⟩
  | bus o => cases o <;> rfl
  | _ => rfl

theorem step_oneId {st : State} {p : Packet} {reply : List UInt8} {s' : Stub} {hw' : TrigHw}
    (h : (dispatchPacket 0 st.stub p).exec oneId (st.hw, []) = (.ok (some s'), (hw', [reply]))) :
    Step 0 st p reply (st.next p s' hw') := by
  have hr := runs_exec mcdTrigs oneId oneId_trigs (dispatchPacket 0 st.stub p) (st.hw, [])
  rw [h] at hr
  exact .run hr

def twoCores : Stub :=
  .start 2 (fun i => ⟨⟨i, 0⟩, fun _ => ⟨0, 0⟩, fun _ => false⟩) two_cores

def setPacket : Packet := ⟨bytes "Z0,100", []⟩
def threadPacket : Packet := ⟨bytes "Hg2", []⟩
def clearPacket : Packet := ⟨bytes "z0,100", []⟩

def firstBp : Fin MAX_BP := ⟨0, by decide⟩

/-- With a breakpoint at `0x100` on core 0. -/
def withBp : Stub := twoCores.setBp firstBp ⟨0x100, 0, 1, true⟩

def onlyFirst : TrigHw := (State.start twoCores).hw.set 0 1 true

def inserted : State := (State.start twoCores).next setPacket withBp onlyFirst

theorem step_inserted : Step 0 (.start twoCores) setPacket (bytes "OK") inserted := step_oneId rfl

theorem safe_inserted : Safe (.start twoCores) setPacket inserted where
  room h := absurd h (by decide)
  home h := absurd h (by decide)
  removal := rfl

theorem triggers_cleared_one :
    Sound inserted clearPacket (bytes "OK")
      (inserted.next clearPacket (clearBp withBp firstBp) (onlyFirst.set 0 1 false)) := by
  refine triggers_cleared 0 twoCores (fun _ => rfl) inserted
    (.single ⟨setPacket, _, .inr (.inl (by decide)), step_inserted, safe_inserted⟩)
    clearPacket (.inr (.inr (by decide))) _ _ (step_oneId rfl) ⟨?_, ?_, rfl⟩
  · exact fun h => absurd h (by decide)
  · intro _ k hk i hi
    obtain rfl : k = (0, 0x100) := (Option.some.inj hk).symm
    obtain rfl : firstBp = i := Option.some.inj hi
    rfl

/-- The breakpoint of core 0 is cleared with core 1 selected: the answer is `OK`, the
entry is free, and the breakpoint is still there. -/
theorem phantom_breakpoint :
    ¬ ∀ st p reply st', Reached (fun _ _ _ => True) 0 (.start twoCores) st → TrigPacket p →
      Step 0 st p reply st' → Sound st p reply st' := by
  intro h
  have hswitch : Step 0 inserted threadPacket (bytes "OK")
      (inserted.next threadPacket (selectThread withBp 1) onlyFirst) := step_oneId rfl
  have hclear : Step 0 (inserted.next threadPacket (selectThread withBp 1) onlyFirst) clearPacket
      (bytes "OK") ((inserted.next threadPacket (selectThread withBp 1) onlyFirst).next clearPacket
        (clearBp (selectThread withBp 1) firstBp) onlyFirst) := step_oneId rfl
  have hinserted : Reached (fun _ _ _ => True) 0 (.start twoCores) inserted :=
    .single ⟨setPacket, _, .inr (.inl (by decide)), step_inserted, trivial⟩
  have hreach := hinserted.tail ⟨threadPacket, _, .inl (by decide), hswitch, trivial⟩
  exact (h _ clearPacket _ _ hreach (.inr (.inr (by decide))) hclear).none_left (by decide) rfl
    (0, 0x100) rfl 0 1 rfl

end OpenTricore.Triggers
