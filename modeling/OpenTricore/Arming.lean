import OpenTricore.Triggers

/-! Insertions that are answered by `OK`. The table knows a trigger by address and kind
alone, so a packet that asks for more bytes, or for another core, finds the entry of an
earlier one and nothing is armed for it. The result of the activation is dropped as well.
Here sessions of `H`, `Z` and `z` packets are run against cores that keep the whole
trigger and whether it is active.

* `step_set`: all that a `Z` packet can do;
* `armed_iff`: when a packet that is answered by `OK` is armed as asked;
* `Kept`: every entry has its trigger, kept by every careful step (`kept_step`). -/

namespace OpenTricore.Arming
open OpenTricore Lib Lib.Prog Triggers

/-! ## Cores with whole triggers -/

/-- A trigger that is live, and whether it is active. -/
structure LiveTrig where
  trig : McdTrig
  active : Bool

abbrev Hw := Core → UInt32 → Option LiveTrig

def Hw.set (hw : Hw) (c : Core) (id : UInt32) (x : Option LiveTrig) : Hw :=
  fun c' id' => if c' = c ∧ id' = id then x else hw c' id'

/-- All triggers of the core become active. -/
def Hw.activate (hw : Hw) (c : Core) : Hw :=
  fun c' id => if c' = c then (hw c' id).map fun t => { t with active := true } else hw c' id

/-- A trigger is created as it is asked for, under an id that is free on its core, or not
at all. It is live but not active before an activation, which answers `act` and is without
effect if it fails. -/
def mcdArms (act : Bool) : Env StubSig (Hw × List (List UInt8))
  | x, .createTrig c t, r, y =>
    (r = none ∧ y = x) ∨
      ∃ id, r = some id ∧ x.1 c id = none ∧ y = (x.1.set c id (some ⟨t, false⟩), x.2)
  | x, .activateTrigSet c, r, y => r = act ∧ y = (if act then x.1.activate c else x.1, x.2)
  | x, .removeTrig c id, r, y =>
    (r = true ∧ y = (x.1.set c id none, x.2)) ∨ (r = false ∧ y = x)
  | x, .putPacket data, _, y => y = (x.1, x.2 ++ [data])
  | x, _, _, y => y = x

theorem wp_putPacket_arms {act : Bool} {X : Abort → Hw × List (List UInt8) → Prop}
    {Q : Unit → Hw × List (List UInt8) → Prop} (data : List UInt8) (x : Hw × List (List UInt8))
    (h : Q () (x.1, x.2 ++ [data])) : (putPacket data).wp (mcdArms act) Q X x := by
  simp only [putPacket, wp_bind]
  rintro r _ rfl
  exact h

/-! ## What is asked for -/

/-- The number of bytes that a packet asks for, 1 if it gives no length. -/
def askedLen (p : List UInt8) : Nat :=
  match strchr 44 p with
  | none => 1
  | some comma =>
    match strchr 44 (comma.drop 1) with
    | none => 1
    | some comma2 => (strtoull (comma2.drop 1)).toNat

/-- The trigger has the type of the kind and starts at the address, and that of a
watchpoint covers `len` bytes from there on. -/
structure Serves (t : McdTrig) (k : Int × UInt64) (len : Nat) : Prop where
  type : trigTypeOf k.1 = some t.type
  start : t.addrStart.address = k.2
  range : 2 ≤ k.1 → ∀ x, k.2.toNat ≤ x → x < k.2.toNat + len →
    t.addrStart.address.toNat ≤ x ∧ x ≤ t.addrStart.address.toNat + t.addrRange.toNat

/-- The core has a live, active trigger for what the packet asks for. -/
def ArmedAs (hw : Hw) (c : Core) (p : List UInt8) : Prop :=
  ∃ k, trigRequest p = some k ∧ ∃ id t, hw c id = some ⟨t, true⟩ ∧ Serves t k (askedLen p)

/-! ## Sessions -/

/-- The stub and the cores, with the core that each table entry was made on and the length
it was made for. -/
structure State where
  stub : Stub
  hw : Hw
  home : Fin MAX_BP → Core
  len : Fin MAX_BP → Nat

def State.start (s : Stub) : State := ⟨s, fun _ _ => none, fun _ => 0, fun _ => 0⟩

def State.next (st : State) (p : Packet) (s' : Stub) (hw' : Hw) : State where
  stub := s'
  hw := hw'
  home i := if (s'.bp i).used && !(st.stub.bp i).used then core st.stub else st.home i
  len i := if (s'.bp i).used && !(st.stub.bp i).used then askedLen p.buf else st.len i

/-- The stub handles the packet `p` and answers it with `reply`, and `act` is the result
of the activation. -/
inductive Step (polls : Nat) (st : State) (p : Packet) (act : Bool) (reply : List UInt8) :
    State → Prop
  | run {s' : Stub} {hw' : Hw}
      (hr : Runs (mcdArms act) (dispatchPacket polls st.stub p) (st.hw, []) (.ok (some s'))
        (hw', [reply])) :
      Step polls st p act reply (st.next p s' hw')

/-- The states of sessions in which every step meets `C`. -/
def Reached (C : State → Packet → Bool → Prop) (polls : Nat) : State → State → Prop :=
  Relation.ReflTransGen fun st st' =>
    ∃ p act reply, TrigPacket p ∧ Step polls st p act reply st' ∧ C st p act

/-- The packet is understood, and either it makes a new entry whose length fits and whose
activation succeeds, or the core has a trigger that serves, which is active already or
becomes so now. -/
def Ready (st : State) (p : Packet) (act : Bool) : Prop :=
  ∃ k, trigRequest p.buf = some k ∧
    ((findBp st.stub.bp k.2 k.1 = none ∧ act = true ∧ (2 ≤ k.1 → askedLen p.buf < 2 ^ 32)) ∨
      ∃ id t b, st.hw (core st.stub) id = some ⟨t, b⟩ ∧ Serves t k (askedLen p.buf) ∧
        (b = true ∨ (findBp st.stub.bp k.2 k.1 = none ∧ act = true)))

/-- An entry is cleared with its core selected. A packet that finds an entry asks for no
more than it was made for, on the core it was made on, and one that finds none has a length
that fits and an activation that succeeds. -/
structure Careful (st : State) (p : Packet) (act : Bool) : Prop where
  cleared : p.buf.getD 0 0 = 122 → ∀ k, trigRequest p.buf = some k →
    ∀ i, findBp st.stub.bp k.2 k.1 = some i → st.home i = core st.stub
  found : p.buf.getD 0 0 = 90 → ∀ k, trigRequest p.buf = some k →
    ∀ i, findBp st.stub.bp k.2 k.1 = some i →
      st.home i = core st.stub ∧ (2 ≤ k.1 → askedLen p.buf ≤ st.len i)
  fresh : p.buf.getD 0 0 = 90 → ∀ k, trigRequest p.buf = some k →
    findBp st.stub.bp k.2 k.1 = none → act = true ∧ (2 ≤ k.1 → askedLen p.buf < 2 ^ 32)

/-! ## What a packet can do -/

/-- The cores after a trigger is created and the set activated. -/
def Hw.created (hw : Hw) (c : Core) (id : UInt32) (t : McdTrig) (act : Bool) : Hw :=
  if act then (hw.set c id (some ⟨t, false⟩)).activate c else hw.set c id (some ⟨t, false⟩)

/-- The trigger that a packet asks for. -/
def askedTrig (s : Stub) (k : Int × UInt64) (mt : TrigType) (p : List UInt8) : McdTrig :=
  trigFor s k.2 mt (trigRange p)

/-- How `trig_set` ends for a kind and an address that it supports. -/
inductive Inserted (act : Bool) (s : Stub) (hw : Hw) (k : Int × UInt64) (t : McdTrig) :
    Int → Stub → Hw → Prop
  | present (i : Fin MAX_BP) (h : findBp s.bp k.2 k.1 = some i) : Inserted act s hw k t 0 s hw
  | refused (hnew : findBp s.bp k.2 k.1 = none) : Inserted act s hw k t (-1) s hw
  | full (id : UInt32) (hnew : findBp s.bp k.2 k.1 = none) (hid : hw (core s) id = none) :
      Inserted act s hw k t (-1) s (hw.created (core s) id t act)
  | entered (id : UInt32) (i : Fin MAX_BP) (hnew : findBp s.bp k.2 k.1 = none)
      (hid : hw (core s) id = none) (hfree : findFree s.bp = some i) :
      Inserted act s hw k t 0 (s.setBp i ⟨k.2, k.1, id, true⟩) (hw.created (core s) id t act)

/-- What `trig_clear` does. -/
inductive Removed (act : Bool) (s : Stub) (hw : Hw) (k : Int × UInt64) : Stub → Hw → Prop
  | absent (h : findBp s.bp k.2 k.1 = none) : Removed act s hw k s hw
  | removed (i : Fin MAX_BP) (h : findBp s.bp k.2 k.1 = some i) :
      Removed act s hw k (clearBp s i)
        (if act then (hw.set (core s) (s.bp i).trigId none).activate (core s)
        else hw.set (core s) (s.bp i).trigId none)
  | refused (i : Fin MAX_BP) (h : findBp s.bp k.2 k.1 = some i) :
      Removed act s hw k (clearBp s i) (if act then hw.activate (core s) else hw)

section effects
variable {act : Bool} (polls : Nat) (s : Stub) (hw : Hw) (out : List (List UInt8))

theorem wp_trigSet (k : Int × UInt64) (range : UInt32) {mt : TrigType}
    (ht : trigTypeOf k.1 = some mt) :
    (trigSet s k.2 k.1 range).wp (mcdArms act)
      (fun a y => y.2 = out ∧ Inserted act s hw k (trigFor s k.2 mt range) a.1 a.2 y.1)
      (fun _ _ => False) (hw, out) := by
  unfold trigSet
  rw [ht]
  cases hnew : findBp s.bp k.2 k.1 with
  | some i => exact ⟨rfl, .present i hnew⟩
  | none =>
    simp only [wp_bind]
    rintro r _ (⟨rfl, rfl⟩ | ⟨id, rfl, hid, rfl⟩)
    · exact ⟨rfl, .refused hnew⟩
    · simp only [wp_ret, wp_bind]
      rintro r _ ⟨-, rfl⟩
      cases hfree : findFree s.bp with
      | none => exact ⟨rfl, .full id hnew hid⟩
      | some i => exact ⟨rfl, .entered id i hnew hid hfree⟩

theorem wp_trigClear (k : Int × UInt64) :
    (trigClear s k.2 k.1).wp (mcdArms act) (fun s' y => y.2 = out ∧ Removed act s hw k s' y.1)
      (fun _ _ => False) (hw, out) := by
  unfold trigClear
  split
  · rename_i habsent
    exact ⟨rfl, .absent habsent⟩
  · rename_i i hfound
    simp only [wp_bind]
    rintro r _ (⟨rfl, rfl⟩ | ⟨rfl, rfl⟩)
    · rintro r _ ⟨-, rfl⟩
      exact ⟨rfl, .removed i hfound⟩
    · rintro r _ ⟨-, rfl⟩
      exact ⟨rfl, .refused i hfound⟩

/-- The packet is answered once, and `P` holds of the reply and what is left. -/
def Answered (out : List (List UInt8)) (P : List UInt8 → Stub → Hw → Prop) (r : Option Stub)
    (y : Hw × List (List UInt8)) : Prop :=
  ∃ reply s', r = some s' ∧ y.2 = out ++ [reply] ∧ P reply s' y.1

variable {p : Packet}

theorem dispatch_set (hp : p.buf.getD 0 0 = 90) :
    (dispatchPacket polls s p).wp (mcdArms act) (Answered out fun reply s' hw' =>
      (reply ≠ bytes "OK" ∧ s' = s ∧ hw' = hw) ∨
        ∃ k mt rc, trigRequest p.buf = some k ∧ trigTypeOf k.1 = some mt ∧ reply = okOr rc ∧
          Inserted act s hw k (askedTrig s k mt p.buf) rc s' hw') (fun _ _ => False) (hw, out) := by
  cases hk : trigRequest p.buf with
  | none =>
    obtain ⟨d, hne, hd⟩ := dispatch_Z_none polls s hp hk
    rw [hd, wp_bind]
    exact wp_putPacket_arms _ _ ⟨_, s, rfl, rfl, .inl ⟨hne, rfl, rfl⟩⟩
  | some k =>
    obtain ⟨mt, _, hmt, -, hkind⟩ := trigRequest_some hk
    have ht : trigTypeOf k.1 = some mt := by
      rw [hkind]
      exact hmt
    rw [dispatch_Z_some polls s hp hk, wp_bind]
    refine wp_mono _ ?_ (fun _ _ h => h) (wp_trigSet s hw out k _ ht)
    rintro ⟨rc, s'⟩ ⟨hw', _⟩ ⟨rfl, hinserted⟩
    rw [wp_bind]
    exact wp_putPacket_arms _ _ ⟨_, s', rfl, rfl, .inr ⟨k, mt, rc, rfl, ht, rfl, hinserted⟩⟩

theorem dispatch_clear (hp : p.buf.getD 0 0 = 122) :
    (dispatchPacket polls s p).wp (mcdArms act) (Answered out fun _ s' hw' =>
      (s' = s ∧ hw' = hw) ∨ ∃ k, trigRequest p.buf = some k ∧ Removed act s hw k s' hw')
      (fun _ _ => False) (hw, out) := by
  cases hk : trigRequest p.buf with
  | none =>
    obtain ⟨d, -, hd⟩ := dispatch_z_none polls s hp hk
    rw [hd, wp_bind]
    exact wp_putPacket_arms _ _ ⟨_, s, rfl, rfl, .inl ⟨rfl, rfl⟩⟩
  | some k =>
    rw [dispatch_z_some polls s hp hk, wp_bind]
    refine wp_mono _ ?_ (fun _ _ h => h) (wp_trigClear s hw out k)
    rintro s' ⟨hw', _⟩ ⟨rfl, hremoved⟩
    rw [wp_bind]
    exact wp_putPacket_arms _ _ ⟨_, s', rfl, rfl, .inr ⟨k, rfl, hremoved⟩⟩

theorem dispatch_thread (hp : p.buf.getD 0 0 = 72) :
    (dispatchPacket polls s p).wp (mcdArms act) (Answered out fun _ s' hw' =>
      s' = threadArg s (p.buf.drop 2) ∧ hw' = hw) (fun _ _ => False) (hw, out) := by
  rw [dispatchPacket, dispatch_H polls s _ _ hp, wp_bind, handle_H_eq]
  simp only [wp_bind]
  exact wp_putPacket_arms _ _ ⟨_, _, rfl, rfl, rfl, rfl⟩

end effects

section steps
variable {polls : Nat} {st st' : State} {p : Packet} {act : Bool} {reply : List UInt8}

theorem step_set (hp : p.buf.getD 0 0 = 90) (hstep : Step polls st p act reply st') :
    ∃ s' hw', st' = st.next p s' hw' ∧
      ((reply ≠ bytes "OK" ∧ s' = st.stub ∧ hw' = st.hw) ∨
        ∃ k mt rc, trigRequest p.buf = some k ∧ trigTypeOf k.1 = some mt ∧ reply = okOr rc ∧
          Inserted act st.stub st.hw k (askedTrig st.stub k mt p.buf) rc s' hw') := by
  cases hstep with
  | @run s' hw' hr =>
    obtain ⟨reply', _, hs, hout, heffect⟩ :=
      (hr.sound _ (dispatch_set polls st.stub st.hw [] hp)).1 _ rfl
    obtain rfl := Option.some.inj hs
    obtain rfl : reply = reply' := by simpa using hout
    exact ⟨s', hw', rfl, heffect⟩

/-- Of other packets only a `z` packet changes the table and the cores. -/
theorem step_other (hp : TrigPacket p) (hnot : ¬ p.buf.getD 0 0 = 90)
    (hstep : Step polls st p act reply st') : ∃ s' hw', st' = st.next p s' hw' ∧
      ((s'.bp = st.stub.bp ∧ hw' = st.hw) ∨ (p.buf.getD 0 0 = 122 ∧
        ∃ k, trigRequest p.buf = some k ∧ Removed act st.stub st.hw k s' hw')) := by
  cases hstep with
  | @run s' hw' hr =>
    refine ⟨s', hw', rfl, ?_⟩
    rcases hp with hp | hp | hp
    · obtain ⟨_, _, hs, -, rfl, hhw⟩ :=
        (hr.sound _ (dispatch_thread polls st.stub st.hw [] hp)).1 _ rfl
      obtain rfl := Option.some.inj hs
      exact .inl ⟨(threadArg_frame _ _).2.2, hhw⟩
    · exact absurd hp hnot
    · obtain ⟨_, _, hs, -, ⟨rfl, hhw⟩ | hremoved⟩ :=
        (hr.sound _ (dispatch_clear polls st.stub st.hw [] hp)).1 _ rfl
      · obtain rfl := Option.some.inj hs
        exact .inl ⟨rfl, hhw⟩
      · obtain rfl := Option.some.inj hs
        exact .inr ⟨hp, hremoved⟩

end steps

/-! ## Ranges -/

theorem covers_iff (a len r : Nat) :
    (∀ x, a ≤ x → x < a + len → a ≤ x ∧ x ≤ a + r) ↔ len ≤ r + 1 := by
  constructor
  · intro h
    rcases Nat.eq_zero_or_pos len with hlen | hlen
    · omega
    · have := h (a + (len - 1)) (by omega) (by omega)
      omega
  · intro h x hx hx'
    omega

/-- A length is cut to a `uint32_t`, and 0 is taken as 1. -/
theorem cut_covers (v : UInt64) :
    v.toNat ≤ (if (if v ≠ 0 then v.toUInt32 else 1) > 0 then
      (if v ≠ 0 then v.toUInt32 else 1) - 1 else 0 : UInt32).toNat + 1 ↔ v.toNat < 2 ^ 32 := by
  have hv := v.toNat_lt
  by_cases hzero : v = 0
  · rw [hzero]
    decide
  · have hpos : 0 < v.toNat := by
      rw [Nat.pos_iff_ne_zero]
      exact fun h => hzero (UInt64.toNat_inj.mp h)
    have hcut : v.toUInt32.toNat = v.toNat % 2 ^ 32 := UInt64.toNat_toUInt32 v
    simp only [ne_eq, hzero, not_false_eq_true, ↓reduceIte, gt_iff_lt]
    split
    · rename_i hlen
      rw [UInt32.lt_iff_toNat_lt, hcut, UInt32.toNat_zero] at hlen
      have hone : (1 : UInt32) ≤ v.toUInt32 := by
        rw [UInt32.le_iff_toNat_le, hcut, UInt32.toNat_one]
        omega
      rw [UInt32.toNat_sub_of_le _ _ hone, hcut, UInt32.toNat_one]
      omega
    · rename_i hlen
      rw [UInt32.lt_iff_toNat_lt, hcut, UInt32.toNat_zero] at hlen
      rw [UInt32.toNat_zero]
      omega

/-- The range falls short exactly if the length does not fit a `uint32_t`. -/
theorem trigRange_covers {p : List UInt8} (hkind : 2 ≤ trigKind p) {comma : List UInt8}
    (hcomma : strchr 44 p = some comma) :
    askedLen p ≤ (trigRange p).toNat + 1 ↔ askedLen p < 2 ^ 32 := by
  simp only [askedLen, trigRange, trigLen, hcomma, ge_iff_le, hkind, true_and]
  cases strchr 44 (comma.drop 1) with
  | none => decide
  | some comma2 => exact cut_covers (strtoull (comma2.drop 1))

theorem serves_asked {s : Stub} {p : List UInt8} {k : Int × UInt64} {mt : TrigType}
    (hk : trigRequest p = some k) (ht : trigTypeOf k.1 = some mt) :
    Serves (askedTrig s k mt p) k (askedLen p) ↔ (2 ≤ k.1 → askedLen p < 2 ^ 32) := by
  obtain ⟨_, comma, -, hcomma, hkind⟩ := trigRequest_some hk
  have hcovers : 2 ≤ k.1 → (askedLen p ≤ (trigRange p).toNat + 1 ↔ askedLen p < 2 ^ 32) := by
    intro h
    rw [hkind] at h
    exact trigRange_covers h hcomma
  constructor
  · intro h hwatch
    exact (hcovers hwatch).mp ((covers_iff _ _ _).mp (h.range hwatch))
  · intro h
    refine ⟨ht, rfl, fun hwatch => ?_⟩
    exact (covers_iff _ _ _).mpr ((hcovers hwatch).mpr (h hwatch))

/-! ## Armed as asked -/

theorem created_apply (hw : Hw) (c : Core) (id : UInt32) (t : McdTrig) (act : Bool) (id' : UInt32) :
    hw.created c id t act c id' =
      if id' = id then some ⟨t, act⟩ else (hw c id').map fun x => ⟨x.trig, x.active || act⟩ := by
  by_cases heq : id' = id
  · cases act <;> simp [Hw.created, Hw.activate, Hw.set, heq]
  · cases act <;> cases h : hw c id' <;> simp [Hw.created, Hw.activate, Hw.set, heq, h]

section armed
variable {polls : Nat} {st st' : State} {p : Packet} {act : Bool}

theorem okOr_ok {rc : Int} (h : bytes "OK" = okOr rc) : rc = 0 := by
  by_contra hne
  rw [okOr, if_pos hne] at h
  exact absurd h (by decide)

/-- Exactly when a packet that is answered by `OK` is armed as asked. -/
theorem armed_iff (hp : p.buf.getD 0 0 = 90) (hstep : Step polls st p act (bytes "OK") st') :
    ArmedAs st'.hw (core st'.stub) p.buf ↔ Ready st p act := by
  obtain ⟨s', hw', rfl, ⟨hne, -⟩ | ⟨k, mt, rc, hk, ht, hreply, hinserted⟩⟩ := step_set hp hstep
  · exact absurd rfl hne
  obtain rfl := okOr_ok hreply
  have hserves := serves_asked (s := st.stub) hk ht
  simp only [ArmedAs, Ready, hk, Option.some.injEq, exists_eq_left']
  cases hinserted with
  | present i hfound =>
    constructor
    · rintro ⟨id, t, hlive, hs⟩
      exact .inr ⟨id, t, true, hlive, hs, .inl rfl⟩
    · rintro (⟨hnew, -⟩ | ⟨id, t, b, hlive, hs, rfl | ⟨hnew, -⟩⟩)
      · cases hfound.symm.trans hnew
      · exact ⟨id, t, hlive, hs⟩
      · cases hfound.symm.trans hnew
  | entered id i hnew hid hfree =>
    change (∃ id' t', st.hw.created (core st.stub) id _ act (core st.stub) id' = some ⟨t', true⟩ ∧
      _) ↔ _
    simp only [created_apply]
    constructor
    · rintro ⟨id', t', hlive, hs⟩
      split at hlive
      · cases hlive
        exact .inl ⟨hnew, rfl, hserves.mp hs⟩
      · obtain ⟨⟨t, b⟩, hold, heq⟩ := Option.map_eq_some_iff.mp hlive
        injection heq with htrig hactive
        subst htrig
        refine .inr ⟨id', t, b, hold, hs, ?_⟩
        cases b with
        | true => exact .inl rfl
        | false => exact .inr ⟨hnew, hactive⟩
    · rintro (⟨-, rfl, hfits⟩ | ⟨id', t, b, hold, hs, hb⟩)
      · exact ⟨id, _, if_pos rfl, hserves.mpr hfits⟩
      · have hne : id' ≠ id := by
          rintro rfl
          rw [hid] at hold
          cases hold
        refine ⟨id', t, ?_, hs⟩
        rw [if_neg hne, hold, Option.map_some]
        rcases hb with rfl | ⟨-, rfl⟩
        · rfl
        · rw [Bool.or_true]

end armed

/-! ## Entries keep their triggers -/

theorem Serves.mono {t : McdTrig} {k : Int × UInt64} {len len' : Nat} (h : Serves t k len)
    (hle : 2 ≤ k.1 → len' ≤ len) : Serves t k len' where
  type := h.type
  start := h.start
  range hwatch x hx hx' := by
    have := hle hwatch
    exact h.range hwatch x hx (by omega)

/-- Every entry has its own trigger, which is active and covers what it was made for. -/
structure Kept (st : State) : Prop where
  entry : ∀ i, (st.stub.bp i).used = true →
    ∃ t, st.hw (st.home i) (st.stub.bp i).trigId = some ⟨t, true⟩ ∧
      Serves t ((st.stub.bp i).gtype, (st.stub.bp i).addr) (st.len i)
  apart : ∀ i j, (st.stub.bp i).used = true → (st.stub.bp j).used = true →
    st.home i = st.home j → (st.stub.bp i).trigId = (st.stub.bp j).trigId → i = j

theorem kept_start (s : Stub) (hs : ∀ i, (s.bp i).used = false) : Kept (.start s) where
  entry i hi := by
    rw [State.start, hs i] at hi
    cases hi
  apart i _ hi := by
    rw [State.start, hs i] at hi
    cases hi

section kept
variable {polls : Nat} {st st' : State} {p : Packet} {act : Bool} {reply : List UInt8}
  {s' : Stub} {hw' : Hw}

theorem next_old {i : Fin MAX_BP} (hi : (st.stub.bp i).used = true) :
    (st.next p s' hw').home i = st.home i ∧ (st.next p s' hw').len i = st.len i := by
  simp only [State.next, hi, Bool.not_true, Bool.and_false, Bool.false_eq_true,
    ↓reduceIte, and_self]

theorem next_new {i : Fin MAX_BP} (hi : (st.stub.bp i).used = false) (hi' : (s'.bp i).used = true) :
    (st.next p s' hw').home i = core st.stub ∧ (st.next p s' hw').len i = askedLen p.buf := by
  simp only [State.next, hi, hi', Bool.not_false, Bool.and_true, ↓reduceIte, and_self]

/-- A step that makes no entry keeps all if the triggers of the entries stay. -/
theorem kept_of_entries (hkept : Kept st)
    (hold : ∀ i, (s'.bp i).used = true → (st.stub.bp i).used = true ∧ s'.bp i = st.stub.bp i)
    (hlive : ∀ i, (s'.bp i).used = true → ∀ t,
      st.hw (st.home i) (st.stub.bp i).trigId = some ⟨t, true⟩ →
      hw' (st.home i) (st.stub.bp i).trigId = some ⟨t, true⟩) : Kept (st.next p s' hw') where
  entry i hi := by
    obtain ⟨hused, hsame⟩ := hold i hi
    obtain ⟨t, ht, hs⟩ := hkept.entry i hused
    rw [(next_old hused).1, (next_old hused).2]
    change ∃ t, hw' (st.home i) (s'.bp i).trigId = _ ∧ Serves t ((s'.bp i).gtype, (s'.bp i).addr) _
    rw [hsame]
    exact ⟨t, hlive i hi t ht, hs⟩
  apart i j hi hj hhome hid := by
    obtain ⟨hused, hsame⟩ := hold i hi
    obtain ⟨hused', hsame'⟩ := hold j hj
    rw [(next_old hused).1, (next_old hused').1] at hhome
    change (s'.bp i).trigId = (s'.bp j).trigId at hid
    rw [hsame, hsame'] at hid
    exact hkept.apart i j hused hused' hhome hid

/-- A trigger that is created leaves the active ones as they are. -/
theorem created_keeps {hw : Hw} {c c' : Core} {id id' : UInt32} {t t' : McdTrig}
    (hid : hw c id = none) (hlive : hw c' id' = some ⟨t', true⟩) :
    hw.created c id t act c' id' = some ⟨t', true⟩ := by
  by_cases hc : c' = c
  · subst hc
    have hne : id' ≠ id := by
      rintro rfl
      rw [hid] at hlive
      cases hlive
    rw [created_apply, if_neg hne, hlive, Option.map_some, Bool.true_or]
  · cases act <;> simp [Hw.created, Hw.activate, Hw.set, hc, hlive]

/-- An activation leaves the active triggers as they are. -/
theorem activate_keeps {hw : Hw} (c : Core) {c' : Core} {id' : UInt32} {t : McdTrig}
    (hlive : hw c' id' = some ⟨t, true⟩) :
    (if act then hw.activate c else hw) c' id' = some ⟨t, true⟩ := by
  cases act with
  | false => exact hlive
  | true =>
    simp only [↓reduceIte, Hw.activate, hlive, Option.map_some]
    split <;> rfl

/-- The new entry has the new trigger, which no other entry has. -/
theorem kept_entered (hkept : Kept st) {k : Int × UInt64} {t : McdTrig} {id : UInt32}
    {i : Fin MAX_BP} (hid : st.hw (core st.stub) id = none) (hunused : (st.stub.bp i).used = false)
    (hserves : Serves t k (askedLen p.buf)) :
    Kept (st.next p (st.stub.setBp i ⟨k.2, k.1, id, true⟩)
      (st.hw.created (core st.stub) id t true)) := by
  generalize hnext : st.next p (st.stub.setBp i ⟨k.2, k.1, id, true⟩)
    (st.hw.created (core st.stub) id t true) = st'
  have hhw : st'.hw = st.hw.created (core st.stub) id t true := by
    rw [← hnext]
    rfl
  have hbp : ∀ j, st'.stub.bp j = if j = i then ⟨k.2, k.1, id, true⟩ else st.stub.bp j := by
    intro j
    rw [← hnext]
    rfl
  have hat : st'.home i = core st.stub ∧ st'.len i = askedLen p.buf := by
    rw [← hnext]
    exact next_new hunused (by simp [Stub.setBp])
  have hother : ∀ j, (st.stub.bp j).used = true →
      st'.home j = st.home j ∧ st'.len j = st.len j := by
    intro j hj
    rw [← hnext]
    exact next_old hj
  -- an old entry is about a trigger that was live before
  have hold : ∀ j, (st.stub.bp j).used = true →
      ¬ (st.home j = core st.stub ∧ (st.stub.bp j).trigId = id) := by
    rintro j hj ⟨hhome, htrig⟩
    obtain ⟨t', hlive, -⟩ := hkept.entry j hj
    rw [hhome, htrig, hid] at hlive
    cases hlive
  refine ⟨?_, ?_⟩
  · intro j hj
    rw [hbp] at hj ⊢
    rw [hhw]
    split
    · rename_i heq
      rw [heq, hat.1, hat.2, created_apply, if_pos rfl]
      exact ⟨t, rfl, hserves⟩
    · rename_i hne
      rw [if_neg hne] at hj
      obtain ⟨t', hlive, hs⟩ := hkept.entry j hj
      rw [(hother j hj).1, (hother j hj).2]
      exact ⟨t', created_keeps hid hlive, hs⟩
  · intro j j' hj hj' hhome htrig
    rw [hbp] at hj hj' htrig
    rw [hbp] at htrig
    by_cases heq : j = i
    · by_cases heq' : j' = i
      · rw [heq, heq']
      · rw [if_neg heq'] at hj' htrig
        rw [heq, hat.1, (hother j' hj').1] at hhome
        rw [if_pos heq] at htrig
        exact absurd ⟨hhome.symm, htrig.symm⟩ (hold j' hj')
    · rw [if_neg heq] at hj htrig
      by_cases heq' : j' = i
      · rw [heq', hat.1, (hother j hj).1] at hhome
        rw [if_pos heq'] at htrig
        exact absurd ⟨hhome, htrig⟩ (hold j hj)
      · rw [if_neg heq'] at hj' htrig
        rw [(hother j hj).1, (hother j' hj').1] at hhome
        exact hkept.apart j j' hj hj' hhome htrig

theorem kept_inserted (hkept : Kept st) {k : Int × UInt64} {mt : TrigType} {rc : Int}
    (hk : trigRequest p.buf = some k) (ht : trigTypeOf k.1 = some mt)
    (hfresh : findBp st.stub.bp k.2 k.1 = none →
      act = true ∧ (2 ≤ k.1 → askedLen p.buf < 2 ^ 32))
    (hinserted : Inserted act st.stub st.hw k (askedTrig st.stub k mt p.buf) rc s' hw') :
    Kept (st.next p s' hw') := by
  cases hinserted with
  | present i hfound => exact kept_of_entries hkept (fun _ hi => ⟨hi, rfl⟩) fun _ _ _ h => h
  | refused hnew => exact kept_of_entries hkept (fun _ hi => ⟨hi, rfl⟩) fun _ _ _ h => h
  | full id hnew hid =>
    exact kept_of_entries hkept (fun _ hi => ⟨hi, rfl⟩) fun _ _ _ h => created_keeps hid h
  | entered id i hnew hid hfree =>
    obtain ⟨rfl, hfits⟩ := hfresh hnew
    exact kept_entered hkept hid (findFree_some hfree)
      ((serves_asked (s := st.stub) hk ht).mpr hfits)

/-- The trigger that is removed is that of the entry and of no other. -/
theorem kept_removed (hkept : Kept st) {k : Int × UInt64}
    (hcore : ∀ i, findBp st.stub.bp k.2 k.1 = some i → st.home i = core st.stub)
    (hremoved : Removed act st.stub st.hw k s' hw') : Kept (st.next p s' hw') := by
  -- the entries that stay in use
  have hstay : ∀ i j, ((clearBp st.stub i).bp j).used = true →
      j ≠ i ∧ (st.stub.bp j).used = true ∧ (clearBp st.stub i).bp j = st.stub.bp j := by
    intro i j hj
    by_cases heq : j = i
    · simp [clearBp, Stub.setBp, heq] at hj
    · simp [clearBp, Stub.setBp, heq] at hj ⊢
      exact hj
  cases hremoved with
  | absent habsent => exact kept_of_entries hkept (fun _ hi => ⟨hi, rfl⟩) fun _ _ _ h => h
  | refused i hfound =>
    exact kept_of_entries hkept (fun j hj => (hstay i j hj).2) fun _ _ _ h => activate_keeps _ h
  | removed i hfound =>
    refine kept_of_entries hkept (fun j hj => (hstay i j hj).2) fun j hj t hlive => ?_
    obtain ⟨hne, hused, -⟩ := hstay i j hj
    refine activate_keeps _ ?_
    rw [Hw.set, if_neg]
    · exact hlive
    · rintro ⟨hhome, htrig⟩
      rw [← hcore i hfound] at hhome
      exact hne (hkept.apart j i hused (findBp_some hfound).1 hhome htrig)

theorem kept_step (hkept : Kept st) (hp : TrigPacket p) (hstep : Step polls st p act reply st')
    (hcareful : Careful st p act) : Kept st' := by
  by_cases hZ : p.buf.getD 0 0 = 90
  · obtain ⟨s', hw', rfl, ⟨-, rfl, rfl⟩ | ⟨k, mt, rc, hk, ht, -, hinserted⟩⟩ := step_set hZ hstep
    · exact kept_of_entries hkept (fun _ hi => ⟨hi, rfl⟩) fun _ _ _ h => h
    · exact kept_inserted hkept hk ht (hcareful.fresh hZ k hk) hinserted
  · obtain ⟨s', hw', rfl, ⟨hbp, rfl⟩ | ⟨hz, k, hk, hremoved⟩⟩ := step_other hp hZ hstep
    · refine kept_of_entries hkept (fun i hi => ?_) fun _ _ _ h => h
      rw [hbp] at hi ⊢
      exact ⟨hi, rfl⟩
    · exact kept_removed hkept (hcareful.cleared hz k hk) hremoved

/-- A careful insertion that finds an entry finds a trigger that serves. -/
theorem ready_careful (hkept : Kept st) (hZ : p.buf.getD 0 0 = 90)
    (hcareful : Careful st p act) {k : Int × UInt64} (hk : trigRequest p.buf = some k) :
    Ready st p act := by
  refine ⟨k, hk, ?_⟩
  cases hfind : findBp st.stub.bp k.2 k.1 with
  | none => exact .inl ⟨rfl, hcareful.fresh hZ k hk hfind⟩
  | some i =>
    obtain ⟨hhome, hlen⟩ := hcareful.found hZ k hk i hfind
    obtain ⟨hused, haddr, hgtype⟩ := findBp_some hfind
    obtain ⟨t, hlive, hserves⟩ := hkept.entry i hused
    rw [hhome] at hlive
    rw [hgtype, haddr] at hserves
    exact .inr ⟨_, t, true, hlive, hserves.mono hlen, .inl rfl⟩

end kept

theorem reached_kept {polls : Nat} {s : Stub} (hs : ∀ i, (s.bp i).used = false) {st : State}
    (h : Reached Careful polls (.start s) st) : Kept st := by
  induction h with
  | refl => exact kept_start s hs
  | tail _ hstep ih =>
    obtain ⟨p, act, reply, hp, hstep, hcareful⟩ := hstep
    exact kept_step ih hp hstep hcareful

/-- Whatever came before, an insertion that is answered by `OK` is armed as asked exactly
if it was ready to be, and in a session that is careful throughout it is. -/
theorem accepted_armed (polls : Nat) (st : State) (p : Packet) (hp : p.buf.getD 0 0 = 90)
    (act : Bool) (st' : State) (hstep : Step polls st p act (bytes "OK") st') :
    (ArmedAs st'.hw (core st'.stub) p.buf ↔ Ready st p act) ∧
    ∀ s : Stub, (∀ i, (s.bp i).used = false) → Reached Careful polls (.start s) st →
      Careful st p act → ArmedAs st'.hw (core st'.stub) p.buf := by
  refine ⟨armed_iff hp hstep, fun s hs hreach hcareful => ?_⟩
  obtain ⟨_, _, -, ⟨hne, -⟩ | ⟨k, _, _, hk, -⟩⟩ := step_set hp hstep
  · exact absurd rfl hne
  · exact (armed_iff hp hstep).mpr (ready_careful (reached_kept hs hreach) hp hcareful hk)

/-! ## A longer watchpoint at the same address -/

/-- A library that creates every trigger under the id 1, and activates it. -/
def oneTrig (x : Hw × List (List UInt8)) :
    (o : StubOp) → StubSig.Res o × (Hw × List (List UInt8))
  | .createTrig c t =>
    if (x.1 c 1).isSome then ((none : Option UInt32), x)
    else (some (1 : UInt32), x.1.set c 1 (some ⟨t, false⟩), x.2)
  | .removeTrig c id => (true, x.1.set c id none, x.2)
  | .activateTrigSet c => (true, x.1.activate c, x.2)
  | .putPacket data => ((0 : Int), x.1, x.2 ++ [data])
  | .bus (.read _ _) => ((none : Option UInt32), x)
  | .bus (.write _ _ _) => (false, x)
  | .getPacket buf => (((-1 : Int), buf), x)
  | .sockHasByte => (false, x)
  | .readByte => ((none : Option UInt8), x)
  | .qryState _ => ((none : Option McdCoreState), x)
  | .stop _ => (false, x)
  | .run _ => (false, x)
  | .step _ => (false, x)
  | .malloc _ => ((fun _ => 0 : Nat → UInt8), x)

theorem oneTrig_arms (x : Hw × List (List UInt8)) (o : StubOp) :
    mcdArms true x o (oneTrig x o).1 (oneTrig x o).2 := by
  cases o with
  | createTrig c t =>
    cases h : x.1 c 1 with
    | some _ =>
      simp only [oneTrig, h, Option.isSome_some, ↓reduceIte]
      exact .inl ⟨rfl, rfl⟩
    | none =>
      simp only [oneTrig, h, Option.isSome_none, Bool.false_eq_true, ↓reduceIte]
      exact .inr ⟨1, rfl, h, rfl⟩
  | removeTrig c id => exact .inl ⟨rfl, rfl⟩
  | activateTrigSet c => exact ⟨rfl, rfl⟩
  | bus o => cases o <;> rfl
  | _ => rfl

theorem step_oneTrig {st : State} {p : Packet} {reply : List UInt8} {s' : Stub} {hw' : Hw}
    (h : (dispatchPacket 0 st.stub p).exec oneTrig (st.hw, []) = (.ok (some s'), (hw', [reply]))) :
    Step 0 st p true reply (st.next p s' hw') := by
  have hr := runs_exec (mcdArms true) oneTrig oneTrig_arms (dispatchPacket 0 st.stub p) (st.hw, [])
  rw [h] at hr
  exact .run hr

def watchPacket : Packet := ⟨bytes "Z2,1000,4", []⟩
def longerPacket : Packet := ⟨bytes "Z2,1000,8", []⟩

/-- With a write watchpoint on the four bytes from `0x1000` on. -/
def withWatch : Stub := twoCores.setBp firstBp ⟨0x1000, 2, 1, true⟩

def watched : Hw := Hw.created (fun _ _ => none) 0 1 (trigFor twoCores 0x1000 .write 3) true

def watching : State := (State.start twoCores).next watchPacket withWatch watched

theorem step_watching : Step 0 (.start twoCores) watchPacket true (bytes "OK") watching :=
  step_oneTrig rfl

theorem accepted_armed_one : ArmedAs watching.hw (core watching.stub) watchPacket.buf := by
  apply (accepted_armed 0 (.start twoCores) watchPacket (by decide) true watching step_watching).2
    twoCores (fun _ => rfl) .refl
  refine ⟨fun h => absurd h (by decide), fun _ k hk i hi => ?_, fun _ _ _ _ => ⟨rfl, fun _ => ?_⟩⟩
  · obtain rfl : k = (2, 0x1000) := (Option.some.inj hk).symm
    cases hi
  · decide

/-- The second watchpoint asks for eight bytes and is answered by `OK`, and the trigger
still covers four. -/
theorem longer_watchpoint :
    ¬ ∀ st p act st', Reached (fun _ _ _ => True) 0 (.start twoCores) st →
      p.buf.getD 0 0 = 90 → Step 0 st p act (bytes "OK") st' →
      ArmedAs st'.hw (core st'.stub) p.buf := by
  intro h
  have hreach : Reached (fun _ _ _ => True) 0 (.start twoCores) watching :=
    .single ⟨watchPacket, true, _, .inr (.inl (by decide)), step_watching, trivial⟩
  have hlonger : Step 0 watching longerPacket true (bytes "OK")
      (watching.next longerPacket withWatch watched) := step_oneTrig rfl
  obtain ⟨k, hk, id, t, hlive, hserves⟩ := h _ longerPacket _ _ hreach (by decide) hlonger
  obtain rfl : k = (2, 0x1000) := (Option.some.inj hk).symm
  change watched 0 id = some ⟨t, true⟩ at hlive
  rw [watched, created_apply] at hlive
  split at hlive
  · cases hlive
    exact absurd (hserves.range (by decide) 0x1007 (by decide) (by decide)).2 (by decide)
  · cases hlive

end OpenTricore.Arming
