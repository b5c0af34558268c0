import OpenTricore.Triggers

/-! Insertions that are answered by `E01`. The trigger is created before a table
entry is looked for, so with a full table it stays behind, live and unlisted. It is
shown when a failed insertion leaves a trace, and that in sessions where this does
not happen every live trigger is listed and can be removed. -/

namespace OpenTricore.Triggers
open OpenTricore Lib Lib.Prog

/-! ## Insertions that fail -/

/-- A failed insertion changes neither the table nor the triggers of the cores. -/
def NoTrace (polls : Nat) (st : State) (p : Packet) : Prop :=
  ∀ st', Step polls st p (bytes "E01") st' →
    st'.hw.live = st.hw.live ∧ st'.stub.bp = st.stub.bp

/-- An entry is free, or the packet asks for nothing that is not in the table, or the
core cannot take another trigger. -/
def Room (st : State) (p : Packet) : Prop :=
  findFree st.stub.bp ≠ none ∨
    (∀ k, trigRequest p.buf = some k → findBp st.stub.bp k.2 k.1 ≠ none) ∨
    ∀ id, st.hw.live (core st.stub) id = true

section
variable {polls : Nat} {st st' : State} {p : Packet} {reply : List UInt8}

theorem step_insert (hp : p.buf.getD 0 0 = 90) (hstep : Step polls st p reply st') :
    ∃ s' hw', st' = st.next p s' hw' ∧ match trigRequest p.buf with
      | none => s' = st.stub ∧ hw' = st.hw
      | some k => ∃ rc, reply = okOr rc ∧ Inserted st.stub st.hw k rc s' hw' := by
  cases hstep with
  | @run s' hw' hr =>
    obtain ⟨reply', _, hs, hout, heffect⟩ :=
      (hr.sound _ (dispatch_insert polls st.stub st.hw [] p hp)).1 _ rfl
    obtain rfl := Option.some.inj hs
    obtain rfl : reply = reply' := by simpa using hout
    exact ⟨s', hw', rfl, heffect⟩

theorem Room.not_leaked (h : Room st p) {k : Int × UInt64} (hk : trigRequest p.buf = some k)
    (hnew : findBp st.stub.bp k.2 k.1 = none) {id : UInt32}
    (hid : st.hw.live (core st.stub) id = false) (hfull : findFree st.stub.bp = none) : False := by
  rcases h with hfree | hlisted | hcapacity
  · exact hfree hfull
  · exact hlisted k hk hnew
  · rw [hcapacity id] at hid
    cases hid

theorem noTrace_of_room (hp : p.buf.getD 0 0 = 90) (h : Room st p) : NoTrace polls st p := by
  intro st' hstep
  obtain ⟨s', hw', rfl, heffect⟩ := step_insert hp hstep
  cases hk : trigRequest p.buf with
  | none =>
    rw [hk] at heffect
    obtain ⟨rfl, rfl⟩ := heffect
    exact ⟨rfl, rfl⟩
  | some k =>
    rw [hk] at heffect
    obtain ⟨rc, hreply, hinserted⟩ := heffect
    cases hinserted with
    | present i h => exact ⟨rfl, rfl⟩
    | refused hnew => exact ⟨rfl, rfl⟩
    | leaked id hnew hid hfull => exact (h.not_leaked hk hnew hid hfull).elim
    | entered id i hnew hid hfree => exact absurd hreply (by decide)

/-- The library creates a trigger that is not in the table. -/
theorem can_insert (polls : Nat) (hp : p.buf.getD 0 0 = 90) {s : Stub} {hw : TrigHw}
    {k : Int × UInt64}
    (hk : trigRequest p.buf = some k) (hnew : findBp s.bp k.2 k.1 = none) {id : UInt32}
    (hid : hw.live (core s) id = false) :
    (dispatchPacket polls s p).Can mcdTrigs (fun r y =>
      r = some (match findFree s.bp with
        | some i => s.setBp i ⟨k.2, k.1, id, true⟩
        | none => s) ∧
      y = (hw.set (core s) id true,
        [match findFree s.bp with | some _ => bytes "OK" | none => bytes "E01"])) (hw, []) := by
  obtain ⟨t, _, ht, -, rfl⟩ := trigRequest_some hk
  have hcreate : ∀ m, mcdTrigs (hw, []) (.createTrig s.active.target.core m)
    (some id : Option UInt32)
      (hw.set (core s) id true, []) := fun m => .inr ⟨id, rfl, hid, rfl⟩
  dsimp only at hnew
  simp only [dispatch_Z_some polls s hp hk, trigSet, ht, hnew]
  apply can_ask (hcreate _)
  apply can_ask (r := true) rfl
  cases hfree : findFree s.bp with
  | some i => exact can_ask (r := (0 : Int)) rfl (can_ret ⟨rfl, rfl⟩)
  | none => exact can_ask (r := (0 : Int)) rfl (can_ret ⟨rfl, rfl⟩)

theorem room_of_noTrace (hp : p.buf.getD 0 0 = 90) (h : NoTrace polls st p) : Room st p := by
  by_contra hno
  rw [Room, not_or, not_or, Decidable.not_not] at hno
  obtain ⟨hfull, hasked, hcapacity⟩ := hno
  obtain ⟨k, hk⟩ := not_forall.mp hasked
  obtain ⟨hk, hnew⟩ := Classical.not_imp.mp hk
  obtain ⟨id, hid⟩ := not_forall.mp hcapacity
  have hid := Bool.eq_false_iff.mpr hid
  obtain ⟨r, y, hrun, rfl, rfl⟩ := can_insert polls hp hk (Decidable.not_not.mp hnew) hid
  rw [hfull] at hrun
  have hlive := (h _ (.run hrun)).1
  have hleft : (st.hw.set (core st.stub) id true).live (core st.stub) id = true := if_pos ⟨rfl, rfl⟩
  rw [show (st.hw.set (core st.stub) id true).live = st.hw.live from hlive, hid] at hleft
  cases hleft

end

/-! ## Sessions without a failed insertion that leaves a trace -/

/-- The step does not go wrong: an insertion has room, an entry is cleared with the
core selected that it was made on, and no removal is refused. -/
structure Careful (st : State) (p : Packet) (st' : State) : Prop where
  room : p.buf.getD 0 0 = 90 → Room st p
  home : p.buf.getD 0 0 = 122 → ∀ k, trigRequest p.buf = some k →
    ∀ i, findBp st.stub.bp k.2 k.1 = some i → st.home i = core st.stub
  removal : st'.hw.refused = false

/-- The entry of a live trigger. -/
def Listed (st : State) (c : Core) (id : UInt32) : Prop :=
  ∃ i, (st.stub.bp i).used = true ∧ st.home i = c ∧ (st.stub.bp i).trigId = id

/-- An `H` packet and a `z` packet can remove the trigger. -/
def Removable (polls : Nat) (st : State) (c : Core) (id : UInt32) : Prop :=
  ∃ h z st₁ st₂, h.buf.getD 0 0 = 72 ∧ z.buf.getD 0 0 = 122 ∧ Step polls st h (bytes "OK") st₁ ∧
    Step polls st₁ z (bytes "OK") st₂ ∧ st₂.hw.live c id = false

/-- What is known of a live trigger: a `z` packet can name its kind and address, and
its core belongs to a thread. -/
def Known (st : State) : Prop :=
  ∀ c id k, st.tag c id = some k →
    (∃ z : Packet, z.buf.getD 0 0 = 122 ∧ trigRequest z.buf = some k) ∧
      ∃ n, n < st.stub.ncore ∧ (st.stub.all n).target.core = c

section
variable {polls : Nat} {st st' : State} {p : Packet} {reply : List UInt8}

theorem TrigHw.live_of_removed {hw : TrigHw} {c c' : Core} {id id' : UInt32}
    (h : (hw.set c id false).live c' id' = true) : hw.live c' id' = true := by
  change (if c' = c ∧ id' = id then false else hw.live c' id') = true at h
  split at h
  · cases h
  · exact h

theorem careful_safe (hp : TrigPacket p) (hstep : Step polls st p reply st')
    (h : Careful st p st') : Safe st p st' := by
  refine ⟨?_, h.home, h.removal⟩
  intro hfull c id hlive
  obtain ⟨s', hw', rfl, ⟨-, rfl, -⟩ | ⟨hZ, -⟩ | ⟨-, k, -, hremoved⟩⟩ := step_cases hp hstep
  · exact hlive
  · obtain ⟨s'', hw'', hsame, heffect⟩ := step_insert hZ hstep
    rw [hsame] at hlive
    cases hk : trigRequest p.buf with
    | none =>
      rw [hk] at heffect
      obtain ⟨-, rfl⟩ := heffect
      exact hlive
    | some k =>
      rw [hk] at heffect
      obtain ⟨rc, -, hinserted⟩ := heffect
      cases hinserted with
      | present i hfound => exact hlive
      | refused hnew => exact hlive
      | leaked id hnew hid _ => exact ((h.room hZ).not_leaked hk hnew hid hfull).elim
      | entered id i hnew hid hfree =>
        rw [hfull] at hfree
        cases hfree
  · cases hremoved with
    | absent habsent => exact hlive
    | removed i hfound => exact TrigHw.live_of_removed hlive
    | refused i hfound => exact hlive

/-! ### What a session keeps -/

theorem step_frame (hp : TrigPacket p) (hstep : Step polls st p reply st') :
    st'.stub.all = st.stub.all ∧ st'.stub.ncore = st.stub.ncore := by
  obtain ⟨s', hw', rfl, ⟨⟨hall, hncore, -⟩, -⟩ | ⟨-, k, -, hadded⟩ | ⟨-, k, -, hremoved⟩⟩ :=
    step_cases hp hstep
  · exact ⟨hall, hncore⟩
  · cases hadded <;> exact ⟨rfl, rfl⟩
  · cases hremoved <;> exact ⟨rfl, rfl⟩

/-- The `z` packet with the arguments of a `Z` packet. -/
theorem clearing_packet (hZ : p.buf.getD 0 0 = 90) :
    ∃ z : Packet, z.buf.getD 0 0 = 122 ∧ trigRequest z.buf = trigRequest p.buf := by
  obtain ⟨payload, stale⟩ := p
  cases payload with
  | nil => exact absurd hZ (by simp [Packet.buf])
  | cons b rest =>
    obtain rfl : b = 90 := hZ
    exact ⟨⟨122 :: rest, stale⟩, rfl, rfl⟩

theorem known_start (s : Stub) : Known (.start s) := fun _ _ _ h => by cases h

theorem known_step (hagree : Agree st) (h : Known st) (hp : TrigPacket p)
    (hstep : Step polls st p reply st') : Known st' := by
  obtain ⟨hall, hncore⟩ := step_frame hp hstep
  intro c id k htag
  rw [hall, hncore]
  obtain ⟨s', hw', rfl, ⟨-, rfl, -⟩ | ⟨hZ, k', hk, hadded⟩ | ⟨-, k', -, hremoved⟩⟩ :=
    step_cases hp hstep
  · rw [next_same_tag hagree rfl] at htag
    exact h c id k htag
  · have hnew : ∀ id', st.hw.live (core st.stub) id' = false →
        (st.next p s' (st.hw.set (core st.stub) id' true)).tag c id = some k →
        (∃ z : Packet, z.buf.getD 0 0 = 122 ∧ trigRequest z.buf = some k) ∧
          ∃ n, n < st.stub.ncore ∧ (st.stub.all n).target.core = c := by
      intro id' hid htag
      rw [next_tag_created hagree hk hid] at htag
      split at htag
      · rename_i heq
        rw [← htag, ← hk]
        refine ⟨clearing_packet hZ, st.stub.cur, st.stub.cur_lt, ?_⟩
        rw [heq.1, core, st.stub.active_eq]
      · exact h c id k htag
    cases hadded with
    | kept =>
      rw [next_same_tag hagree rfl] at htag
      exact h c id k htag
    | leaked id' hid hfull => exact hnew id' hid htag
    | entered id' i hfound hid hfree => exact hnew id' hid htag
  · cases hremoved with
    | absent habsent =>
      rw [next_same_tag hagree rfl] at htag
      exact h c id k htag
    | removed i hfound =>
      rw [next_tag_removed hagree] at htag
      split at htag
      · cases htag
      · exact h c id k htag
    | refused i hfound =>
      have hsame : (st.next p (clearBp st.stub i) { st.hw with
          refused := st.hw.refused || st.hw.live (core st.stub) (st.stub.bp i).trigId }).tag =
          st.tag := next_same_tag hagree rfl
      rw [hsame] at htag
      exact h c id k htag

theorem reached_known {s : Stub} (hs : ∀ i, (s.bp i).used = false)
    (h : Reached Careful polls (.start s) st) : Agree st ∧ Known st := by
  induction h with
  | refl => exact ⟨agree_start s hs, known_start s⟩
  | tail _ hstep ih =>
    obtain ⟨p, reply, hp, hstep, hcareful⟩ := hstep
    exact ⟨agree_step ih.1 hp hstep (careful_safe hp hstep hcareful),
      known_step ih.1 ih.2 hp hstep⟩

/-! ### Removing a live trigger -/

/-- `Hg1` to `Hg8`. -/
def selectPacket (n : Nat) : Packet := ⟨[72, 103, UInt8.ofNat (49 + n)], []⟩

theorem strtol_selectPacket {n : Nat} (hn : n < NCORE) :
    strtol ((selectPacket n).buf.drop 2) = n + 1 := by
  have h : ∀ n : Fin 8, strtol ((selectPacket n).buf.drop 2) = (n : Nat) + 1 := by decide
  exact h ⟨n, hn⟩

theorem threadArg_selectPacket {s : Stub} {n : Nat} (hn : n < s.ncore) :
    (threadArg s ((selectPacket n).buf.drop 2)).active = s.all n := by
  have hle := s.ncore_le
  have h8 : NCORE = 8 := rfl
  rw [threadArg, strtol_selectPacket (by omega), if_pos (by omega),
    Int.bmod_eq_of_le (by omega) (by omega), selectThread, dif_neg (by omega)]
  dsimp only
  congr 1
  omega

theorem step_select (polls : Nat) (st : State) {n : Nat} (hn : n < st.stub.ncore) :
    ∃ st₁, Step polls st (selectPacket n) (bytes "OK") st₁ ∧ st₁.hw = st.hw ∧
      st₁.stub.bp = st.stub.bp ∧ core st₁.stub = (st.stub.all n).target.core := by
  have hrun : (dispatchPacket polls st.stub (selectPacket n)).Can mcdTrigs (fun r y =>
      r = some (threadArg st.stub ((selectPacket n).buf.drop 2)) ∧ y = (st.hw, [bytes "OK"]))
      (st.hw, []) := by
    rw [dispatchPacket, dispatch_H polls st.stub _ _ rfl, handle_H_eq]
    exact can_ask (r := (0 : Int)) rfl (can_ret ⟨rfl, rfl⟩)
  obtain ⟨r, y, hrun, rfl, rfl⟩ := hrun
  refine ⟨_, .run hrun, rfl, (threadArg_frame _ _).2.2, ?_⟩
  rw [core]
  exact congrArg (fun m => m.target.core) (threadArg_selectPacket hn)

/-- The library removes a live trigger that a `z` packet names. -/
theorem step_remove (polls : Nat) (st : State) {z : Packet} (hz : z.buf.getD 0 0 = 122)
    {k : Int × UInt64} (hk : trigRequest z.buf = some k) {i : Fin MAX_BP}
    (hfound : findBp st.stub.bp k.2 k.1 = some i)
    (hlive : st.hw.live (core st.stub) (st.stub.bp i).trigId = true) :
    ∃ st₁, Step polls st z (bytes "OK") st₁ ∧
      st₁.hw.live (core st.stub) (st.stub.bp i).trigId = false := by
  have hrun : (dispatchPacket polls st.stub z).Can mcdTrigs (fun r y =>
      r = some (clearBp st.stub i) ∧
        y = (st.hw.set (core st.stub) (st.stub.bp i).trigId false, [bytes "OK"])) (st.hw, []) := by
    have hremove : mcdTrigs (st.hw, [])
        (.removeTrig st.stub.active.target.core (st.stub.bp i).trigId) true
        (st.hw.set (core st.stub) (st.stub.bp i).trigId false, []) := .inl ⟨rfl, hlive, rfl⟩
    simp only [dispatch_z_some polls st.stub hz hk, trigClear, hfound]
    apply can_ask hremove
    apply can_ask (r := true) rfl
    exact can_ask (r := (0 : Int)) rfl (can_ret ⟨rfl, rfl⟩)
  obtain ⟨r, y, hrun, rfl, rfl⟩ := hrun
  exact ⟨_, .run hrun, if_pos ⟨rfl, rfl⟩⟩

theorem live_removable (hagree : Agree st) (hknown : Known st) {c : Core} {id : UInt32}
    (hlive : st.hw.live c id = true) : Listed st c id ∧ Removable polls st c id := by
  have htag := hagree.live c id
  rw [hlive] at htag
  obtain ⟨k, hk⟩ := Option.isSome_iff_exists.mp htag.symm
  obtain ⟨i, hi, hhome, hid, hki⟩ := hagree.listed c id k hk
  refine ⟨⟨i, hi, hhome, hid⟩, ?_⟩
  obtain ⟨⟨z, hz, hrequest⟩, n, hn, hcore⟩ := hknown c id k hk
  obtain ⟨st₁, hselect, hhw, hbp, hcore₁⟩ := step_select polls st hn
  have hfound : findBp st₁.stub.bp k.2 k.1 = some i := by
    rw [hbp, ← hki]
    cases hj : findBp st.stub.bp (st.stub.bp i).addr (st.stub.bp i).gtype with
    | none => exact absurd ⟨rfl, rfl⟩ (findBp_none hj i hi)
    | some j =>
      obtain ⟨hused, haddr, hgtype⟩ := findBp_some hj
      rw [hagree.once j i hused hi hgtype haddr]
  have hc : core st₁.stub = c := hcore₁.trans hcore
  have hlive₁ : st₁.hw.live (core st₁.stub) (st₁.stub.bp i).trigId = true := by
    rw [hc, hbp, hid, hhw]
    exact hlive
  obtain ⟨st₂, hremove, hdead⟩ := step_remove polls st₁ hz hrequest hfound hlive₁
  rw [hc, hbp, hid] at hdead
  exact ⟨selectPacket n, z, st₁, st₂, rfl, hz, hselect, hremove, hdead⟩

end

/-- In every state of every session a failed insertion leaves no trace exactly if it has
room, and if all insertions have it and the clearing packets do not go wrong, every
live trigger is listed and can be removed. -/
theorem insertion_atomic (polls : Nat) (s : Stub) (hs : ∀ i, (s.bp i).used = false) :
    (∀ st, Reached (fun _ _ _ => True) polls (.start s) st → ∀ p : Packet, p.buf.getD 0 0 = 90 →
      (NoTrace polls st p ↔ Room st p)) ∧
    ∀ st, Reached Careful polls (.start s) st → ∀ c id, st.hw.live c id = true →
      Listed st c id ∧ Removable polls st c id := by
  constructor
  · intro st _ p hp
    exact ⟨room_of_noTrace hp, noTrace_of_room hp⟩
  · intro st hreach c id hlive
    obtain ⟨hagree, hknown⟩ := reached_known hs hreach
    exact live_removable hagree hknown hlive

/-- After the first breakpoint of `twoCores`. -/
theorem insertion_atomic_one :
    (NoTrace 0 (.start twoCores) setPacket ↔ Room (.start twoCores) setPacket) ∧
      Listed inserted 0 1 ∧ Removable 0 inserted 0 1 := by
  obtain ⟨hfailed, hlive⟩ := insertion_atomic 0 twoCores (fun _ => rfl)
  have hcareful : Careful (.start twoCores) setPacket inserted :=
    ⟨fun _ => .inl (by decide), fun h => absurd h (by decide), rfl⟩
  exact ⟨hfailed _ .refl setPacket (by decide),
    hlive inserted (.single ⟨setPacket, _, .inr (.inl (by decide)), step_inserted, hcareful⟩) 0 1
      rfl⟩

/-! ## A full table -/

/-- `Z0,0` to `Z0,f`. -/
def nthPacket (n : Nat) : Packet := ⟨bytes "Z0," ++ [hexd n], []⟩

def slot (n : Nat) : Fin MAX_BP := ⟨n % MAX_BP, Nat.mod_lt _ (by decide)⟩

/-- The state after `n` of them, the `n`-th trigger under the id `n`. -/
def filled : Nat → State
  | 0 => .start twoCores
  | n + 1 => (filled n).next (nthPacket n)
      ((filled n).stub.setBp (slot n) ⟨UInt64.ofNat n, 0, UInt32.ofNat n, true⟩)
      ((filled n).hw.set 0 (UInt32.ofNat n) true)

theorem core_filled (n : Nat) : core (filled n).stub = 0 := by
  induction n with
  | zero => rfl
  | succ n ih => exact ih

/-- The table after `n` insertions. -/
theorem filled_bp (n : Nat) (hn : n ≤ MAX_BP) (i : Fin MAX_BP) :
    (filled n).stub.bp i =
      if i.val < n then ⟨UInt64.ofNat i, 0, UInt32.ofNat i, true⟩ else ⟨0, 0, 0, false⟩ := by
  induction n with
  | zero => rfl
  | succ n ih =>
    have hval : (slot n).val = n := Nat.mod_eq_of_lt hn
    change (if i = slot n then (⟨UInt64.ofNat n, 0, UInt32.ofNat n, true⟩ : BpEntry)
      else (filled n).stub.bp i) = _
    rw [ih (by omega)]
    by_cases heq : i = slot n
    · rw [if_pos heq, heq, hval, if_pos (Nat.lt_succ_self n)]
    · have hne : i.val ≠ n := fun h => heq (Fin.ext (h.trans hval.symm))
      rw [if_neg heq]
      congr 1
      simp only [eq_iff_iff]
      omega

theorem filled_live (n : Nat) (id : UInt32) (h : n ≤ id.toNat) :
    (filled n).hw.live 0 id = false := by
  induction n with
  | zero => rfl
  | succ n ih =>
    have hne : ¬ ((0 : Core) = 0 ∧ id = UInt32.ofNat n) := by
      rintro ⟨-, rfl⟩
      rw [UInt32.toNat_ofNat'] at h
      have := Nat.mod_le n (2 ^ 32)
      omega
    exact (if_neg hne).trans (ih (by omega))

/-- The `n`-th packet finds its entry free, and nothing of its kind and address. -/
theorem filled_lookup {n : Nat} (hn : n < MAX_BP) :
    findFree (filled n).stub.bp = some (slot n) ∧
      findBp (filled n).stub.bp (UInt64.ofNat n) 0 = none ∧
      trigRequest (nthPacket n).buf = some (0, UInt64.ofNat n) ∧
      (nthPacket n).buf.getD 0 0 = 90 := by
  have hbp : (filled n).stub.bp = fun i : Fin MAX_BP =>
      if i.val < n then ⟨UInt64.ofNat i, 0, UInt32.ofNat i, true⟩ else ⟨0, 0, 0, false⟩ :=
    funext (filled_bp n (Nat.le_of_lt hn))
  have hall : ∀ n : Fin 16, findFree (fun i : Fin MAX_BP => if i.val < n.val
        then ⟨UInt64.ofNat i, 0, UInt32.ofNat i, true⟩ else ⟨0, 0, 0, false⟩) = some (slot n) ∧
      findBp (fun i : Fin MAX_BP => if i.val < n.val
        then ⟨UInt64.ofNat i, 0, UInt32.ofNat i, true⟩ else ⟨0, 0, 0, false⟩)
        (UInt64.ofNat n) 0 = none ∧
      trigRequest (nthPacket n).buf = some (0, UInt64.ofNat n) ∧
      (nthPacket n).buf.getD 0 0 = 90 := by
    decide +kernel
  rw [hbp]
  exact hall ⟨n, hn⟩

theorem reached_filled (n : Nat) (hn : n ≤ MAX_BP) :
    Reached (fun _ _ _ => True) 0 (.start twoCores) (filled n) := by
  induction n with
  | zero => exact .refl
  | succ n ih =>
    obtain ⟨hfree, hnew, hrequest, hZ⟩ := filled_lookup hn
    have hid := filled_live n (UInt32.ofNat n) (by
      rw [UInt32.toNat_ofNat']
      exact Nat.le_of_eq (Nat.mod_eq_of_lt (Nat.lt_of_lt_of_le hn (by decide))).symm)
    have hrun := can_insert 0 hZ hrequest hnew ((core_filled n).symm ▸ hid)
    rw [hfree, core_filled] at hrun
    obtain ⟨r, y, hrun, rfl, rfl⟩ := hrun
    exact (ih (by omega)).tail ⟨nthPacket n, _, .inr (.inl hZ), .run hrun, trivial⟩

/-- The 17th breakpoint is answered by `E01` and left behind. -/
theorem failed_insertion_leaks :
    ¬ ∀ st p, Reached (fun _ _ _ => True) 0 (.start twoCores) st → p.buf.getD 0 0 = 90 →
      NoTrace 0 st p := by
  intro h
  have hroom := room_of_noTrace (by decide)
    (h (filled MAX_BP) ⟨bytes "Z0,10", []⟩ (reached_filled MAX_BP (Nat.le_refl _)) (by decide))
  have hbp : (filled MAX_BP).stub.bp = fun i : Fin MAX_BP =>
      ⟨UInt64.ofNat i, 0, UInt32.ofNat i, true⟩ := by
    funext i
    rw [filled_bp MAX_BP (Nat.le_refl _), if_pos i.isLt]
  rcases hroom with hfree | hasked | hcapacity
  · rw [hbp] at hfree
    exact hfree (by decide)
  · have hlisted := hasked (0, 0x10) (by decide)
    rw [hbp] at hlisted
    exact hlisted (by decide)
  · have hlive := hcapacity 16
    rw [core_filled, filled_live MAX_BP 16 (by decide)] at hlive
    cases hlive

end OpenTricore.Triggers
