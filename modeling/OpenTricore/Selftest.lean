import OpenTricore.LoadRun

/-! `bsp/tc4d7/selftest.c`, and what the four lines that `tc-load run` prints of it say. -/

namespace OpenTricore.Selftest
open Lib Lib.Prog Relation LoadRun

/-! ## The program on the core -/

def P03_DRVCFG9 : UInt32 := 0xF003AF94
def P03_OMR : UInt32 := 0xF003AC3C

/-- `_start` up to the loop, with the first value of `c`. -/
def start : CoreProg := do
  let seed ← DataFlash.load 0x70000008
  DataFlash.store 0x70000004 (seed * 7 + 3)
  DataFlash.store 0x7000000C 0xC0DECAFE
  DataFlash.store P03_DRVCFG9 1
  DataFlash.store P03_OMR (DataFlash.bit 25)
  return 0

/-- A round of the loop. -/
def beat (c : UInt32) : CoreProg := do
  DataFlash.store 0x70000000 (c + 1)
  return c + 1

/-! ## The places of the program -/

/-- Where the core is: before the named access, or between two rounds. -/
inductive Place
  | start
  | answer (seed : UInt32)
  | mark
  | drive
  | light
  | top (n : Nat)
  | beat (n : Nat)

namespace Place

def code : Place → CoreProg
  | .start => Selftest.start
  | .answer seed => do
    DataFlash.store 0x70000004 (seed * 7 + 3)
    DataFlash.store 0x7000000C 0xC0DECAFE
    DataFlash.store P03_DRVCFG9 1
    DataFlash.store P03_OMR (DataFlash.bit 25)
    return 0
  | .mark => do
    DataFlash.store 0x7000000C 0xC0DECAFE
    DataFlash.store P03_DRVCFG9 1
    DataFlash.store P03_OMR (DataFlash.bit 25)
    return 0
  | .drive => do
    DataFlash.store P03_DRVCFG9 1
    DataFlash.store P03_OMR (DataFlash.bit 25)
    return 0
  | .light => do
    DataFlash.store P03_OMR (DataFlash.bit 25)
    return 0
  | .top n => return UInt32.ofNat n
  | .beat n => Selftest.beat (UInt32.ofNat n)

/-- The rounds that are done. -/
def rounds : Place → Nat
  | .top n | .beat n => n
  | _ => 0

/-- The response has been given. -/
def answered : Place → Bool
  | .start | .answer _ => false
  | _ => true

/-- The marker has been set. -/
def marked : Place → Bool
  | .start | .answer _ | .mark => false
  | _ => true

end Place

/-- The program at this address. -/
def selftest (load : UInt64) (image : List UInt8) : Firmware := ⟨load, image, start, beat⟩

/-- What the core does next. -/
inductive Goes (m : Mem) : Place → Mem → Place → Prop
  | seed : Goes m .start m (.answer (loadWord m 0x70000008))
  | answer (seed : UInt32) : Goes m (.answer seed) (storeWord m 0x70000004 (seed * 7 + 3)) .mark
  | mark : Goes m .mark (storeWord m 0x7000000C 0xC0DECAFE) .drive
  | drive : Goes m .drive (storeWord m P03_DRVCFG9.toNat 1) .light
  | light : Goes m .light (storeWord m P03_OMR.toNat (DataFlash.bit 25)) (.top 0)
  | again (n : Nat) : Goes m (.top n) m (.beat n)
  | beat (n : Nat) : Goes m (.beat n) (storeWord m 0x70000000 (UInt32.ofNat (n + 1))) (.top (n + 1))

theorem serves_goes {m m' : Mem} {p : Place} {c : CoreProg}
    (h : Serves ram beat (m, p.code) (m', c)) : ∃ p', c = p'.code ∧ Goes m p m' p' := by
  cases p with
  | start =>
    cases h with
    | ask ho =>
      obtain ⟨rfl, rfl⟩ := ho
      exact ⟨_, rfl, .seed⟩
  | answer seed =>
    cases h with
    | ask ho =>
      cases ho
      exact ⟨_, rfl, .answer seed⟩
  | mark =>
    cases h with
    | ask ho =>
      cases ho
      exact ⟨_, rfl, .mark⟩
  | drive =>
    cases h with
    | ask ho =>
      cases ho
      exact ⟨_, rfl, .drive⟩
  | light =>
    cases h with
    | ask ho =>
      cases ho
      exact ⟨.top 0, rfl, .light⟩
  | top n =>
    cases h with
    | again => exact ⟨.beat n, rfl, .again n⟩
  | beat n =>
    have hnext : UInt32.ofNat n + 1 = UInt32.ofNat (n + 1) := (UInt32.ofNat_add n 1).symm
    cases h with
    | ask ho =>
      cases ho
      rw [hnext]
      exact ⟨.top (n + 1), rfl, .beat n⟩

def RESPONSE : UInt32 := SEED * 7 + 3
def MARKER : UInt32 := 0xC0DECAFE

/-- The words of the report, as the program has left them. -/
structure Told (m : Mem) (p : Place) : Prop where
  seed : loadWord m 0x70000008 = SEED
  fits : ∀ v, p = .answer v → v = SEED
  heartbeat : loadWord m 0x70000000 = UInt32.ofNat p.rounds
  result : loadWord m 0x70000004 = if p.answered then RESPONSE else 0
  marker : loadWord m 0x7000000C = if p.marked then MARKER else 0

/-- A store that is for none of the words. -/
theorem Told.elsewhere {m : Mem} {p p' : Place} (h : Told m p) {a : Nat} (v : UInt32)
    (ha : 0x70000010 ≤ a) (hanswer : ∀ v, p' ≠ .answer v) (hrounds : p'.rounds = p.rounds)
    (hanswered : p'.answered = p.answered) (hmarked : p'.marked = p.marked) :
    Told (storeWord m a v) p' := by
  refine ⟨?_, fun v hv => absurd hv (hanswer v), ?_, ?_, ?_⟩
  · rw [loadWord_storeWord_of_disjoint _ _ (by omega), h.seed]
  · rw [loadWord_storeWord_of_disjoint _ _ (by omega), h.heartbeat, hrounds]
  · rw [loadWord_storeWord_of_disjoint _ _ (by omega), h.result, hanswered]
  · rw [loadWord_storeWord_of_disjoint _ _ (by omega), h.marker, hmarked]

theorem Told.goes {m m' : Mem} {p p' : Place} (h : Told m p) (hgoes : Goes m p m' p') :
    Told m' p' ∧ p.rounds ≤ p'.rounds := by
  cases hgoes with
  | seed =>
    refine ⟨⟨h.seed, ?_, h.heartbeat, h.result, h.marker⟩, Nat.le_refl _⟩
    intro v hv
    cases hv
    exact h.seed
  | answer seed =>
    obtain rfl := h.fits seed rfl
    refine ⟨⟨?_, nofun, ?_, loadWord_storeWord _ _ _, ?_⟩, Nat.le_refl _⟩
    · rw [loadWord_storeWord_of_disjoint _ _ (by omega), h.seed]
    · exact (loadWord_storeWord_of_disjoint _ _ (by omega)).trans h.heartbeat
    · exact (loadWord_storeWord_of_disjoint _ _ (by omega)).trans h.marker
  | mark =>
    refine ⟨⟨?_, nofun, ?_, ?_, loadWord_storeWord _ _ _⟩, Nat.le_refl _⟩
    · rw [loadWord_storeWord_of_disjoint _ _ (by omega), h.seed]
    · exact (loadWord_storeWord_of_disjoint _ _ (by omega)).trans h.heartbeat
    · exact (loadWord_storeWord_of_disjoint _ _ (by omega)).trans h.result
  | drive => exact ⟨h.elsewhere _ (by decide) nofun rfl rfl rfl, Nat.le_refl _⟩
  | light => exact ⟨h.elsewhere _ (by decide) nofun rfl rfl rfl, Nat.le_refl _⟩
  | again n => exact ⟨⟨h.seed, nofun, h.heartbeat, h.result, h.marker⟩, Nat.le_refl _⟩
  | beat n =>
    refine ⟨⟨?_, nofun, loadWord_storeWord _ _ _, ?_, ?_⟩, Nat.le_succ n⟩
    · rw [loadWord_storeWord_of_disjoint _ _ (by omega), h.seed]
    · exact (loadWord_storeWord_of_disjoint _ _ (by omega)).trans h.result
    · exact (loadWord_storeWord_of_disjoint _ _ (by omega)).trans h.marker

/-! ## The report -/

def HEARTBEAT : UInt64 := 0x70000000

/-- Where the core is when the heartbeat is read. -/
def heartbeatAt (o : RunOp) (code : CoreProg) : List CoreProg :=
  match o with
  | .get a => if a = HEARTBEAT then [code] else []
  | _ => []

/-- The tool, and the core beside it, with the places of the core at the reads of the
heartbeat on record. -/
def watched (fw : Firmware) (file : List UInt8) : Env RunSig (Board × List CoreProg) :=
  fun x o r y => LoadRun.board fw file x.1 o r y.1 ∧ y.2 = x.2 ++ heartbeatAt o y.1.code

/-- The program runs, and has made `n` rounds at least. -/
structure Beats (fw : Firmware) (n : Nat) (s : Board) : Prop where
  fits : ∃ m pc, s.launched = some (m, pc) ∧ fw.Fits m pc
  place : ∃ p : Place, s.code = p.code ∧ Told s.mem p ∧ n ≤ p.rounds
  pc : fw.load.toNat ≤ s.pc.toNat ∧ s.pc.toNat < fw.load.toNat + fw.image.length

/-- The core as it is found when it has been stopped at `p`. -/
structure Stopped (fw : Firmware) (p : Place) (s : Board) : Prop where
  halted : s.halted = true
  code : s.code = p.code
  told : Told s.mem p
  pc : fw.load.toNat ≤ s.pc.toNat ∧ s.pc.toNat < fw.load.toNat + fw.image.length

section
variable {load : UInt64} {image file : List UInt8} {s s' : Board} {n : Nat} {p : Place}

theorem moves_beats : Stable (Moves (selftest load image)) (Beats (selftest load image) n) := by
  intro s s' h hstep
  obtain ⟨m, pc, hlaunched, hfits⟩ := h.fits
  cases hstep with
  | exec _ _ _ hserves hpc =>
    obtain ⟨p, hcode, htold, hn⟩ := h.place
    rw [hcode] at hserves
    obtain ⟨p', rfl, hgoes⟩ := serves_goes hserves
    obtain ⟨htold', hle⟩ := htold.goes hgoes
    exact ⟨⟨m, pc, hlaunched, hfits⟩, ⟨p', rfl, htold', Nat.le_trans hn hle⟩, hpc⟩
  | astray hother _ hnot =>
    rw [hlaunched] at hother
    cases hother
    exact absurd hfits hnot

/-- A core that is stopped does nothing. -/
theorem moves_stopped : Stable (Moves (selftest load image)) (Stopped (selftest load image) p) := by
  intro s s' h hstep
  cases hstep with
  | exec _ hhalted => simp [h.halted] at hhalted
  | astray _ hhalted => simp [h.halted] at hhalted

/-- A heartbeat that is read while the core runs, and where the core is then. -/
theorem wp_heartbeat {places : List CoreProg} (h : Beats (selftest load image) n s) :
    (rd32 HEARTBEAT).wp (watched (selftest load image) file)
      (fun v y => ∃ place : Place, y.2 = places ++ [place.code] ∧ n ≤ place.rounds ∧
        v = UInt32.ofNat place.rounds ∧ Beats (selftest load image) place.rounds y.1)
      (fun _ _ => True) (s, places) := by
  rw [rd32, wp_bind]
  show ∀ r y, watched (selftest load image) file (s, places) (.get HEARTBEAT) r y → _
  rintro r y ⟨hE, hplaces⟩
  obtain ⟨s₁, hs₁, hword, hy⟩ := interleave_cases moves_beats h hE
  cases r with
  | none => trivial
  | some v =>
    obtain ⟨place, hcode, htold, hn⟩ := hs₁.place
    obtain rfl := hword v rfl
    refine ⟨place, ?_, hn, htold.heartbeat, ?_⟩
    · rw [hplaces, hy, ← hcode]
      rfl
    · rw [hy]
      exact ⟨hs₁.fits, ⟨place, hcode, htold, Nat.le_refl _⟩, hs₁.pc⟩

theorem wp_word (h : Stopped (selftest load image) p s) (a : UInt64) :
    (rd32 a).wp (board (selftest load image) file)
      (fun v s' => v = loadWord s'.mem a.toNat ∧ Stopped (selftest load image) p s')
      (fun _ _ => True) s := by
  rw [rd32, wp_bind, wp_probe]
  intro r s' hE
  obtain ⟨s₁, hs₁, hget⟩ := interleave_cases moves_stopped h hE
  obtain ⟨hword, rfl⟩ := hget
  cases r with
  | none => trivial
  | some v => exact ⟨hword v rfl, hs₁⟩

/-- What the last three values are, for a core that is stopped at `place`. -/
structure Reads (load : UInt64) (image : List UInt8) (place : Place) (p : Proofs) : Prop where
  pc : p.pcNow = 0 ∨ (load.toNat ≤ p.pcNow.toNat ∧ p.pcNow.toNat < load.toNat + image.length)
  result : p.result = if place.answered then RESPONSE else 0
  marker : p.marker = if place.marked then MARKER else 0

/-- The report behind the two heartbeats. -/
def judge (hb1 hb2 : UInt32) : Load Outcome := do
  need "stop" (← ask .stop)
  let pcNow ← ask .getPc
  let result ← rd32 0x70000004
  let marker ← rd32 0x7000000C
  return .proofs ⟨pcNow, hb1, hb2, result, marker⟩

theorem report_proofs : report .proofs =
    (rd32 HEARTBEAT >>= fun hb1 => rd32 HEARTBEAT >>= fun hb2 => judge hb1 hb2) := rfl

theorem wp_judge (hb1 hb2 : UInt32) (h : Beats (selftest load image) n s) :
    (judge hb1 hb2).wp (board (selftest load image) file)
      (fun o s' => ∀ p, o = .proofs p → p.hb1 = hb1 ∧ p.hb2 = hb2 ∧
        ∃ place : Place, s'.code = place.code ∧ n ≤ place.rounds ∧ Reads load image place p)
      (fun _ _ => True) s := by
  rw [judge, wp_bind, wp_probe]
  intro r s₃ hE
  rw [wp_bind]
  apply wp_need ?_ fun _ => trivial
  intro hr
  obtain ⟨s₂, hs₂, hstop⟩ := interleave_cases moves_beats h hE
  obtain ⟨place, hcode, htold, hn⟩ := hs₂.place
  obtain rfl : s₃ = { s₂ with halted := true } := by
    rcases hstop with h | ⟨hfalse, -⟩
    · exact h
    · simp [hr] at hfalse
  have hs₃ : Stopped (selftest load image) place { s₂ with halted := true } :=
    ⟨rfl, hcode, htold, hs₂.pc⟩
  rw [wp_bind, wp_probe]
  intro pcNow s₄ hE
  obtain ⟨_, hs₄, hpc, rfl⟩ := interleave_cases moves_stopped hs₃ hE
  rw [wp_bind]
  apply wp_mono _ ?_ (fun _ _ h => h) (wp_word hs₄ _)
  rintro result s₅ ⟨hresult, hs₅⟩
  rw [wp_bind]
  apply wp_mono _ ?_ (fun _ _ h => h) (wp_word hs₅ _)
  rintro marker s₆ ⟨hmarker, hs₆⟩ p hp
  cases hp
  refine ⟨rfl, rfl, place, hs₆.code, hn, ?_, ?_, ?_⟩
  · rcases hpc with rfl | rfl
    · exact .inr hs₄.pc
    · exact .inl rfl
  · exact hresult.trans hs₅.told.result
  · exact hmarker.trans hs₆.told.marker

/-- No read of the heartbeat. -/
def Elsewhere : RunOp → Prop
  | .get a => a ≠ HEARTBEAT
  | _ => True

/-- What does not read the heartbeat leaves the record as it is. -/
theorem wp_elsewhere {α : Type} {p : Load α} {R : α → Prop} (hp : p.Asks Elsewhere R)
    {Q : α → Board → Prop} {fw : Firmware} (places : List CoreProg)
    (hwp : p.wp (board fw file) Q (fun _ _ => True) s) :
    p.wp (watched fw file) (fun a y => Q a y.1 ∧ y.2 = places) (fun _ _ => True) (s, places) := by
  have hsim : p.wp (watched fw file) _ _ (s, places) :=
    hp.sim (fun s (y : Board × List CoreProg) => y.1 = s ∧ y.2 = places) ?_ ⟨rfl, rfl⟩ hwp
  · apply wp_mono _ ?_ (fun _ _ _ => trivial) hsim
    rintro a y ⟨_, ⟨rfl, hplaces⟩, hQ⟩
    exact ⟨hQ, hplaces⟩
  · rintro _ y o r y' ho ⟨rfl, hplaces⟩ ⟨hE, hplaces'⟩
    refine ⟨y'.1, hE, rfl, ?_⟩
    rw [hplaces', hplaces]
    cases o with
    | get a => rw [heartbeatAt, if_neg ho, List.append_nil]
    | _ => exact List.append_nil _

/-- Seeds and an image that are apart from each other are both there. -/
theorem proofs_seeded (hapart : load.toNat + image.length ≤ 0x70000000 ∨ 0x70000010 ≤ load.toNat)
    (m : Mem) :
    Told (seeded Mode.proofs.seeds (overlay load image m)) .start ∧
      ∀ i < image.length, seeded Mode.proofs.seeds (overlay load image m) (load.toNat + i) =
        image.getD i 0 := by
  obtain ⟨h0, h4, hC, h8⟩ : (0x70000000 : UInt64).toNat = 0x70000000 ∧
      (0x70000004 : UInt64).toNat = 0x70000004 ∧ (0x7000000C : UInt64).toNat = 0x7000000C ∧
      (0x70000008 : UInt64).toNat = 0x70000008 := ⟨rfl, rfl, rfl, rfl⟩
  simp only [seeded, Mode.seeds, List.foldl_cons, List.foldl_nil, h0, h4, hC, h8]
  generalize hbase : overlay load image m = base
  refine ⟨⟨loadWord_storeWord _ _ _, by simp, ?_, ?_, ?_⟩, ?_⟩
  · simp [loadWord_storeWord_of_disjoint, loadWord_storeWord, Place.rounds]
  · simp [loadWord_storeWord_of_disjoint, loadWord_storeWord, Place.answered]
  · simp [loadWord_storeWord_of_disjoint, loadWord_storeWord, Place.marked]
  · intro i hi
    rw [storeWord_of_disjoint _ _ (by omega), storeWord_of_disjoint _ _ (by omega),
      storeWord_of_disjoint _ _ (by omega), storeWord_of_disjoint _ _ (by omega), ← hbase, overlay,
      storeRange_apply, if_pos (by omega), Nat.add_sub_cancel_left]

theorem begins_beats (hload : load < FLASH_VIEW_MIN) (himage : image ≠ [])
    (hapart : load.toNat + image.length ≤ 0x70000000 ∨ 0x70000010 ≤ load.toNat)
    (h : Begins (selftest load image) load Mode.proofs.seeds image s) :
    Beats (selftest load image) 0 s := by
  obtain ⟨s₀, m₀, rfl⟩ := h
  obtain ⟨htold, himg⟩ := proofs_seeded hapart m₀
  have hlow : load.toNat < 0xA0000000 := UInt64.lt_iff_toNat_lt.mp hload
  have hpc : load.toUInt32.toNat = load.toNat := by
    rw [UInt64.toNat_toUInt32]
    exact Nat.mod_eq_of_lt (by omega)
  have hlength := List.length_pos_iff.mpr himage
  refine ⟨⟨_, _, rfl, rfl, himg⟩, ⟨.start, rfl, htold, Nat.le_refl 0⟩, ?_, ?_⟩
  · exact Nat.le_of_eq hpc.symm
  · show load.toUInt32.toNat < load.toNat + image.length
    omega

theorem Place.ran {p : Place} (h : 0 < p.rounds) : p.answered = true ∧ p.marked = true := by
  cases p with
  | top n => exact ⟨rfl, rfl⟩
  | beat n => exact ⟨rfl, rfl⟩
  | start | answer | mark | drive | light => exact absurd h (Nat.lt_irrefl 0)

/-- What the four lines say about the core, which was at `place₁` and `place₂` when the
heartbeat was read, and has been stopped at `place`. -/
structure Says (load : UInt64) (image : List UInt8) (place₁ place₂ place : Place) (p : Proofs) :
    Prop where
  parked : p.parked load image.length = true ∨ p.pcNow = 0
  response : p.response = true ↔ place.answered = true
  done : p.done = true ↔ place.marked = true
  order : place₁.rounds ≤ place₂.rounds ∧ place₂.rounds ≤ place.rounds
  beats : p.hb1 = UInt32.ofNat place₁.rounds ∧ p.hb2 = UInt32.ofNat place₂.rounds
  live : p.moving = true ↔ place₁.rounds % 2 ^ 32 ≠ place₂.rounds % 2 ^ 32
  moving : p.moving = true → p.response = true ∧ p.done = true ∧ 0 < place.rounds

theorem Reads.says {place₁ place₂ place : Place} {p : Proofs} (hload : load < FLASH_VIEW_MIN)
    (hlength : image.length < 2 ^ 63)
    (horder : place₁.rounds ≤ place₂.rounds ∧ place₂.rounds ≤ place.rounds)
    (hbeats : p.hb1 = UInt32.ofNat place₁.rounds ∧ p.hb2 = UInt32.ofNat place₂.rounds)
    (h : Reads load image place p) : Says load image place₁ place₂ place p := by
  have hresponse : p.response = true ↔ place.answered = true := by
    rw [Proofs.response, beq_iff_eq, h.result]
    cases place.answered with
    | true => decide
    | false => decide
  have hdone : p.done = true ↔ place.marked = true := by
    rw [Proofs.done, beq_iff_eq, h.marker]
    cases place.marked with
    | true => decide
    | false => decide
  have hmoving : p.moving = true ↔ place₁.rounds % 2 ^ 32 ≠ place₂.rounds % 2 ^ 32 := by
    rw [Proofs.moving, bne_iff_ne, hbeats.1, hbeats.2, Ne, ← UInt32.toNat_inj, UInt32.toNat_ofNat',
      UInt32.toNat_ofNat', eq_comm]
  refine ⟨?_, hresponse, hdone, horder, hbeats, hmoving, fun hmove => ?_⟩
  · rcases h.pc with hzero | ⟨hlow, hhigh⟩
    · exact .inr hzero
    · have hload' : load.toNat < 0xA0000000 := UInt64.lt_iff_toNat_lt.mp hload
      have hend : (load + UInt64.ofNat image.length).toNat = load.toNat + image.length := by
        rw [UInt64.toNat_add, UInt64.toNat_ofNat_of_lt' (show image.length < 2 ^ 64 by omega)]
        exact Nat.mod_eq_of_lt (by omega)
      left
      rw [Proofs.parked, Bool.and_eq_true, decide_eq_true_iff, decide_eq_true_iff,
        UInt64.le_iff_toNat_le, UInt64.lt_iff_toNat_lt, hend, UInt32.toNat_toUInt64]
      exact ⟨hlow, hhigh⟩
  · have hne := hmoving.mp hmove
    have hsome : 0 < place.rounds := by
      have hlt : place₁.rounds ≠ place₂.rounds := fun heq => hne (by rw [heq])
      omega
    obtain ⟨hanswered, hmarked⟩ := Place.ran hsome
    exact ⟨hresponse.mpr hanswered, hdone.mpr hmarked, hsome⟩

theorem need_elsewhere (what : String) (done : Bool) :
    (need what done).Asks Elsewhere fun _ => True := by
  cases done with
  | true => trivial
  | false => trivial

theorem writeAll_elsewhere (what : String) (ws : List (UInt64 × List UInt8)) :
    (LoadRun.writeAll what ws).Asks Elsewhere fun _ => True := by
  induction ws with
  | nil => trivial
  | cons w ws ih =>
    rw [LoadRun.writeAll, asks_bind, asks_probe]
    refine ⟨trivial, fun r => ?_⟩
    rw [asks_bind]
    exact (need_elsewhere _ _).mono fun _ _ => ih

theorem bringUp_elsewhere (load : UInt64) (ws : List (UInt64 × List UInt8))
    (seeds : List (UInt64 × UInt32)) : (bringUp load ws seeds).Asks Elsewhere fun _ => True := by
  rw [bringUp, asks_bind, asks_probe]
  refine ⟨trivial, fun opened => ?_⟩
  rw [asks_bind]
  apply (need_elsewhere _ _).mono
  intro _ _
  rw [asks_bind, asks_probe]
  refine ⟨trivial, fun found => ?_⟩
  rw [asks_bind]
  apply (need_elsewhere _ _).mono
  intro _ _
  rw [asks_bind]
  apply (writeAll_elsewhere _ _).mono
  intro _ _
  rw [launch, asks_bind]
  apply (writeAll_elsewhere _ _).mono
  intro _ _
  rw [asks_bind, asks_probe]
  refine ⟨trivial, fun set => ?_⟩
  rw [asks_bind]
  apply (need_elsewhere _ _).mono
  intro _ _
  rw [asks_bind, asks_probe]
  exact ⟨trivial, fun started => need_elsewhere _ _⟩

theorem rd32_elsewhere {a : UInt64} (ha : a ≠ HEARTBEAT) :
    (rd32 a).Asks Elsewhere fun _ => True := by
  refine ⟨ha, fun r => ?_⟩
  cases (show Option UInt32 from r) with
  | none => trivial
  | some v => trivial

theorem judge_elsewhere (hb1 hb2 : UInt32) : (judge hb1 hb2).Asks Elsewhere fun _ => True := by
  rw [judge, asks_bind, asks_probe]
  refine ⟨trivial, fun stopped => ?_⟩
  rw [asks_bind]
  apply (need_elsewhere _ _).mono
  intro _ _
  rw [asks_bind, asks_probe]
  refine ⟨trivial, fun pcNow => ?_⟩
  rw [asks_bind]
  apply (rd32_elsewhere (by decide)).mono
  intro result _
  rw [asks_bind]
  exact (rd32_elsewhere (by decide)).mono fun _ _ => trivial

/-- The report of a core that has been started. -/
theorem wp_report (hload : load < FLASH_VIEW_MIN) (hlength : image.length < 2 ^ 63)
    (h : Beats (selftest load image) 0 s) :
    (report .proofs).wp (watched (selftest load image) image)
      (fun o y => ∀ p, o = .proofs p → ∃ place₁ place₂ place : Place,
        y.2 = [place₁.code, place₂.code] ∧ y.1.code = place.code ∧
        Says load image place₁ place₂ place p)
      (fun _ _ => True) (s, []) := by
  rw [report_proofs, wp_bind]
  apply wp_mono _ ?_ (fun _ _ h => h) (wp_heartbeat h)
  rintro hb1 ⟨s₁, _⟩ ⟨place₁, rfl, -, hhb1, hs₁⟩
  rw [wp_bind]
  apply wp_mono _ ?_ (fun _ _ h => h) (wp_heartbeat hs₁)
  rintro hb2 ⟨s₂, _⟩ ⟨place₂, rfl, hle, hhb2, hs₂⟩
  apply wp_mono _ ?_ (fun _ _ h => h)
    (wp_elsewhere (judge_elsewhere hb1 hb2) _ (wp_judge hb1 hb2 hs₂))
  rintro o ⟨s', _⟩ ⟨hjudge, rfl⟩ p hp
  obtain ⟨rfl, rfl, place, hcode, hn, hreads⟩ := hjudge p hp
  exact ⟨place₁, place₂, place, rfl, hcode, hreads.says hload hlength ⟨hle, hn⟩ ⟨hhb1, hhb2⟩⟩

theorem wp_proofs (argc : Nat) (hload : load < FLASH_VIEW_MIN) (himage : image ≠ [])
    (hapart : load.toNat + image.length ≤ 0x70000000 ∨ 0x70000010 ≤ load.toNat)
    (hs : s.launched = none) :
    (cmdRun argc load .proofs).wp (watched (selftest load image) image)
      (fun o y => ∀ p, o = .proofs p → ∃ place₁ place₂ place : Place,
        y.2 = [place₁.code, place₂.code] ∧ y.1.code = place.code ∧
        Says load image place₁ place₂ place p)
      (fun _ _ => True) (s, []) := by
  apply wp_ite
  · rintro - p ⟨⟩
  · intro _
    rw [wp_bind]
    show ∀ r y, watched (selftest load image) image (s, []) .readFile r y → _
    rintro r ⟨s₁, places⟩ ⟨hE, hplaces⟩
    obtain rfl : places = [] := hplaces
    obtain ⟨hfile, rfl⟩ := board_idle hs hE
    cases r with
    | none => rintro p ⟨⟩
    | some img =>
      obtain ⟨rfl, hlength⟩ := hfile img rfl
      have hall : ∀ m, putAll m (if load < FLASH_VIEW_MIN then chunks load img else []) =
          overlay load img m := by
        intro m
        rw [putAll_run hlength, if_pos hload]
      show (bringUp load _ Mode.proofs.seeds >>= _ : Load Outcome).wp _ _ _ _
      rw [wp_bind]
      apply wp_mono _ ?_ (fun _ _ h => h)
        (wp_elsewhere (bringUp_elsewhere load _ Mode.proofs.seeds) []
          (wp_mono _ (fun _ _ h => h) (fun _ _ _ => trivial) (wp_bringUp hall hs)))
      rintro _ ⟨s₂, _⟩ ⟨hs₂, rfl⟩
      exact wp_report hload hlength (begins_beats hload himage hapart hs₂)

end

/-- The self-test, with the core running beside the tool: a line passes exactly if the core has
come that far, and a moving heartbeat, which is one of rounds between the two reads, means
that the other two have passed. -/
theorem selftest_proofs (load : UInt64) (image : List UInt8) (hload : load < FLASH_VIEW_MIN)
    (himage : image ≠ [])
    (hapart : load.toNat + image.length ≤ 0x70000000 ∨ 0x70000010 ≤ load.toNat) (argc : Nat)
    (s : Board) (hs : s.launched = none) (p : Proofs) (s' : Board) (places : List CoreProg)
    (hrun : Runs (watched (selftest load image) image) (cmdRun argc load .proofs) (s, [])
      (.ok (.proofs p)) (s', places)) :
    ∃ place₁ place₂ place : Place, places = [place₁.code, place₂.code] ∧ s'.code = place.code ∧
      Says load image place₁ place₂ place p :=
  (hrun.sound _ (wp_proofs argc hload himage hapart hs)).1 _ rfl p rfl

/-! A run in which the core takes twelve steps before each read. -/

theorem selftest_proofs_passes : ∃ (p : Proofs) (s' : Board) (places : List CoreProg),
    (p.response = true ∧ p.moving = true ∧ p.done = true) ∧
      ∃ place₁ place₂ place : Place, places = [place₁.code, place₂.code] ∧
        s'.code = place.code ∧
        Says 0x70100000 [0x0D, 0, 0xC0, 0x04, 0] place₁ place₂ place p := by
  have hserve := board_serve (selftest 0x70100000 [0x0D, 0, 0xC0, 0x04, 0]) [0x0D, 0, 0xC0, 0x04, 0]
  have hrun := runs_exec (watched (selftest 0x70100000 [0x0D, 0, 0xC0, 0x04, 0])
      [0x0D, 0, 0xC0, 0x04, 0])
    (fun y o => ((y.1.serve (selftest 0x70100000 [0x0D, 0, 0xC0, 0x04, 0])
        [0x0D, 0, 0xC0, 0x04, 0] o).1,
      (y.1.serve (selftest 0x70100000 [0x0D, 0, 0xC0, 0x04, 0]) [0x0D, 0, 0xC0, 0x04, 0] o).2,
      y.2 ++ heartbeatAt o (y.1.serve (selftest 0x70100000 [0x0D, 0, 0xC0, 0x04, 0])
        [0x0D, 0, 0xC0, 0x04, 0] o).2.code))
    (fun y o => ⟨hserve y.1 o, rfl⟩) (cmdRun 4 0x70100000 .proofs) (anyBoard, [])
  have hload : (0x70100000 : UInt64) < FLASH_VIEW_MIN := by decide
  exact ⟨_, _, _, ⟨by decide, by decide, by decide⟩,
    selftest_proofs 0x70100000 [0x0D, 0, 0xC0, 0x04, 0] hload (by decide)
      (.inr (by decide)) 4 anyBoard rfl _ _ _ hrun⟩

end OpenTricore.Selftest
