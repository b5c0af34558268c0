import OpenTricore.FlashLoad

/-! Sectors between segments. `vFlashDone` programs the whole range from the first
segment to the end of the last, so what lies between two segments is programmed
with `0xFF`, and so is what an earlier load left in the buffer. Here it is shown when
that touches a sector that was not erased.

* `Erased`: the sectors of the erases that were answered `OK`;
* `DonePages`: what `vFlashDone` programs, on a working bus page by page
  (`done_visits`);
* `gaps_kept_iff`: the page-write commands stay inside the erased sectors exactly
  when the gaps do. -/

namespace OpenTricore
open Lib Lib.Prog

/-! ## What a session erases and fills -/

/-- `tcmcd_flash_erase` visits the sector of `x`. -/
def FlashErase.Erases (e : FlashErase) (x : Nat) : Prop :=
  flashRangeOk e.addr64 e.len64 = true ∧ e.addr / SECTOR ≤ x / SECTOR ∧
    x / SECTOR * SECTOR < (e.addr64 + e.len64).toNat

/-- The sector of `x` is erased by one of the packets, which was answered `OK`. The
answers are in the order of the packets. -/
def Erased (es : List FlashErase) (out : List (List UInt8)) (x : Nat) : Prop :=
  ∃ (i : Nat) (e : FlashErase), es[i]? = some e ∧ out[i]? = some (bytes "OK") ∧ e.Erases x

/-- After the writes `ws` since the buffer was last empty. -/
def Loaded (s : Stub) (ws : List FlashWrite) : Prop :=
  match ws with
  | [] => s.flash.fbuf = none
  | w :: _ => s.Buffered w.addr (accepted w.addr ws)

/-- After the writes `ws` the byte at `x` is programmed: the image starts at a page and
ends in PFLASH, and `x` lies between its first and its last byte. -/
def DonePages (ws : List FlashWrite) (x : Nat) : Prop :=
  match ws with
  | [] => False
  | w :: _ => w.addr % 32 = 0 ∧ imageEnd w.addr (accepted w.addr ws) ≤ FLASH_MAX.toNat ∧
    w.addr ≤ x ∧ x < imageEnd w.addr (accepted w.addr ws)

/-- `x` is programmed although no packet of `ws` writes it. The buffer held `old` before. -/
def Filler (old ws : List FlashWrite) (x : Nat) : Prop :=
  DonePages (old ++ ws) x ∧ ∀ v ∈ ws, v.covers x = false

/-- Every page-write command of `vFlashDone` goes to one of the addresses, whatever the
bus answers. -/
def DoneKept (polls : Nat) (s : Stub) (P : Nat → Prop) : Prop :=
  ∀ stale x z, Runs (replying anything) (dispatchPacket polls s (donePacket stale)) ([], []) x z →
    TargetsIn (fun v => P v.toNat) z.1

theorem DonePages.below {ws : List FlashWrite} {x : Nat} (h : DonePages ws x) :
    x < FLASH_MAX.toNat := by
  cases ws with
  | nil => cases h
  | cons w ws => exact Nat.lt_of_lt_of_le h.2.2.2 h.2.1

theorem Erased.of_sector {es : List FlashErase} {out : List (List UInt8)} {x y : Nat}
    (h : Erased es out x) (hxy : x / SECTOR = y / SECTOR) :
    Erased es out y := by
  obtain ⟨i, e, he, hanswer, hok, hlow, hlt⟩ := h
  exact ⟨i, e, he, hanswer, hok, hxy ▸ hlow, hxy ▸ hlt⟩

/-- An erase of a range that is answered `OK` erases the segments inside it. -/
theorem Erased.segment {es : List FlashErase} {out : List (List UInt8)} (i : Nat) (e : FlashErase)
    (he : es[i]? = some e) (hanswer : out[i]? = some (bytes "OK"))
    (hok : flashRangeOk e.addr64 e.len64 = true) {addr stop : Nat} (hlow : e.addr ≤ addr)
    (hhigh : stop ≤ (e.addr64 + e.len64).toNat) {x : Nat} (haddr : addr ≤ x) (hstop : x < stop) :
    Erased es out x := by
  refine ⟨i, e, he, hanswer, hok, Nat.div_le_div_right (Nat.le_trans hlow haddr), ?_⟩
  have hround := Nat.div_mul_le_self x SECTOR
  omega

theorem FlashWrite.covers_iff (w : FlashWrite) (x : Nat) :
    w.covers x = true ↔ w.addr ≤ x ∧ x < w.segment.stop := by
  simp only [FlashWrite.covers, Bool.and_eq_true, decide_eq_true_eq]

/-! ## What a session leaves in the buffer -/

section sessions
variable {σ : Type} (E : Env BusSig σ) (polls : Nat)

/-- An erase packet leaves the stub as it is. -/
theorem wp_dispatchAll_erases (s : Stub) (es : List FlashErase) (ps : List Packet)
    {Q : Option Stub → σ × List (List UInt8) → Prop}
    (h : ∀ y, (dispatchAll polls s ps).wp (replying E) Q (fun _ _ => False) y)
    (y : σ × List (List UInt8)) :
    (dispatchAll polls s (es.map FlashErase.packet ++ ps)).wp (replying E) Q (fun _ _ => False)
      y := by
  induction es generalizing y with
  | nil => exact h y
  | cons e es ih =>
    rw [List.map_cons, List.cons_append, dispatchAll, dispatch_erase, wp_bind, wp_bind]
    refine wp_mono _ ?_ (fun _ _ h => h.1)
      (wp_onBus_replying y.2 ((tcmcdFlashErase_returns _ _ _).wp E y.1))
    intro rc z _
    rw [wp_bind, wp_putPacket_replying]
    exact ih _

/-- Each write is laid over what the buffer held. -/
theorem dispatchAll_loaded (s : Stub) (old ws : List FlashWrite) (hs : Loaded s old)
    (y : σ × List (List UInt8)) :
    (dispatchAll polls s (ws.map FlashWrite.packet)).wp (replying E)
      (fun r _ => ∃ s', r = some s' ∧ Loaded s' (old ++ ws)) (fun _ _ => False) y := by
  cases old with
  | nil =>
    cases ws with
    | nil => exact ⟨s, rfl, hs⟩
    | cons w ws =>
      refine wp_mono _ ?_ (fun _ _ h => h) (dispatchAll_image E polls y.1 s hs w ws y.2)
      rintro r _ ⟨b, hr, -, hb⟩
      exact ⟨_, hr, hb⟩
  | cons v old =>
    refine wp_mono _ ?_ (fun _ _ h => h)
      (dispatchAll_writes E polls y.1 v.addr v.window ws s _ hs y.2)
    rintro r _ ⟨b, hr, -, hb⟩
    have hboth : accepted v.addr (v :: old ++ ws) =
        accepted v.addr (v :: old) ++ accepted v.addr ws := by
      simp only [accepted, List.filter_append, List.map_append]
    refine ⟨_, hr, ?_⟩
    rw [List.cons_append, Loaded, ← List.cons_append, hboth]
    exact hb

/-- A session of erases and writes leaves them all in the buffer. -/
theorem session_loaded (s : Stub) (old : List FlashWrite) (hs : Loaded s old)
    (es : List FlashErase) (ws : List FlashWrite) (y : σ × List (List UInt8)) :
    (dispatchAll polls s (es.map FlashErase.packet ++ ws.map FlashWrite.packet)).wp (replying E)
      (fun r _ => ∃ s', r = some s' ∧ Loaded s' (old ++ ws)) (fun _ _ => False) y :=
  wp_dispatchAll_erases E polls s es _ (fun y => dispatchAll_loaded E polls s old ws hs y) y

end sessions

theorem run_loaded {polls : Nat} {s : Stub} (old : List FlashWrite) (hs : Loaded s old)
    (es : List FlashErase) (ws : List FlashWrite) {s' : Stub}
    {y : List (Event BusSig) × List (List UInt8)}
    (hr : Runs (replying anything)
      (dispatchAll polls s (es.map FlashErase.packet ++ ws.map FlashWrite.packet)) ([], [])
      (.ok (some s')) y) : Loaded s' (old ++ ws) := by
  obtain ⟨s'', heq, hl⟩ :=
    (hr.sound _ (session_loaded anything polls s old hs es ws ([], []))).1 _ rfl
  exact Option.some.inj heq ▸ hl

/-! ## Only the image is programmed -/

theorem done_targets (polls : Nat) (s : Stub) (ws : List FlashWrite) (hs : Loaded s ws)
    {P : Nat → Prop} (h : ∀ x, DonePages ws x → P x) (stale : List UInt8) :
    (dispatchPacket polls s (donePacket stale)).wp (replying anything)
      (fun _ z => TargetsIn (fun v => P v.toNat) z.1)
      (fun _ z => TargetsIn (fun v => P v.toNat) z.1) ([], []) := by
  cases ws with
  | nil =>
    rw [dispatch_done_empty polls s hs, wp_bind, wp_putPacket_replying]
    exact List.forall_mem_nil _
  | cons w ws =>
    obtain ⟨f, hf⟩ := hs
    have hlen := hf.flen
    have hle := hf.flen_le
    have hcap := hf.fcap
    have haddr := toNat_addr w
    have hwin := w.window
    simp only [AddrInWindow, FLASH_MIN, FLASH_MAX, UInt32.reduceToNat] at hwin
    have hbase : w.addr < 0xA1400000 := hwin.2
    simp only [DonePages, FLASH_MAX, UInt32.reduceToNat] at h
    generalize imageEnd w.addr (accepted w.addr (w :: ws)) = stop at hf hlen h
    have hspan : (UInt32.ofNat (stop - w.addr)).toNat = stop - w.addr := by
      rw [UInt32.toNat_ofNat']
      omega
    rw [dispatch_done_holds polls s hf stale, wp_bind]
    have hprog : KeepsTargets (fun v => P v.toNat)
        (tcmcdFlashProgram s.active.target (UInt64.ofNat w.addr) f (UInt32.ofNat (stop - w.addr)))
        [] := by
      by_cases hok : flashRangeOk (UInt64.ofNat w.addr) (UInt32.ofNat (stop - w.addr)).toUInt64 ∧
          UInt64.ofNat w.addr &&& (FPAGE - 1).toUInt64 = 0
      · obtain ⟨hrange, halign⟩ := hok
        have hmod := toNat_and_mask (UInt64.ofNat w.addr) (FPAGE - 1).toUInt64 5 rfl
        rw [halign, haddr] at hmod
        rw [flashRangeOk_iff, haddr, UInt32.toNat_toUInt64, hspan] at hrange
        refine program_targets _ _ _ _ fun off hoff _ => ?_
        rw [UInt32.lt_iff_toNat_lt, hspan] at hoff
        have hpage : (UInt64.ofNat w.addr + off.toUInt64).toUInt32.toNat = w.addr + off.toNat := by
          rw [UInt64.toNat_toUInt32, UInt64.toNat_add, UInt32.toNat_toUInt64, haddr]
          omega
        rw [hpage]
        exact h _ ⟨hmod.symm, by omega, Nat.le_add_right _ _, by omega⟩
      · rw [not_and_or, Bool.not_eq_true] at hok
        rw [program_refused _ _ _ _ hok]
        exact List.forall_mem_nil _
    refine wp_mono _ ?_ (fun _ _ h => h.1) (wp_onBus_replying [] hprog)
    rintro rc z ⟨hz, -⟩
    rw [wp_bind, wp_putPacket_replying]
    exact hz

theorem done_kept (polls : Nat) (s : Stub) (ws : List FlashWrite) (hs : Loaded s ws)
    {P : Nat → Prop} (h : ∀ x, DonePages ws x → P x) : DoneKept polls s P := by
  intro stale x z hz
  have hdone := hz.sound _ (done_targets polls s ws hs h stale)
  cases x with
  | ok r => exact hdone.1 r rfl
  | error e => exact hdone.2 e rfl

/-! ## Pages that are programmed -/

/-- A flash command for `a` was written. -/
def Visits (a : Nat) (tr : List (Event BusSig)) : Prop :=
  ∃ e ∈ tr, commandTarget e = some (UInt32.ofNat a)

theorem Visits.mono {a : Nat} {tr tr' : List (Event BusSig)} (h : Visits a tr) (hle : tr <+: tr') :
    Visits a tr' := by
  obtain ⟨e, he, ha⟩ := h
  exact ⟨e, hle.subset he, ha⟩

section visits
variable (t : Target)

theorem w32Any_records (ws : List (UInt64 × UInt32)) (tr : List (Event BusSig)) :
    (w32Any t ws).wp succeeding (fun _ tr' => ∀ w ∈ ws,
      (⟨.write t.core ⟨w.1, t.msid⟩ w.2, true⟩ : Event BusSig) ∈ tr') (fun _ _ => False) tr := by
  apply wp_w32Any succeeding t ws (fun done tr' => ∀ w ∈ done,
    (⟨.write t.core ⟨w.1, t.msid⟩ w.2, true⟩ : Event BusSig) ∈ tr') ?_ (fun _ h => h) tr
    (List.forall_mem_nil _)
  rintro done w rest - tr h r _ ⟨rfl, rfl⟩
  rw [answerOk, if_pos rfl]
  intro v hv
  obtain hv | hv := List.mem_append.mp hv
  · exact List.mem_append_left _ (h v hv)
  · rw [List.mem_singleton.mp hv]
    exact List.mem_append_right _ (List.mem_singleton_self _)

theorem programPage_visits (addr : UInt64) (data : Nat → UInt8) (len off : UInt32)
    (tr : List (Event BusSig)) :
    (programPage t addr data len off).wp succeeding
      (fun failed tr' => failed = false ∧ tr <+: tr' ∧
        Visits (addr + off.toUInt64).toUInt32.toNat tr') (fun _ _ => False) tr := by
  have hvisit : (programPage t addr data len off).wp succeeding
      (fun _ tr' => Visits (addr + off.toUInt64).toUInt32.toNat tr') (fun _ _ => True) tr := by
    rw [programPage_eq, flashCommand, wp_bind]
    refine wp_mono _ ?_ (fun _ _ _ => trivial) (w32Any_records t _ tr)
    intro failed tr' hrec
    have hmem := hrec (fcmd 0xaa50, (addr + off.toUInt64).toUInt32) (by
      simp [pageCycles, writePageCycles])
    have hv : Visits (addr + off.toUInt64).toUInt32.toNat tr' :=
      ⟨_, hmem, by rw [UInt32.ofNat_toNat]; simp only [commandTarget, ↓reduceIte]⟩
    cases failed with
    | true => exact hv
    | false =>
      simp only [Bool.false_eq_true, ↓reduceIte, wp_bind]
      exact wp_mono _ (fun _ _ h => hv.mono h) (fun _ _ _ => trivial)
        (answering_grows (S := BusSig) answerOk _ tr')
  refine wp_mono _ ?_ (fun _ _ h => h.1.1)
    (wp_and _ (wp_and _ (succeeding_never_fails.programPage_ok t addr data len off tr) hvisit)
      (answering_grows (S := BusSig) answerOk _ tr))
  rintro failed tr' ⟨⟨hok, hv⟩, hgrows⟩
  exact ⟨hok, hgrows, hv⟩

/-- On a working bus every page of the range is programmed. -/
theorem program_visits (addr : UInt64) (data : Nat → UInt8) (len : UInt32)
    (h : RangeInWindow addr.toNat len.toNat) (halign : addr.toNat % 32 = 0) :
    (tcmcdFlashProgram t addr data len).wp succeeding
      (fun _ tr => ∀ off < len.toNat, off % 32 = 0 → Visits (addr.toNat + off) tr)
      (fun _ _ => False) [] := by
  have hwin := h
  simp only [RangeInWindow, FLASH_MIN, FLASH_MAX, UInt32.reduceToNat] at hwin
  have hok : flashRangeOk addr len.toUInt64 = true := by
    rw [flashRangeOk_iff, UInt32.toNat_toUInt64]
    omega
  have haddr : addr &&& (FPAGE - 1).toUInt64 = 0 := by
    rw [← UInt64.toNat_inj, toNat_and_mask addr (FPAGE - 1).toUInt64 5 rfl]
    exact halign
  have hrule := wp_tcmcdFlashProgram succeeding t addr data len h
    (fun stop tr => ∀ off < stop, off < len.toNat → off % 32 = 0 → Visits (addr.toNat + off) tr)
    (fun tr => ∀ off < len.toNat, off % 32 = 0 → Visits (addr.toNat + off) tr)
    (fun _ => True) ?_ ?_ [] ?_ (fun _ => trivial)
  · refine wp_mono _ ?_ (fun _ _ h => h.1)
      (wp_and _ hrule (program_succeeding t addr data len hok haddr))
    rintro rc tr ⟨⟨-, -, hJ⟩ | ⟨hrc, -⟩, hne⟩
    · exact hJ
    · exact absurd hrc hne
  · intro off tr hoff hlt hI
    refine wp_mono _ ?_ (fun _ _ h => h) (programPage_visits t addr data len (UInt32.ofNat off) tr)
    rintro failed tr' ⟨rfl, hgrows, hv⟩ off' hoff' hlt' hmod
    rcases Nat.lt_or_ge off' off with hbefore | hfrom
    · exact (hI off' hbefore hlt' hmod).mono hgrows
    · -- the page at `off` itself
      obtain rfl : off' = off := by omega
      have htarget : (addr + (UInt32.ofNat off').toUInt64).toUInt32.toNat = addr.toNat + off' := by
        rw [UInt64.toNat_toUInt32, UInt64.toNat_add, UInt32.toNat_toUInt64, UInt32.toNat_ofNat']
        omega
      rw [htarget] at hv
      exact hv
  · intro tr hI
    refine wp_mono _ ?_ (fun _ _ h => h.1)
      (wp_and _ (succeeding_never_fails.w32_ok t (fcmd 0x5554) 0xf0 tr)
        (answering_grows (S := BusSig) answerOk _ tr))
    rintro _ tr' ⟨-, hgrows⟩ off hlt hmod
    exact (hI off (by simp only [pagesStop]; omega) hlt hmod).mono hgrows
  · exact fun off hoff => absurd hoff (Nat.not_lt_zero _)

end visits

/-! ## The whole image is programmed -/

/-- A run on a bus with fixed answers. -/
theorem exists_run (answer : (o : BusOp) → BusSig.Res o) {α : Type} (p : StubProg α) :
    ∃ x y, Runs (replying (answering answer)) p ([], []) x y ∧
      Runs (replying anything) p ([], []) x y := by
  have hr := runs_replyingBy (E := answering answer) (fun tr o => (answer o, tr ++ [⟨o, answer o⟩]))
    (fun _ _ => ⟨rfl, rfl⟩) p ([], [])
  exact ⟨_, _, hr, hr.mono fun _ _ _ _ h => replying_mono (fun _ _ _ _ h => h.2) h⟩

/-- On a working bus `vFlashDone` visits every page of the image. -/
theorem done_visits (polls : Nat) (s : Stub) (ws : List FlashWrite) (hs : Loaded s ws) {x : Nat}
    (hx : DonePages ws x) (stale : List UInt8) :
    (dispatchPacket polls s (donePacket stale)).wp (replying succeeding)
      (fun _ z => Visits (x / 32 * 32) z.1) (fun _ _ => False) ([], []) := by
  cases ws with
  | nil => cases hx
  | cons w ws =>
    obtain ⟨f, hf⟩ := hs
    obtain ⟨halign, hend, hlow, hhigh⟩ := hx
    have haddr := toNat_addr w
    have hwin := w.window
    simp only [AddrInWindow, FLASH_MIN, FLASH_MAX, UInt32.reduceToNat] at hwin hend
    have hbase : 0xA0000000 ≤ w.addr := hwin.1
    generalize imageEnd w.addr (accepted w.addr (w :: ws)) = stop at hf hend hhigh
    have hlen := hf.flen
    have hspan : (UInt32.ofNat (stop - w.addr)).toNat = stop - w.addr := by
      rw [UInt32.toNat_ofNat']
      omega
    rw [dispatch_done_holds polls s hf stale, wp_bind]
    have hprog := program_visits s.active.target (UInt64.ofNat w.addr) f
      (UInt32.ofNat (stop - w.addr)) (by
        rw [haddr, hspan, RangeInWindow]
        simp only [FLASH_MIN, FLASH_MAX, UInt32.reduceToNat]
        omega) (by rw [haddr]; exact halign)
    refine wp_mono _ ?_ (fun _ _ h => h.1) (wp_onBus_replying [] hprog)
    rintro rc z ⟨hz, -⟩
    rw [wp_bind, wp_putPacket_replying]
    have hv := hz (x / 32 * 32 - w.addr) (by rw [hspan]; omega) (by omega)
    rw [haddr, Nat.add_sub_cancel' (by omega)] at hv
    exact hv

/-- Inside whole sectors only an image in those sectors can be programmed. -/
theorem kept_programmed (polls : Nat) (s : Stub) (ws : List FlashWrite) (hs : Loaded s ws)
    {P : Nat → Prop} (hP : ∀ x y, P x → x / SECTOR = y / SECTOR → P y) (hkept : DoneKept polls s P)
    {x : Nat} (hx : DonePages ws x) : P x := by
  obtain ⟨o, z, hz, hz'⟩ := exists_run answerOk (dispatchPacket polls s (donePacket []))
  have hdone := hz.sound _ (done_visits polls s ws hs hx [])
  cases o with
  | error e => exact (hdone.2 e rfl).elim
  | ok o =>
    obtain ⟨e, he, ht⟩ := hdone.1 o rfl
    have hpage : P (UInt32.ofNat (x / 32 * 32)).toNat := hkept [] (.ok o) z hz' e he _ ht
    have hbelow := hx.below
    rw [UInt32.toNat_ofNat'] at hpage
    rw [show FLASH_MAX.toNat = 0xA1400000 from rfl] at hbelow
    refine hP _ _ hpage ?_
    simp only [SECTOR]
    omega

/-! ## The gaps -/

/-- In every session, the commands of `vFlashDone` stay inside the erased sectors exactly
when every byte that it programs without a write of the session does. -/
theorem gaps_kept_iff (polls : Nat) (s : Stub) (old : List FlashWrite) (hs : Loaded s old)
    (es : List FlashErase) (ws : List FlashWrite) (s' : Stub)
    (y : List (Event BusSig) × List (List UInt8))
    (hr : Runs (replying anything)
      (dispatchAll polls s (es.map FlashErase.packet ++ ws.map FlashWrite.packet)) ([], [])
      (.ok (some s')) y)
    (hin : ∀ v ∈ ws, ∀ x, v.covers x = true → Erased es y.2 x) :
    DoneKept polls s' (Erased es y.2) ↔ ∀ x, Filler old ws x → Erased es y.2 x := by
  have hl := run_loaded old hs es ws hr
  constructor
  · intro hkept x hx
    exact kept_programmed polls s' _ hl (fun _ _ h => h.of_sector) hkept hx.1
  · intro hfill
    refine done_kept polls s' _ hl fun x hx => ?_
    cases hany : ws.any fun v => v.covers x with
    | true =>
      obtain ⟨v, hv, hc⟩ := List.any_eq_true.mp hany
      exact hin v hv x hc
    | false =>
      refine hfill x ⟨hx, fun v hv => ?_⟩
      simpa using List.any_eq_false.mp hany v hv

/-- The answers of a session on a working bus. -/
def workingReplies (s : Stub) (es : List FlashErase) (ws : List FlashWrite) : List (List UInt8) :=
  ((dispatchAll 0 s (es.map FlashErase.packet ++ ws.map FlashWrite.packet)).exec
    (replyingBy fun tr o => (answerOk o, tr ++ [(⟨o, answerOk o⟩ : Event BusSig)])) ([], [])).2.2

theorem working_run (s : Stub) (old : List FlashWrite) (hs : Loaded s old) (es : List FlashErase)
    (ws : List FlashWrite) :
    ∃ s' tr, Runs (replying anything)
      (dispatchAll 0 s (es.map FlashErase.packet ++ ws.map FlashWrite.packet)) ([], [])
      (.ok (some s')) (tr, workingReplies s es ws) := by
  have hr := runs_replyingBy (E := anything)
    (fun tr o => (answerOk o, tr ++ [(⟨o, answerOk o⟩ : Event BusSig)])) (fun _ _ => rfl)
    (dispatchAll 0 s (es.map FlashErase.packet ++ ws.map FlashWrite.packet)) ([], [])
  have hloaded := hr.sound _ (session_loaded anything 0 s old hs es ws ([], []))
  rw [workingReplies]
  generalize Prog.exec _ _ _ = z at hr hloaded ⊢
  obtain ⟨r | r, tr, out⟩ := z
  · exact (hloaded.2 r rfl).elim
  · obtain ⟨s', rfl, -⟩ := hloaded.1 r rfl
    exact ⟨s', tr, hr⟩

/-- An erase of the first three sectors. -/
def threeSectors : FlashErase := ⟨bytes "a0000000,c000", []⟩

/-- An erase of the third sector. -/
def thirdSector : FlashErase := ⟨bytes "a0008000,4000", []⟩

/-- A zero at the start of the third sector. -/
def farWrite : FlashWrite where
  addrText := bytes "a0008000"
  data := [0]
  raw := [0]
  stale := []
  hex := by decide
  window := by decide
  escapes := escapes_zero
  fits := by decide

/-- Two segments over a gap that is erased with them. -/
theorem gaps_kept_iff_erased : ∃ s' y, Runs (replying anything)
    (dispatchAll 0 .lone [threeSectors.packet, zeroWrite.packet, farWrite.packet]) ([], [])
      (.ok (some s')) y ∧ DoneKept 0 s' (Erased [threeSectors] y.2) := by
  obtain ⟨s', tr, hr⟩ := working_run .lone [] rfl [threeSectors] [zeroWrite, farWrite]
  have hout : (workingReplies .lone [threeSectors] [zeroWrite, farWrite])[0]? =
      some (bytes "OK") := by decide +kernel
  refine ⟨s', _, hr, (gaps_kept_iff 0 .lone [] rfl [threeSectors] [zeroWrite, farWrite] s' _ hr
    ?_).mpr ?_⟩
  · intro v hv x hx
    obtain ⟨hlow, hhigh⟩ := (v.covers_iff x).mp hx
    rcases List.mem_cons.mp hv with rfl | hv
    · exact .segment 0 threeSectors rfl hout (by decide) (by decide) (by decide) hlow hhigh
    · obtain rfl := List.mem_singleton.mp hv
      exact .segment 0 threeSectors rfl hout (by decide) (by decide) (by decide) hlow hhigh
  · rintro x ⟨⟨-, -, hlow, hhigh⟩, -⟩
    exact .segment 0 threeSectors rfl hout (by decide) (by decide) (by decide) hlow hhigh

/-- Two segments with an unerased sector between them, which is programmed. -/
theorem gap_programmed : ∃ s' y, Runs (replying anything)
    (dispatchAll 0 .lone [firstSector.packet, thirdSector.packet, zeroWrite.packet,
      farWrite.packet]) ([], []) (.ok (some s')) y ∧
    (∀ v ∈ [zeroWrite, farWrite], ∀ x, v.covers x = true →
      Erased [firstSector, thirdSector] y.2 x) ∧
    ¬ DoneKept 0 s' (Erased [firstSector, thirdSector] y.2) := by
  obtain ⟨s', tr, hr⟩ := working_run .lone [] rfl [firstSector, thirdSector] [zeroWrite, farWrite]
  have hout : (workingReplies .lone [firstSector, thirdSector] [zeroWrite, farWrite]).take 2 =
      [bytes "OK", bytes "OK"] := by decide +kernel
  generalize workingReplies .lone [firstSector, thirdSector] [zeroWrite, farWrite] = out at hr hout
  have hfirst : out[0]? = some (bytes "OK") := by
    rw [← List.getElem?_take_of_lt (show 0 < 2 by decide), hout]
    rfl
  have hthird : out[1]? = some (bytes "OK") := by
    rw [← List.getElem?_take_of_lt (show 1 < 2 by decide), hout]
    rfl
  refine ⟨s', _, hr, ?_, fun hkept => ?_⟩
  · intro v hv x hx
    obtain ⟨hlow, hhigh⟩ := (v.covers_iff x).mp hx
    rcases List.mem_cons.mp hv with rfl | hv
    · exact .segment 0 firstSector rfl hfirst (by decide) (by decide) (by decide) hlow hhigh
    · obtain rfl := List.mem_singleton.mp hv
      exact .segment 1 thirdSector rfl hthird (by decide) (by decide) (by decide) hlow hhigh
  · have hl : Loaded s' [zeroWrite, farWrite] := 
      run_loaded [] (s := .lone) rfl [firstSector, thirdSector] [zeroWrite, farWrite] hr
    have hgap : DonePages [zeroWrite, farWrite] 0xA0004000 :=
      ⟨by decide, by decide, by decide, by decide⟩
    obtain ⟨i, e, he, -, -, hlow, hlt⟩ :=
      kept_programmed 0 s' _ hl (fun _ _ h => h.of_sector) hkept hgap
    rcases List.mem_cons.mp (List.mem_of_getElem? he) with rfl | he
    · exact absurd hlt (by decide)
    · obtain rfl := List.mem_singleton.mp he
      exact absurd hlow (by decide)

/-- An erase of the second sector. -/
def secondSector : FlashErase := ⟨bytes "a0004000,4000", []⟩

/-- A zero at the start of the second sector. -/
def nearWrite : FlashWrite where
  addrText := bytes "a0004000"
  data := [0]
  raw := [0]
  stale := []
  hex := by decide
  window := by decide
  escapes := escapes_zero
  fits := by decide

/-- A load that was abandoned after its write is programmed by the next one, which did not
erase its sector. -/
theorem abandoned_programmed (s : Stub) (hs : Loaded s [zeroWrite]) (out : List (List UInt8))
    (s' : Stub) (tr : List (Event BusSig))
    (hr : Runs (replying anything) (dispatchAll 0 s [secondSector.packet, nearWrite.packet])
      ([], []) (.ok (some s')) (tr, out)) : ¬ DoneKept 0 s' (Erased [secondSector] out) := by
  intro hkept
  have hl : Loaded s' [zeroWrite, nearWrite] :=
    run_loaded [zeroWrite] hs [secondSector] [nearWrite] hr
  have hold : DonePages [zeroWrite, nearWrite] 0xA0000000 :=
    ⟨by decide, by decide, by decide, by decide⟩
  obtain ⟨i, e, he, -, -, hlow, -⟩ :=
    kept_programmed 0 s' _ hl (fun _ _ h => h.of_sector) hkept hold
  obtain rfl := List.mem_singleton.mp (List.mem_of_getElem? he)
  exact absurd hlow (by decide)

end OpenTricore
