import Mathlib.Data.List.Forall2
import Mathlib.Logic.Function.Basic
import OpenTricore.DataFlash
import OpenTricore.Lib.Interleave

/-! The mailbox between two cores, `bsp/tc4d7/smp_demo.c` and `smp_c_demo.c`. CPU0 posts
requests and waits a bounded time for each answer, CPU1 answers what it finds. Neither
side locks. -/

namespace OpenTricore.Mailbox
open Lib Lib.Prog
open DataFlash (MmioOp MmioSig Mmio load store wp_load wp_store)

/-! ## The code -/

def REQ : UInt32 := 0xB0400000
def REQ_SEQ : UInt32 := 0xB0400004
def RESP : UInt32 := 0xB0400008
def RESP_SEQ : UInt32 := 0xB040000C

/-- One turn of the loop of CPU1, from `last` to the next `last`. -/
def worker (f : UInt32 → UInt32) (last : UInt32) : Mmio UInt32 := do
  let s ← load REQ_SEQ
  if s ≠ last then
    let q ← load REQ
    store RESP (f q)
    store RESP_SEQ s
    return s
  else return last

def cpu1Worker : UInt32 → Mmio UInt32 := worker fun q => q * 2

theorem sub_decreases {n k : UInt32} (hk : 0 < k.toNat) (h : k.toNat ≤ n.toNat) :
    (n - k).toNat < n.toNat := by
  rw [UInt32.toNat_sub_of_le _ _ (UInt32.le_iff_toNat_le.mpr h)]
  omega

def fib (n : UInt32) : UInt32 := if n < 2 then n else fib (n - 1) + fib (n - 2)
termination_by n.toNat
decreasing_by
  all_goals
    rename_i h
    have hle : 2 ≤ n.toNat := Nat.le_of_not_lt h
  · exact sub_decreases (Nat.one_pos) (Nat.le_of_succ_le hle)
  · exact sub_decreases (Nat.two_pos) hle

def cpu1CWorker : UInt32 → Mmio UInt32 := worker fib

/-- What CPU0 asks in one round. -/
structure Request where
  seq : UInt32
  val : UInt32

/-- `for (int t = 0; t < polls; t++) if (R(RESP_SEQ) == i) { got = 1; break; }`. -/
def await (i : UInt32) : Nat → Mmio Bool
  | 0 => return false
  | t + 1 => do if (← load RESP_SEQ) = i then return true else await i t

/-- One round of CPU0, with the answer it reads. -/
def handshake (polls : Nat) (r : Request) : Mmio (Option UInt32) := do
  store REQ r.val
  store REQ_SEQ r.seq
  if ← await r.seq polls then return some (← load RESP) else return none

def handshakes (polls : Nat) : List Request → Mmio (List (Option UInt32))
  | [] => return []
  | r :: rs => do
    let answer ← handshake polls r
    return answer :: (← handshakes polls rs)

/-- The rounds whose answer CPU0 compared equal. -/
def passed (f : UInt32 → UInt32) (rs : List Request) (answers : List (Option UInt32)) : Nat :=
  (rs.zip answers).countP fun x => x.2 == some (f x.1.val)

/-- The rounds of `smp_demo.c`, which polls 2000000 times, and of `smp_c_demo.c`, which
polls 8000000 times. -/
def smpRounds : List Request := [1, 2, 3, 4, 5, 6, 7, 8].map fun i => ⟨i, 0x1000 * i + 7⟩
def smpCRounds : List Request :=
  [1, 2, 3, 4, 5, 6, 7, 8, 9, 10, 11, 12, 13, 14, 15, 16].map fun i => ⟨i, i⟩

/-- The mailbox is cleared before CPU1 is started. -/
def clear : Mmio Unit := do
  store REQ 0
  store REQ_SEQ 0
  store RESP 0
  store RESP_SEQ 0

/-! ## The shared words -/

abbrev Words := UInt32 → UInt32

/-- Each access is one step on the shared memory. -/
def shared : Env MmioSig Words
  | w, .read a, r, w' => r = w a ∧ w' = w
  | w, .write a v, _, w' => w' = Function.update w a v

/-- Where CPU1 is. -/
inductive Place
  | top (last : UInt32)   -- before `R(REQ_SEQ)`
  | fetch (s : UInt32)   -- before `R(REQ)`
  | answer (s q : UInt32)   -- before the write of `RESP`
  | publish (s : UInt32)   -- before the write of `RESP_SEQ`
  | bottom (last : UInt32)

def Place.code (f : UInt32 → UInt32) : Place → Mmio UInt32
  | .top last => worker f last
  | .fetch s => do
    let q ← load REQ
    store RESP (f q)
    store RESP_SEQ s
    return s
  | .answer s q => do
    store RESP (f q)
    store RESP_SEQ s
    return s
  | .publish s => do
    store RESP_SEQ s
    return s
  | .bottom last => return last

/-- The sequence number CPU1 holds. -/
def Place.seq : Place → UInt32
  | .top s | .fetch s | .answer s _ | .publish s | .bottom s => s

/-- What CPU1 does next. -/
inductive Moves (f : UInt32 → UInt32) (w : Words) : Place → Words → Place → Prop
  | same : Moves f w (.top (w REQ_SEQ)) w (.bottom (w REQ_SEQ))
  | fresh {last : UInt32} : w REQ_SEQ ≠ last → Moves f w (.top last) w (.fetch (w REQ_SEQ))
  | fetch (s : UInt32) : Moves f w (.fetch s) w (.answer s (w REQ))
  | answer (s q : UInt32) : Moves f w (.answer s q) (Function.update w RESP (f q)) (.publish s)
  | publish (s : UInt32) : Moves f w (.publish s) (Function.update w RESP_SEQ s) (.bottom s)
  | again (last : UInt32) : Moves f w (.bottom last) w (.top last)

/-- A step of the worker from a place is the move from there. -/
theorem serves_moves {f : UInt32 → UInt32} {w w' : Words} {p : Place} {c : Mmio UInt32}
    (h : Serves shared (worker f) (w, p.code f) (w', c)) :
    ∃ p', c = p'.code f ∧ Moves f w p w' p' := by
  cases p with
  | top last =>
    cases h with
    | ask ho =>
      obtain ⟨rfl, rfl⟩ := ho
      by_cases hs : w' REQ_SEQ = last
      · subst hs
        exact ⟨.bottom (w' REQ_SEQ), if_neg (not_not.mpr rfl), .same⟩
      · exact ⟨.fetch (w' REQ_SEQ), if_pos hs, .fresh hs⟩
  | fetch s =>
    cases h with
    | ask ho =>
      obtain ⟨rfl, rfl⟩ := ho
      exact ⟨.answer s (w' REQ), rfl, .fetch s⟩
  | answer s q =>
    cases h with
    | ask ho =>
      cases ho
      exact ⟨.publish s, rfl, .answer s q⟩
  | publish s =>
    cases h with
    | ask ho =>
      cases ho
      exact ⟨.bottom s, rfl, .publish s⟩
  | bottom last =>
    cases h with
    | again => exact ⟨.top last, rfl, .again last⟩

theorem serves_load {f : UInt32 → UInt32} (w : Words) (a : UInt32) (k : UInt32 → Mmio UInt32) :
    Serves shared (worker f) (w, load a >>= k) (w, k (w a)) :=
  .ask (S := MmioSig) (o := .read a) (k := k) (r := w a) ⟨rfl, rfl⟩

theorem serves_store {f : UInt32 → UInt32} (w : Words) (a v : UInt32) (k : Unit → Mmio UInt32) :
    Serves shared (worker f) (w, store a v >>= k) (Function.update w a v, k ()) :=
  .ask (S := MmioSig) (o := .write a v) (k := k) (r := ()) rfl

/-- And each move is such a step. -/
theorem Moves.serves {f : UInt32 → UInt32} {w w' : Words} {p p' : Place} (h : Moves f w p w' p') :
    Serves shared (worker f) (w, p.code f) (w', p'.code f) := by
  cases h with
  | same =>
    have hstep := serves_load (f := f) w REQ_SEQ fun s =>
      if s ≠ w REQ_SEQ then (Place.fetch s).code f else return w REQ_SEQ
    rwa [if_neg (not_not.mpr rfl)] at hstep
  | @fresh last hne =>
    have hstep := serves_load (f := f) w REQ_SEQ fun s =>
      if s ≠ last then (Place.fetch s).code f else return last
    rwa [if_pos hne] at hstep
  | fetch s => exact serves_load w REQ _
  | answer s q => exact serves_store w RESP (f q) _
  | publish s => exact serves_store w RESP_SEQ s _
  | again last => exact .again _ _

/-- What every move keeps is stable. -/
theorem stable_of_moves {f : UInt32 → UInt32} {I : Words → Place → Prop}
    (h : ∀ w p w' p', I w p → Moves f w p w' p' → I w' p') :
    Stable (Serves shared (worker f)) (AtPlace (Place.code f) I) := by
  apply stable_atPlace
  intro w p w' c hI hstep
  obtain ⟨p', rfl, hmove⟩ := serves_moves hstep
  exact ⟨p', rfl, h w p w' p' hI hmove⟩

/-! ## The phases of a round -/

/-- All sequence numbers around are old ones. -/
def Old (old : List UInt32) (w : Words) (p : Place) : Prop :=
  w REQ_SEQ ∈ old ∧ w RESP_SEQ ∈ old ∧ p.seq ∈ old

/-- A request is in `REQ`, under an old sequence number yet. -/
def Posted (old : List UInt32) (val : UInt32) (w : Words) (p : Place) : Prop :=
  Old old w p ∧ w REQ = val

/-- What CPU1 may know of round `r` at each place. -/
def Place.Fits (f : UInt32 → UInt32) (r : Request) (w : Words) : Place → Prop
  | .top s | .bottom s => (w RESP_SEQ = r.seq ↔ s = r.seq) ∧ (s = r.seq → w RESP = f r.val)
  | .fetch _ => w RESP_SEQ ≠ r.seq
  | .answer s q => w RESP_SEQ ≠ r.seq ∧ (s = r.seq → q = r.val)
  | .publish s => w RESP_SEQ ≠ r.seq ∧ (s = r.seq → w RESP = f r.val)

/-- The round has been handed to CPU1. -/
structure Handed (f : UInt32 → UInt32) (old : List UInt32) (r : Request) (w : Words) (p : Place) :
    Prop where
  old : Old (r.seq :: old) w p
  val : w REQ = r.val
  seq : w REQ_SEQ = r.seq
  fits : p.Fits f r w

/-- The round has been answered. -/
def Answered (f : UInt32 → UInt32) (old : List UInt32) (r : Request) (w : Words) (p : Place) :
    Prop :=
  Handed f old r w p ∧ w RESP_SEQ = r.seq

section
variable {f : UInt32 → UInt32} {old : List UInt32} {r : Request} {val : UInt32} {w w' : Words}
  {p p' : Place}

/-- CPU1 writes its answers only. -/
theorem Moves.request (h : Moves f w p w' p') : w' REQ = w REQ ∧ w' REQ_SEQ = w REQ_SEQ := by
  cases h with
  | same | fresh | fetch | again => exact ⟨rfl, rfl⟩
  | answer s q => exact ⟨Function.update_of_ne (by decide) .., Function.update_of_ne (by decide) ..⟩
  | publish s => exact ⟨Function.update_of_ne (by decide) .., Function.update_of_ne (by decide) ..⟩

theorem Old.moves (h : Old old w p) (hmove : Moves f w p w' p') : Old old w' p' := by
  obtain ⟨hreq, hresp, hplace⟩ := h
  cases hmove with
  | same => exact ⟨hreq, hresp, hreq⟩
  | fresh _ => exact ⟨hreq, hresp, hreq⟩
  | fetch s => exact ⟨hreq, hresp, hplace⟩
  | answer s q =>
    rw [Old, Function.update_of_ne (by decide), Function.update_of_ne (by decide)]
    exact ⟨hreq, hresp, hplace⟩
  | publish s =>
    rw [Old, Function.update_of_ne (by decide), Function.update_self]
    exact ⟨hreq, hplace, hplace⟩
  | again last => exact ⟨hreq, hresp, hplace⟩

theorem Posted.moves (h : Posted old val w p) (hmove : Moves f w p w' p') : Posted old val w' p' :=
  ⟨h.1.moves hmove, hmove.request.1.trans h.2⟩

/-- While the round stands in the mailbox, CPU1 fits it. -/
theorem Place.Fits.moves (h : p.Fits f r w) (hval : w REQ = r.val) (hseq : w REQ_SEQ = r.seq)
    (hmove : Moves f w p w' p') : p'.Fits f r w' := by
  cases hmove with
  | same => exact h
  | fresh hne =>
    intro hresp
    exact hne (hseq.trans (h.1.mp hresp).symm)
  | fetch s => exact ⟨h, fun _ => hval⟩
  | answer s q =>
    constructor
    · rw [Function.update_of_ne (by decide)]
      exact h.1
    · intro hs
      rw [Function.update_self, h.2 hs]
  | publish s =>
    constructor
    · rw [Function.update_self]
    · intro hs
      rw [Function.update_of_ne (by decide)]
      exact h.2 hs
  | again last => exact h

theorem Handed.moves (h : Handed f old r w p) (hmove : Moves f w p w' p') :
    Handed f old r w' p' where
  old := h.old.moves hmove
  val := hmove.request.1.trans h.val
  seq := hmove.request.2.trans h.seq
  fits := h.fits.moves h.val h.seq hmove

/-- An answered round stays answered: CPU1 sees no other sequence number. -/
theorem Answered.moves (h : Answered f old r w p) (hmove : Moves f w p w' p') :
    Answered f old r w' p' := by
  refine ⟨h.1.moves hmove, ?_⟩
  have hfits := h.1.fits
  cases hmove with
  | same | fresh | fetch | again => exact h.2
  | answer s q => exact absurd h.2 hfits.1
  | publish s => exact absurd h.2 hfits.1

/-- The answer of an answered round. -/
theorem Answered.resp (h : Answered f old r w p) : w RESP = f r.val := by
  have hfits := h.1.fits
  cases p with
  | top s => exact hfits.2 (hfits.1.mp h.2)
  | fetch s => exact absurd h.2 hfits
  | answer s q => exact absurd h.2 hfits.1
  | publish s => exact absurd h.2 hfits.1
  | bottom s => exact hfits.2 (hfits.1.mp h.2)

/-- A number that is not around yet fits any place. -/
theorem Place.fits_new (hresp : w RESP_SEQ ≠ r.seq) (hplace : p.seq ≠ r.seq) : p.Fits f r w := by
  cases p with
  | top s => exact ⟨iff_of_false hresp hplace, fun hs => absurd hs hplace⟩
  | fetch s => exact hresp
  | answer s q => exact ⟨hresp, fun hs => absurd hs hplace⟩
  | publish s => exact ⟨hresp, fun hs => absurd hs hplace⟩
  | bottom s => exact ⟨iff_of_false hresp hplace, fun hs => absurd hs hplace⟩

theorem Old.post (h : Old old w p) (val : UInt32) :
    Posted old val (Function.update w REQ val) p := by
  rw [Posted, Old, Function.update_of_ne (by decide), Function.update_of_ne (by decide)]
  exact ⟨h, Function.update_self ..⟩

theorem Posted.hand (h : Posted old r.val w p) (hnew : r.seq ∉ old) :
    Handed f old r (Function.update w REQ_SEQ r.seq) p where
  old := by
    rw [Old, Function.update_self, Function.update_of_ne (by decide)]
    exact ⟨.head _, .tail _ h.1.2.1, .tail _ h.1.2.2⟩
  val := by
    rw [Function.update_of_ne (by decide)]
    exact h.2
  seq := Function.update_self ..
  fits := by
    apply Place.fits_new
    · rw [Function.update_of_ne (by decide)]
      exact ne_of_mem_of_not_mem h.1.2.1 hnew
    · exact ne_of_mem_of_not_mem h.1.2.2 hnew

end

/-! ## Runs -/

/-- CPU0's accesses, with CPU1 going on between any two of them. -/
def twoCores (f : UInt32 → UInt32) : Env MmioSig (Words × Mmio UInt32) :=
  withServer shared (worker f)

section
variable {f : UInt32 → UInt32} {I : Words → Place → Prop} {X : Empty → Words × Mmio UInt32 → Prop}
  {s : Words × Mmio UInt32}

theorem wp_load_kept {Q : UInt32 → Words × Mmio UInt32 → Prop}
    (hI : ∀ w p w' p', I w p → Moves f w p w' p' → I w' p') (a : UInt32)
    (hs : AtPlace (Place.code f) I s)
    (h : ∀ w p, I w p → Q (w a) (w, p.code f)) : (load a).wp (twoCores f) Q X s := by
  rw [wp_load]
  rintro r ⟨w', c'⟩ hask
  obtain ⟨⟨w, c⟩, ⟨p, hc, hp⟩, ⟨hr, hw⟩, hkept⟩ :=
    interleave_cases (E := beside shared) (stable_of_moves hI) hs hask
  cases hw
  cases hkept
  cases hc
  rw [hr]
  exact h w' p hp

theorem wp_store_kept {Q : Unit → Words × Mmio UInt32 → Prop}
    (hI : ∀ w p w' p', I w p → Moves f w p w' p' → I w' p') (a v : UInt32)
    (hs : AtPlace (Place.code f) I s)
    (h : ∀ w p, I w p → Q () (Function.update w a v, p.code f)) :
    (store a v).wp (twoCores f) Q X s := by
  rw [wp_store]
  rintro r ⟨w', c'⟩ hask
  obtain ⟨⟨w, c⟩, ⟨p, hc, hp⟩, hw, hkept⟩ :=
    interleave_cases (E := beside shared) (stable_of_moves hI) hs hask
  cases hw
  cases hkept
  cases hc
  exact h w p hp

/-- A poll that succeeds found the round answered. -/
theorem wp_await {old : List UInt32} {r : Request} {Q : Bool → Words × Mmio UInt32 → Prop}
    (hgot : ∀ s, AtPlace (Place.code f) (Answered f old r) s → Q true s)
    (hnot : ∀ s, AtPlace (Place.code f) (Handed f old r) s → Q false s)
    (polls : Nat) (hs : AtPlace (Place.code f) (Handed f old r) s) :
    (await r.seq polls).wp (twoCores f) Q X s := by
  induction polls generalizing s with
  | zero => exact hnot s hs
  | succ t ih =>
    rw [await, wp_bind]
    apply wp_load_kept (fun _ _ _ _ h => h.moves) RESP_SEQ hs
    intro w p hp
    split
    · rename_i hseq
      exact hgot _ ⟨p, rfl, hp, hseq⟩
    · exact ih ⟨p, rfl, hp⟩

end

/-- An answer that was read is the answer to the request. -/
def Matches (f : UInt32 → UInt32) (r : Request) (answer : Option UInt32) : Prop :=
  ∀ v, answer = some v → v = f r.val

theorem wp_handshake {f : UInt32 → UInt32} {X : Empty → Words × Mmio UInt32 → Prop}
    {old : List UInt32} {r : Request} (hnew : r.seq ∉ old) (polls : Nat) {s : Words × Mmio UInt32}
    (hs : AtPlace (Place.code f) (Old old) s) :
    (handshake polls r).wp (twoCores f) (fun answer s' => Matches f r answer ∧
      AtPlace (Place.code f) (Old (r.seq :: old)) s') X s := by
  rw [handshake, wp_bind]
  apply wp_store_kept (fun _ _ _ _ h => h.moves) REQ r.val hs
  intro w p hp
  rw [wp_bind]
  apply wp_store_kept (fun _ _ _ _ h => h.moves) REQ_SEQ r.seq ⟨p, rfl, hp.post r.val⟩
  intro w p hp
  rw [wp_bind]
  have hhanded : AtPlace (Place.code f) (Handed f old r) (_, Place.code f p) :=
    ⟨p, rfl, hp.hand hnew⟩
  apply wp_await ?_ ?_ polls hhanded
  · intro s hs
    rw [if_pos rfl, wp_bind]
    apply wp_load_kept (fun _ _ _ _ h => h.moves) RESP hs
    intro w p hp
    refine ⟨?_, p, rfl, hp.1.old⟩
    rintro _ ⟨⟩
    exact hp.resp
  · intro s hs
    rw [if_neg Bool.false_ne_true]
    refine ⟨?_, hs.mono fun _ _ h => h.old⟩
    rintro v ⟨⟩

/-- Round by round: the numbers used so far are old ones. -/
theorem wp_handshakes {f : UInt32 → UInt32} {X : Empty → Words × Mmio UInt32 → Prop} (polls : Nat)
    (rs : List Request) (old : List UInt32) (hnodup : (old ++ rs.map (·.seq)).Nodup)
    (s : Words × Mmio UInt32) (hs : AtPlace (Place.code f) (Old old) s) :
    (handshakes polls rs).wp (twoCores f)
    (fun answers _ => List.Forall₂ (Matches f) rs answers) X s := by
  induction rs generalizing old s with
  | nil => exact .nil
  | cons r rs ih =>
    have hnew : r.seq ∉ old := fun h =>
      (List.nodup_append.mp hnodup).2.2 _ h _ (.head _) rfl
    have hnodup' : ((r.seq :: old) ++ rs.map (·.seq)).Nodup :=
      List.perm_middle.nodup_iff.mp hnodup
    rw [handshakes, wp_bind]
    apply wp_mono _ ?_ (fun _ _ h => h) (wp_handshake hnew polls hs)
    rintro answer s' ⟨hanswer, hs'⟩
    rw [wp_bind]
    apply wp_mono _ ?_ (fun _ _ h => h) (ih (r.seq :: old) hnodup' s' hs')
    intro answers _ hanswers
    exact .cons hanswer hanswers

/-- CPU1 has been started on a cleared mailbox. -/
def Started (f : UInt32 → UInt32) (s : Words × Mmio UInt32) : Prop :=
  ∃ w₀ w, Runs shared clear w₀ (.ok ()) w ∧ s = (w, worker f 0)

theorem clear_zero (w₀ : Words) :
    clear.wp shared (fun _ w => w REQ_SEQ = 0 ∧ w RESP_SEQ = 0) (fun _ _ => False) w₀ := by
  rintro _ _ rfl _ _ rfl _ _ rfl _ _ rfl
  exact ⟨rfl, rfl⟩

theorem Started.old {f : UInt32 → UInt32} {s : Words × Mmio UInt32} (h : Started f s) :
    AtPlace (Place.code f) (Old [0]) s := by
  obtain ⟨w₀, w, hclear, rfl⟩ := h
  obtain ⟨hreq, hresp⟩ := (hclear.sound _ (clear_zero w₀)).1 () rfl
  refine ⟨.top 0, rfl, ?_⟩
  exact ⟨List.mem_singleton.mpr hreq, List.mem_singleton.mpr hresp, .head _⟩

theorem shared_answers (w : Words) (o : MmioOp) : ∃ r w', shared w o r w' := by
  cases o with
  | read a => exact ⟨w a, w, rfl, rfl⟩
  | write a v => exact ⟨(), _, rfl⟩

section
variable {α : Type} {f : UInt32 → UInt32} {Q : α → Words × Mmio UInt32 → Prop}
  {s s₁ : Words × Mmio UInt32}

theorem can_load {a : UInt32} {k : UInt32 → Mmio α}
    (hs : Relation.ReflTransGen (Serves shared (worker f)) s s₁)
    (hk : (k (s₁.1 a)).Can (twoCores f) Q s₁) :
    (load a >>= k).Can (twoCores f) Q s := by
  have hask : twoCores f s (.read a) (s₁.1 a) s₁ := ⟨s₁, hs, ⟨rfl, rfl⟩, rfl⟩
  exact can_ask hask hk

theorem can_store {a v : UInt32} {k : Unit → Mmio α}
    (hs : Relation.ReflTransGen (Serves shared (worker f)) s s₁)
    (hk : (k ()).Can (twoCores f) Q (Function.update s₁.1 a v, s₁.2)) :
    (store a v >>= k).Can (twoCores f) Q s := by
  have hask : twoCores f s (.write a v) () (Function.update s₁.1 a v, s₁.2) := ⟨s₁, hs, rfl, rfl⟩
  exact can_ask hask hk

end

/-- The memory with a request in it. -/
def Words.asked (w : Words) (r : Request) : Words :=
  Function.update (Function.update w REQ r.val) REQ_SEQ r.seq

theorem Words.asked_resp (w : Words) (r : Request) : w.asked r RESP_SEQ = w RESP_SEQ := by
  rw [asked, Function.update_of_ne (by decide), Function.update_of_ne (by decide)]

/-- While CPU1 makes no access, no poll succeeds. -/
theorem can_await_timeout (f : UInt32 → UInt32) {i : UInt32} {s : Words × Mmio UInt32}
    (hne : s.1 RESP_SEQ ≠ i) (polls : Nat) :
    (await i polls).Can (twoCores f) (fun got s' => got = false ∧ s' = s) s := by
  induction polls with
  | zero => exact can_ret ⟨rfl, rfl⟩
  | succ t ih =>
    rw [await]
    apply can_load .refl
    rw [if_neg hne]
    exact ih

/-- A round can time out, with its request left in the mailbox. -/
theorem can_timeout (f : UInt32 → UInt32) (w : Words) {last : UInt32} {r : Request}
    (hnew : w RESP_SEQ ≠ r.seq) (polls : Nat) :
    (handshake polls r).Can (twoCores f)
      (fun answer s' => answer = none ∧ s' = (w.asked r, worker f last)) (w, worker f last) := by
  rw [handshake]
  apply can_store .refl
  apply can_store .refl
  have hwait := can_await_timeout f (s := (w.asked r, worker f last))
    ((w.asked_resp r).trans_ne hnew) polls
  apply hwait.bind
  rintro got s' ⟨rfl, rfl⟩
  rw [if_neg Bool.false_ne_true]
  exact can_ret ⟨rfl, rfl⟩

/-- A waiting CPU1 can answer a new number in time. -/
theorem can_answer (f : UInt32 → UInt32) (w : Words) {last : UInt32} {r : Request}
    (hnew : r.seq ≠ last) (polls : Nat) :
    (handshake (polls + 1) r).Can (twoCores f) (fun answer _ => answer = some (f r.val))
      (w, worker f last) := by
  obtain ⟨asked, hasked⟩ : ∃ w', w' = w.asked r := ⟨_, rfl⟩
  obtain ⟨done, hdone⟩ :
      ∃ w', w' = Function.update (Function.update asked RESP (f r.val)) RESP_SEQ r.seq := ⟨_, rfl⟩
  have hseq : asked REQ_SEQ = r.seq := by rw [hasked, Words.asked, Function.update_self]
  have hval : asked REQ = r.val := by
    rw [hasked, Words.asked, Function.update_of_ne (by decide), Function.update_self]
  have hgot : done RESP_SEQ = r.seq := by rw [hdone, Function.update_self]
  have hresp : done RESP = f r.val := by
    rw [hdone, Function.update_of_ne (by decide), Function.update_self]
  have hfetch : Moves f asked (.top last) asked (.fetch r.seq) := by
    rw [← hseq]
    exact .fresh (hseq.trans_ne hnew)
  have hanswer : Moves f asked (.fetch r.seq) asked (.answer r.seq r.val) := by
    rw [← hval]
    exact .fetch _
  have hpublish : Moves f (Function.update asked RESP (f r.val)) (.publish r.seq) done
      (.bottom r.seq) := by
    rw [hdone]
    exact .publish _
  have hsteps : Relation.ReflTransGen (Serves shared (worker f)) (asked, worker f last)
      (done, (Place.bottom r.seq).code f) :=
    .head hfetch.serves (.head hanswer.serves
      (.head (Moves.answer _ _).serves (.single hpublish.serves)))
  rw [handshake]
  apply can_store .refl
  apply can_store .refl
  rw [← Words.asked, ← hasked, await, bind_bind]
  apply can_load hsteps
  rw [if_pos hgot, pure_eq, ret_bind, if_pos rfl]
  apply can_load .refl
  exact can_ret (congrArg some hresp)

/-- No answered round fails the comparison. -/
theorem passed_of_matches {f : UInt32 → UInt32} {rs : List Request} {answers : List (Option UInt32)}
    (h : List.Forall₂ (Matches f) rs answers) :
      passed f rs answers = answers.countP Option.isSome := by
  induction h with
  | nil => rfl
  | @cons r answer rs answers hanswer _ ih =>
    rw [passed] at ih ⊢
    rw [List.zip_cons_cons, List.countP_cons, List.countP_cons, ih]
    congr 1
    cases answer with
    | none => rfl
    | some v => rw [hanswer v rfl, beq_self_eq_true, Option.isSome_some]

/-- The heartbeat of either demo is the number of rounds CPU1 answered in time. -/
theorem smp_passed {s s' : Words × Mmio UInt32} {answers : List (Option UInt32)}
    (hs : Started (· * 2) s)
    (h : Runs (withServer shared cpu1Worker) (handshakes 2000000 smpRounds) s (.ok answers) s') :
    passed (· * 2) smpRounds answers = answers.countP Option.isSome := by
  apply passed_of_matches
  exact (h.sound _ (wp_handshakes (X := fun _ _ => True) _ _ [0] (by decide) s hs.old)).1 answers
    rfl

theorem smpC_passed {s s' : Words × Mmio UInt32} {answers : List (Option UInt32)}
    (hs : Started fib s)
    (h : Runs (withServer shared cpu1CWorker) (handshakes 8000000 smpCRounds) s (.ok answers) s') :
    passed fib smpCRounds answers = answers.countP Option.isSome := by
  apply passed_of_matches
  exact (h.sound _ (wp_handshakes (X := fun _ _ => True) _ _ [0] (by decide) s hs.old)).1 answers
    rfl

/-- However the accesses of the cores interleave, and whichever waits time out, an answer
that CPU0 takes for the one of its round is the function of that round's request. -/
theorem answers_match_requests (f : UInt32 → UInt32) (polls : Nat) (rs : List Request)
    (hseq : (0 :: rs.map (·.seq)).Nodup) (s s' : Words × Mmio UInt32) (hs : Started f s)
    (answers : List (Option UInt32))
    (h : Runs (twoCores f) (handshakes polls rs) s (.ok answers) s') :
    List.Forall₂ (Matches f) rs answers :=
  (h.sound _ (wp_handshakes (X := fun _ _ => True) polls rs [0] hseq s hs.old)).1 answers rfl

/-- Two rounds of the doubling worker: the first times out, and 7 is answered with 14. -/
theorem answers_match_requests_two : ∃ s s', Started (fun q => q * 2) s ∧
    Runs (twoCores fun q => q * 2) (handshakes 1 [⟨1, 5⟩, ⟨2, 7⟩]) s (.ok [none, some 14]) s' ∧
    List.Forall₂ (Matches fun q => q * 2) [⟨1, 5⟩, ⟨2, 7⟩] [none, some 14] := by
  obtain ⟨_, w, hclear, -, hresp⟩ := (asks_anything clear).can (fun w o _ => shared_answers w o)
    (clear_zero fun _ => 0)
  have hstarted : Started (fun q => q * 2) (w, worker (fun q => q * 2) 0) := ⟨_, w, hclear, rfl⟩
  have hnew : w RESP_SEQ ≠ (⟨1, 5⟩ : Request).seq := hresp.trans_ne (by decide)
  have hlate : (handshake 1 ⟨1, 5⟩).Can (twoCores fun q => q * 2)
      (fun answer s' => answer = none ∧ s' = (w.asked ⟨1, 5⟩, worker (fun q => q * 2) 0))
      (w, worker (fun q => q * 2) 0) := can_timeout _ w hnew 1
  obtain ⟨_, _, hfirst, rfl, rfl⟩ := hlate
  obtain ⟨_, s', hsecond, rfl⟩ := can_answer (fun q => q * 2) (w.asked ⟨1, 5⟩) (r := ⟨2, 7⟩)
    (show (2 : UInt32) ≠ 0 by decide) 0
  have hrest : Runs (twoCores fun q => q * 2) (handshakes 1 [⟨2, 7⟩]) _ (.ok [some 14]) s' :=
    hsecond.bind (.ret _ _)
  have hrun : Runs (twoCores fun q => q * 2) (handshakes 1 [⟨1, 5⟩, ⟨2, 7⟩]) _
      (.ok [none, some 14]) s' :=
    hfirst.bind (hrest.bind (.ret _ _))
  exact ⟨_, s', hstarted, hrun, answers_match_requests _ 1 _ (by decide) _ s' hstarted _ hrun⟩

end OpenTricore.Mailbox
