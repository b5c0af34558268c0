import Mathlib.Logic.Relation
import OpenTricore.Can

/-! The CAN transmit buffer on a real bus. A frame may stay unacknowledged, so that
`can_send` gives up while its request is pending, and the next call finds the buffer in
use. -/

namespace OpenTricore.Can
open Lib Lib.Prog
open DataFlash (MmioOp MmioSig Mmio load store poll wp_load wp_store wp_poll_kept)

/-! ## The controller -/

/-- While its request is pending the controller takes words of the transmit buffer, and
sends what it has taken. `frames` are those on the bus, and `clobbered` is ours: a word of
the buffer was written while the request was pending. -/
structure Bus where
  mem : UInt32 → UInt32
  pending : Bool
  taken : Fin 4 → Option UInt32
  frames : List (Fin 4 → UInt32)
  clobbered : Bool

def bufferWord : Fin 4 → UInt32
  | 0 => bufferAddress + 0x0
  | 1 => bufferAddress + 0x4
  | 2 => bufferAddress + 0x8
  | 3 => bufferAddress + 0xC

namespace Bus

/-- A request for a buffer that is pending is ignored. -/
def write (s : Bus) (a v : UInt32) : Bus :=
  let s := { s with
    mem := Function.update s.mem a v
    clobbered := s.clobbered || (s.pending && decide (a ∈ elementWords bufferAddress)) }
  if a = CAN_TXBAR ∧ v &&& 1 ≠ 0 ∧ s.pending = false then
    { s with pending := true, taken := fun _ => none }
  else s

def take (s : Bus) (i : Fin 4) : Bus :=
  { s with taken := Function.update s.taken i (some (s.mem (bufferWord i))) }

end Bus

/-- What the controller does by itself: the frame may be sent at any time after its words
were taken, also more than once, and the request may end with or without it. -/
inductive Acts (s : Bus) : Bus → Prop
  | take (i : Fin 4) : s.pending = true → Acts s (s.take i)
  | transmit (f : Fin 4 → UInt32) : s.pending = true → (∀ i, s.taken i = some (f i)) →
      Acts s { s with frames := s.frames ++ [f] }
  | complete : s.pending = true → Acts s { s with pending := false }

def Bus.Reads (s : Bus) (a r : UInt32) : Prop := a = CAN_TXBRP → (r &&& 1 ≠ 0 ↔ s.pending = true)

def busAccess : Env MmioSig Bus
  | s, .read a, r, s' => s.Reads a r ∧ s' = s
  | s, .write a v, _, s' => s' = s.write a v

/-- An access, and what the controller does until the next one. -/
def canBus : Env MmioSig Bus :=
  fun s o r s' => ∃ s₁, busAccess s o r s₁ ∧ Relation.ReflTransGen Acts s₁ s'

/-! ## Calls -/

/-- The four words it supplies. -/
def Message.words (c : Message) : Fin 4 → UInt32
  | 0 => (c.id &&& 0x7FF) <<< 18
  | 1 => (clamp c.len &&& 0xF) <<< 16
  | 2 => (pack c.data (clamp c.len).toNat).1
  | 3 => (pack c.data (clamp c.len).toNat).2

/-- A sequence of calls, with whether a request was pending as each of them started. -/
inductive History : Bus → List Message → List Bool → Bus → Prop
  | nil (s : Bus) : History s [] [] s
  | call {s s' s'' : Bus} {c : Message} {cs : List Message} {starts : List Bool} {rc : Int} :
      Runs canBus (canSend c.id c.data c.len) s (.ok rc) s' → History s' cs starts s'' →
      History s (c :: cs) (s.pending :: starts) s''

def Silent (s : Bus) : Prop := s.pending = false ∧ s.frames = [] ∧ s.clobbered = false

/-- The buffer is written only while it is free, and each frame on the bus is that of a call. -/
def Whole (cs : List Message) (s : Bus) : Prop :=
  s.clobbered = false ∧ ∀ f ∈ s.frames, ∃ c ∈ cs, f = c.words

/-! ## Calls that start with the buffer free -/

/-- While a request is pending, the buffer and what was taken of it are those of one call. -/
structure Clean (cs : List Message) (s : Bus) : Prop where
  whole : Whole cs s
  current : s.pending = true → ∃ c ∈ cs, (∀ i, s.mem (bufferWord i) = c.words i) ∧
    ∀ i w, s.taken i = some w → w = c.words i

theorem Clean.acts {cs : List Message} {s s' : Bus} (h : Clean cs s) (hact : Acts s s') :
    Clean cs s' := by
  obtain ⟨⟨hclob, hframes⟩, hcurrent⟩ := h
  cases hact with
  | take i hpending =>
    refine ⟨⟨hclob, hframes⟩, ?_⟩
    intro _
    obtain ⟨c, hc, hmem, htaken⟩ := hcurrent hpending
    refine ⟨c, hc, hmem, ?_⟩
    intro j w hw
    replace hw : Function.update s.taken i (some (s.mem (bufferWord i))) j = some w := hw
    by_cases hj : j = i
    · subst hj
      rw [Function.update_self] at hw
      rw [← Option.some.inj hw, hmem]
    · rw [Function.update_of_ne hj] at hw
      exact htaken j w hw
  | transmit f hpending hf =>
    refine ⟨⟨hclob, ?_⟩, hcurrent⟩
    intro g hg
    rcases List.mem_append.mp hg with hg | hg
    · exact hframes g hg
    · obtain ⟨c, hc, -, htaken⟩ := hcurrent hpending
      refine ⟨c, hc, ?_⟩
      rw [List.mem_singleton.mp hg]
      funext i
      exact htaken i (f i) (hf i)
  | complete hpending => exact ⟨⟨hclob, hframes⟩, fun h => absurd h Bool.false_ne_true⟩

theorem Clean.steps {cs : List Message} {s s' : Bus} (h : Clean cs s)
    (hacts : Relation.ReflTransGen Acts s s') : Clean cs s' := by
  induction hacts with
  | refl => exact h
  | tail _ hact ih => exact ih.acts hact

/-- A free buffer is left alone. -/
theorem free_steps {s s' : Bus} (hs : s.pending = false) (h : Relation.ReflTransGen Acts s s') :
    s' = s := by
  induction h with
  | refl => rfl
  | tail _ hact ih =>
    subst ih
    cases hact with
    | take _ hpending => exact absurd (hs.symm.trans hpending) Bool.false_ne_true
    | transmit _ hpending => exact absurd (hs.symm.trans hpending) Bool.false_ne_true
    | complete hpending => exact absurd (hs.symm.trans hpending) Bool.false_ne_true

theorem wp_storeFree {X : Empty → Bus → Prop} {s : Bus} {Q : Unit → Bus → Prop} {a v : UInt32}
    (hs : s.pending = false) (ha : a ≠ CAN_TXBAR)
    (h : Q () { s with mem := Function.update s.mem a v }) :
    (store a v).wp canBus Q X s := by
  rw [wp_store]
  rintro _ s' ⟨_, rfl, hsteps⟩
  have hwrite : s.write a v = { s with mem := Function.update s.mem a v } := by
    rw [Bus.write, if_neg (fun h => ha h.1), hs, Bool.false_and, Bool.or_false]
  rw [hwrite] at hsteps
  rw [free_steps (by exact hs) hsteps]
  exact h

theorem Message.stored (mem : UInt32 → UInt32) (c : Message) :
    ∀ i, withElement mem bufferAddress (c.words 0)
    (c.words 1) (c.words 2) (c.words 3) (bufferWord i) = c.words i
  | 0 | 1 | 2 | 3 => rfl

/-- The request of a call whose words are in the buffer. -/
theorem Clean.request {cs : List Message} {s : Bus} (h : Clean cs s) (hs : s.pending = false)
    (c : Message)
    (hmem : ∀ i, s.mem (bufferWord i) = c.words i) : Clean (c :: cs) (s.write CAN_TXBAR 1) := by
  have hclob : (s.clobbered || (s.pending && decide (CAN_TXBAR ∈ elementWords bufferAddress))) =
      false := by
    rw [h.whole.1, hs]
    rfl
  have hother : ∀ i, bufferWord i ≠ CAN_TXBAR := by decide
  rw [Bus.write, if_pos ⟨rfl, by decide, hs⟩]
  refine ⟨⟨hclob, ?_⟩, ?_⟩
  · intro f hf
    obtain ⟨d, hd, hfd⟩ := h.whole.2 f hf
    exact ⟨d, .tail _ hd, hfd⟩
  · intro _
    refine ⟨c, .head _, ?_, ?_⟩
    · intro i
      exact (Function.update_of_ne (hother i) ..).trans (hmem i)
    · rintro i w ⟨⟩

/-- A call that starts with the buffer free. -/
theorem wp_canSendFree {X : Empty → Bus → Prop} {cs : List Message} {s : Bus} (h : Clean cs s)
    (hs : s.pending = false) (c : Message) :
    (canSend c.id c.data c.len).wp canBus (fun _ s' => Clean (c :: cs) s') X s := by
  rw [canSend, wp_bind]
  apply wp_storeFree (by exact hs) (by decide)
  rw [wp_bind]
  apply wp_storeFree (by exact hs) (by decide)
  rw [wp_bind]
  apply wp_storeFree (by exact hs) (by decide)
  rw [wp_bind]
  apply wp_storeFree (by exact hs) (by decide)
  rw [wp_bind, wp_store]
  rintro _ s₁ ⟨_, rfl, hsteps⟩
  have hclean : Clean cs { s with
      mem := withElement s.mem bufferAddress (c.words 0) (c.words 1) (c.words 2) (c.words 3) } :=
    ⟨h.whole, fun hpending => absurd (hs.symm.trans hpending) Bool.false_ne_true⟩
  have hs₁ := (hclean.request hs c (c.stored s.mem)).steps hsteps
  rw [wp_bind]
  apply wp_poll_kept canBus (I := Clean (c :: cs)) ?_ ?_ SPIN hs₁
  · rintro s r s' hs ⟨_, ⟨-, rfl⟩, hsteps⟩
    exact hs.steps hsteps
  · intro done s hs
    cases done with
    | true => exact hs
    | false => exact hs

/-- Only calls that find the buffer free. -/
theorem History.clean {s s' : Bus} {cs before : List Message} {starts : List Bool}
    (h : History s cs starts s')
    (hs : Clean before s) (hfree : ∀ b ∈ starts, b = false) : Clean (cs.reverse ++ before) s' := by
  induction h generalizing before with
  | nil s => exact hs
  | @call s s' s'' c cs starts rc hrun _ ih =>
    have hs' := (hrun.sound _ (wp_canSendFree (X := fun _ _ => False) hs (hfree _ (.head _)) c)).1
      rc rfl
    have hend := ih hs' fun b hb => hfree b (.tail _ hb)
    rwa [List.reverse_cons, List.append_assoc]

/-! ## Calls that start with the buffer in use -/

theorem clobbered_kept {s s' : Bus} (h : s.clobbered = true)
    (hacts : Relation.ReflTransGen Acts s s') :
    s'.clobbered = true := by
  induction hacts with
  | refl => exact h
  | tail _ hact ih => cases hact <;> exact ih

/-- What has been clobbered stays so. -/
theorem canBus_clobbered {s s' : Bus} {o : MmioSig.Op} {r : MmioSig.Res o} (h : s.clobbered = true)
    (hask : canBus s o r s') : s'.clobbered = true := by
  obtain ⟨s₁, haccess, hacts⟩ := hask
  apply clobbered_kept ?_ hacts
  cases o with
  | read a =>
    obtain ⟨-, rfl⟩ := haccess
    exact h
  | write a v =>
    cases haccess
    rw [Bus.write, h]
    split <;> rfl

/-- The first access of a call is a write of the buffer. -/
theorem wp_canSendPending {X : Empty → Bus → Prop} {s : Bus}
    (h : s.pending = true ∨ s.clobbered = true)
    (c : Message) : (canSend c.id c.data c.len).wp canBus
      (fun _ s' => s'.clobbered = true) X s := by
  rw [canSend, wp_bind, wp_store]
  rintro r s' ⟨_, rfl, hacts⟩
  have hclob : s'.clobbered = true := by
    apply clobbered_kept ?_ hacts
    rw [Bus.write, if_neg (fun h => absurd h.1 (by decide))]
    rcases h with h | h
    · show (s.clobbered || (s.pending && true)) = true
      rw [h, Bool.and_true, Bool.or_true]
    · rw [h]
      rfl
  apply wp_mono _ (fun _ _ h => h.2) (fun e => e.elim)
    ((asks_anything _).invariant (fun s : Bus => s.clobbered = true)
      (fun _ _ _ _ _ h hask => canBus_clobbered h hask) hclob)

theorem History.clobbers {s s' : Bus} {cs : List Message} {starts : List Bool}
    (h : History s cs starts s')
    (hs : s.clobbered = true ∨ true ∈ starts) : s'.clobbered = true := by
  induction h with
  | nil s =>
    rcases hs with hs | hs
    · exact hs
    · cases hs
  | @call s s' s'' c cs starts rc hrun _ ih =>
    by_cases hstart : s.pending = true ∨ s.clobbered = true
    · exact ih (.inl ((hrun.sound _ (wp_canSendPending (X := fun _ _ => False) hstart c)).1 rc rfl))
    · apply ih
      rcases hs with hs | hs
      · exact absurd (.inr hs) hstart
      · rcases List.mem_cons.mp hs with hs | hs
        · exact absurd (.inl hs.symm) hstart
        · exact .inr hs

/-! ## Possible calls -/

/-- The buffer written and requested. -/
def Bus.loaded (s : Bus) (c : Message) : Bus :=
  ((((s.write (bufferAddress + 0x0) (c.words 0)).write (bufferAddress + 0x4) (c.words 1)).write
    (bufferAddress + 0x8) (c.words 2)).write (bufferAddress + 0xC) (c.words 3)).write CAN_TXBAR 1

theorem Bus.loaded_pending (s : Bus) (c : Message) : (s.loaded c).pending = true := by
  rw [Bus.loaded]
  generalize (((s.write (bufferAddress + 0x0) (c.words 0)).write (bufferAddress + 0x4)
    (c.words 1)).write (bufferAddress + 0x8) (c.words 2)).write (bufferAddress + 0xC)
    (c.words 3) = u
  cases hu : u.pending with
  | true => simp [Bus.write, hu]
  | false => simp [Bus.write, hu]

section
variable {Q : Bus → Prop} {s t : Bus}

theorem can_timeOut (hs : s.pending = true) (hQ : Q s) (n : Nat) :
    (poll CAN_TXBRP (· &&& 1 == 0) n).Can canBus (fun _ => Q) s := by
  induction n with
  | zero => exact can_ret hQ
  | succ n ih =>
    have hread : canBus s (.read CAN_TXBRP) (1 : UInt32) s :=
      ⟨s, ⟨fun _ => iff_of_true (by decide) hs, rfl⟩, .refl⟩
    exact can_ask hread ih

theorem can_finish (hs : s.pending = false) (hQ : Q s) {n : Nat} (hn : 0 < n) :
    (poll CAN_TXBRP (· &&& 1 == 0) n).Can canBus (fun _ => Q) s := by
  have hread : canBus s (.read CAN_TXBRP) (0 : UInt32) s :=
    ⟨s, ⟨fun _ => iff_of_false (by decide) (by rw [hs]; decide), rfl⟩, .refl⟩
  cases n with
  | zero => exact absurd hn (Nat.lt_irrefl 0)
  | succ n => exact can_ask hread (can_ret hQ)

/-- The request ends right after the last poll. -/
theorem can_timeOutThen {R : Bool → Bus → Prop} (hs : s.pending = true)
    (hR : R false { s with pending := false }) (n : Nat) :
    (poll CAN_TXBRP (· &&& 1 == 0) (n + 1)).Can canBus R s := by
  induction n with
  | zero =>
    have hread : canBus s (.read CAN_TXBRP) (1 : UInt32) { s with pending := false } :=
      ⟨s, ⟨fun _ => iff_of_true (by decide) hs, rfl⟩, .single (.complete hs)⟩
    exact can_ask hread (can_ret hR)
  | succ n ih =>
    have hread : canBus s (.read CAN_TXBRP) (1 : UInt32) s :=
      ⟨s, ⟨fun _ => iff_of_true (by decide) hs, rfl⟩, .refl⟩
    exact can_ask hread ih

/-- A call during which the controller acts after the request. -/
theorem can_canSend {R : Int → Bus → Prop} (c : Message)
    (hacts : Relation.ReflTransGen Acts (s.loaded c) t)
    (hpoll : (poll CAN_TXBRP (· &&& 1 == 0) SPIN).Can canBus
      (fun ok => R (if ok then 0 else -1)) t) :
    (canSend c.id c.data c.len).Can canBus R s := by
  have hstore : ∀ (s : Bus) a v, canBus s (.write a v) () (s.write a v) :=
    fun s a v => ⟨_, rfl, .refl⟩
  have hrequest : canBus ((((s.write (bufferAddress + 0x0) (c.words 0)).write
      (bufferAddress + 0x4) (c.words 1)).write (bufferAddress + 0x8) (c.words 2)).write
      (bufferAddress + 0xC) (c.words 3)) (.write CAN_TXBAR 1) () t := ⟨_, rfl, hacts⟩
  apply can_ask (hstore _ _ _)
  apply can_ask (hstore _ _ _)
  apply can_ask (hstore _ _ _)
  apply can_ask (hstore _ _ _)
  apply can_ask hrequest
  apply hpoll.bind
  intro done s' hs'
  cases done with
  | true => exact can_ret hs'
  | false => exact can_ret hs'

end

/-! ## When the buffer is kept -/

/-- From a node at rest, one call and then another. -/
def silent : Bus := ⟨fun _ => 0, false, fun _ => none, [], false⟩
def firstCall : Message := ⟨0x123, fun _ => 0x11, 8⟩
def secondCall : Message := ⟨0x456, fun _ => 0x22, 8⟩

/-- The buffer is kept, and no mixture of two calls is sent, exactly when every call starts
with its request bit clear. -/
theorem buffer_kept_iff (s s' : Bus) (hs : Silent s) (cs : List Message) (starts : List Bool)
    (h : History s cs starts s') : Whole cs s' ↔ ∀ b ∈ starts, b = false := by
  obtain ⟨hpending, hframes, hclob⟩ := hs
  constructor
  · rintro ⟨hkept, -⟩ b hb
    cases b with
    | false => rfl
    | true => exact absurd (hkept.symm.trans (h.clobbers (.inr hb))) Bool.false_ne_true
  · intro hfree
    have hclean : Clean [] s := by
      refine ⟨⟨hclob, ?_⟩, fun h => absurd (hpending.symm.trans h) Bool.false_ne_true⟩
      rw [hframes]
      exact fun f hf => absurd hf List.not_mem_nil
    obtain ⟨hkept, hwhole⟩ := (h.clean hclean hfree).whole
    refine ⟨hkept, ?_⟩
    intro f hf
    obtain ⟨c, hc, hfc⟩ := hwhole f hf
    rw [List.append_nil] at hc
    exact ⟨c, List.mem_reverse.mp hc, hfc⟩

/-- The first call gives up, its request ends before the second call starts, and that of the
second call ends at once. -/
theorem buffer_kept_iff_two : ∃ s s', Runs canBus (canSend 0x123 (fun _ => 0x11) 8) silent
      (.ok (-1)) s ∧
    s.pending = false ∧ History s [secondCall] [false] s' ∧
    (Whole [firstCall, secondCall] s' ↔ ∀ b ∈ [false, false], b = false) := by
  have hpoll₁ : (poll CAN_TXBRP (· &&& 1 == 0) SPIN).Can canBus
      (fun ok s => (if ok then 0 else -1 : Int) = -1 ∧ s.pending = false)
      (silent.loaded firstCall) := can_timeOutThen rfl ⟨rfl, rfl⟩ _
  obtain ⟨_, s, hrun₁, rfl, hs⟩ := can_canSend (s := silent)
    (R := fun rc s => rc = -1 ∧ s.pending = false) firstCall .refl hpoll₁
  have hpoll₂ : (poll CAN_TXBRP (· &&& 1 == 0) SPIN).Can canBus (fun _ _ => True)
      { s.loaded secondCall with pending := false } :=
    can_finish (Q := fun _ => True) rfl trivial (by decide)
  obtain ⟨_, s', hrun₂, -⟩ := can_canSend (R := fun _ _ => True) secondCall
    (.single (.complete (s.loaded_pending secondCall))) hpoll₂
  have h₂ : History s [secondCall] [false] s' := by
    rw [← hs]
    exact .call hrun₂ (.nil _)
  have h : History silent [firstCall, secondCall] [false, false] s' := .call hrun₁ h₂
  exact ⟨s, s', hrun₁, hs, h₂,
    buffer_kept_iff silent s' ⟨rfl, rfl, rfl⟩ [firstCall, secondCall] [false, false] h⟩

/-- The header of the first call with the data of the second. -/
def mixture : Fin 4 → UInt32
  | 0 => firstCall.words 0
  | 1 => firstCall.words 1
  | 2 => secondCall.words 2
  | 3 => secondCall.words 3

/-- The controller took the header of the first call before the time-out, and the data after
the second call. -/
def halfTaken : Bus := ((silent.loaded firstCall).take 0).take 1
def overwritten : Bus := ((halfTaken.loaded secondCall).take 2).take 3
def mixed : Bus := { overwritten with frames := overwritten.frames ++ [mixture], pending := false }

theorem overwritten_taken : ∀ i, overwritten.taken i = some (mixture i)
  | 0 | 1 | 2 | 3 => rfl

/-- The first call is not acknowledged in time, and the second one overwrites it. -/
theorem mixture_on_bus : ∃ s s' starts, Silent s ∧ History s [firstCall, secondCall] starts s' ∧
    s'.clobbered = true ∧ mixture ∈ s'.frames ∧
      ∀ c ∈ [firstCall, secondCall], mixture ≠ c.words := by
  have hfirst : Relation.ReflTransGen Acts (silent.loaded firstCall) halfTaken :=
    .tail (.single (.take 0 rfl)) (.take 1 rfl)
  have hsecond : Relation.ReflTransGen Acts (halfTaken.loaded secondCall) mixed :=
    .tail (.tail (.tail (.single (.take 2 rfl)) (.take 3 rfl))
      (.transmit mixture rfl overwritten_taken))
      (.complete rfl)
  have hpoll₁ : (poll CAN_TXBRP (· &&& 1 == 0) SPIN).Can canBus
      (fun _ s => s = halfTaken) halfTaken :=
    can_timeOut (Q := (· = halfTaken)) rfl rfl SPIN
  have hpoll₂ : (poll CAN_TXBRP (· &&& 1 == 0) SPIN).Can canBus (fun _ s => s = mixed) mixed :=
    can_finish (Q := (· = mixed)) rfl rfl (by decide)
  obtain ⟨_, _, hrun₁, rfl⟩ := can_canSend (R := fun _ s => s = halfTaken) firstCall hfirst hpoll₁
  obtain ⟨_, _, hrun₂, rfl⟩ := can_canSend (R := fun _ s => s = mixed) secondCall hsecond hpoll₂
  refine ⟨silent, mixed, _, ⟨rfl, rfl, rfl⟩, .call hrun₁ (.call hrun₂ (.nil _)), rfl, .head _, ?_⟩
  intro c hc
  rcases List.mem_cons.mp hc with rfl | hc
  · exact fun h => absurd (congrFun h 2) (by decide)
  · rw [List.mem_singleton.mp hc]
    exact fun h => absurd (congrFun h 0) (by decide)

end OpenTricore.Can
