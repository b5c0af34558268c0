import OpenTricore.FlashHw
import OpenTricore.FlashImage
import OpenTricore.Isolation

/-! Loads of flash. An erase acts at once and a write is kept in the buffer until
`vFlashDone`. Here a session of erases, writes and dones is compared with the same
packets executed in order.

* `FlashStep.inOrder`: what each packet is meant to do to flash;
* `Track`: which bytes were written since their erase, which are in the buffer,
  and which of those are older than an erase of their sector;
* `Deferred`: how flash and buffer make up the contents meant, kept by each packet
  (`dispatch_step_deferred`);
* `flash_load_in_order`: the session as a whole. -/

namespace OpenTricore
open Lib Lib.Prog

/-! ## Erase packets -/

/-- A packet `vFlashErase:args`, with whatever text behind the colon. -/
structure FlashErase where
  args : List UInt8
  stale : List UInt8

namespace FlashErase
variable (e : FlashErase)

def packet : Packet := ⟨bytes "vFlashErase:" ++ e.args, e.stale⟩

/-- The start of the range, as the stub reads it. -/
def addr64 : UInt64 := strtoull (e.args ++ [0])

/-- The length of the range, as the stub reads it. -/
def len64 : UInt64 := numberAfterComma (e.args ++ [0])

def addr : Nat := e.addr64.toNat

def len : Nat := e.len64.toNat

end FlashErase

theorem dispatch_erase (polls : Nat) (s : Stub) (e : FlashErase) :
    dispatchPacket polls s e.packet =
      (onBus (tcmcdFlashErase s.active.target e.addr64 e.len64) >>=
        fun rc => putPacket (okOr rc) >>= fun _ => return some s) := by
  have hdrop : e.packet.buf.drop 12 = e.args ++ 0 :: e.stale := by
    simp [FlashErase.packet, Packet.buf, bytes]
  have haddr : strtoull (e.args ++ 0 :: e.stale) = e.addr64 := strtoull_local e.args e.stale
  have hlen : numberAfterComma (e.args ++ 0 :: e.stale) = e.len64 :=
    numberAfterComma_stop e.stale [] e.args
  have hv : ∀ n, handle_v polls s e.packet.buf n =
      (vFlashErase s e.packet.buf >>= fun _ => return s) := fun _ => rfl
  rw [dispatchPacket, dispatch_v polls s _ _ rfl, hv, vFlashErase, hdrop]
  simp only [haddr, hlen, bind_bind]
  rfl

/-! ## Packets in order -/

inductive FlashStep
  | erase (e : FlashErase)
  | write (w : FlashWrite)
  | done (stale : List UInt8)

def FlashStep.packet : FlashStep → Packet
  | .erase e => e.packet
  | .write w => w.packet
  | .done stale => donePacket stale

/-- The sector of `x` is covered by the `len` bytes at `addr`. -/
def covers (addr len x : Nat) : Bool :=
  decide (addr / SECTOR ≤ x / SECTOR) && decide (x / SECTOR * SECTOR < addr + len) &&
    decide (0 < len)

def FlashErase.covers (e : FlashErase) (x : Nat) : Bool := OpenTricore.covers e.addr e.len x

def FlashWrite.covers (w : FlashWrite) (x : Nat) : Bool :=
  decide (w.addr ≤ x) && decide (x < w.segment.stop)

/-- A packet executed at once: an erase sets each covered sector to `0xFF`, a write
ANDs its bytes into flash. -/
def FlashStep.inOrder (m : Mem) : FlashStep → Mem
  | .erase e => fun x => if e.covers x then 0xFF else m x
  | .write w => fun x => if w.covers x then m x &&& w.data.getD (x - w.addr) 0 else m x
  | .done _ => m

def inOrder (m : Mem) (steps : List FlashStep) : Mem := steps.foldl FlashStep.inOrder m

/-! ## Bookkeeping of a session -/

/-- Which bytes were written since their sector was erased, what is in the buffer,
and what in the buffer is stale: older than an erase of its sector. -/
structure Track where
  written : Nat → Bool
  buffered : Nat → Option UInt8
  stale : Nat → Bool

namespace Track

def start : Track := ⟨fun _ => false, fun _ => none, fun _ => false⟩

def step (k : Track) : FlashStep → Track
  | .erase e =>
    { k with
      written := fun x => k.written x && !e.covers x
      stale := fun x => k.stale x || (e.covers x && (k.buffered x).isSome) }
  | .write w =>
    { written := fun x => w.covers x || k.written x
      buffered := w.segment.over k.buffered
      stale := fun x => k.stale x && !w.covers x }
  | .done _ => { k with buffered := fun _ => none, stale := fun _ => false }

/-- An erase stays in the PFLASH window, and no write overlaps bytes already written
since their sector was erased. -/
def Allowed (k : Track) : FlashStep → Prop
  | .erase e => RangeInWindow e.addr e.len
  | .write w => ∀ x, w.covers x = true → k.written x = false
  | .done _ => True

/-- No stale byte is programmed, unless it is `0xFF`; an erase of nothing starts at
a sector boundary. -/
def Clean (k : Track) : FlashStep → Prop
  | .erase e => 0 < e.len ∨ e.addr % SECTOR = 0
  | .write _ => True
  | .done _ => ∀ x, k.stale x = true → k.buffered x = some 0xFF

/-- `P` holds before each step of the session. -/
def All (P : Track → FlashStep → Prop) : Track → List FlashStep → Prop
  | _, [] => True
  | k, st :: steps => P k st ∧ All P (k.step st) steps

end Track

/-! ## Flash and buffer together -/

/-- The buffer is empty, or holds what was buffered. -/
def FlashBuf.Tracks (b : FlashBuf) (buffered : Nat → Option UInt8) : Prop :=
  (b.fbuf = none ∧ ∀ x, buffered x = none) ∨
    ∃ f base stop, AddrInWindow base ∧ b.Holds f base buffered stop

/-- Flash is meant to contain `flash`: what is there now with the buffer ANDed into
it, except for stale bytes, which are erased and are meant to stay so. -/
structure Deferred (k : Track) (flash : Mem) (s : Stub) (hw : FlashHw) : Prop where
  idle : hw.opcode = none
  buffer : s.flash.Tracks k.buffered
  fresh : ∀ x, k.stale x = false → flash x = hw.mem x &&& (k.buffered x).getD 0xFF
  stale : ∀ x, k.stale x = true → flash x = 0xFF ∧ hw.mem x = 0xFF
  tracked : ∀ x, k.buffered x ≠ none → k.written x = true ∨ k.stale x = true

theorem deferred_start (s : Stub) (hs : s.flash.fbuf = none) (hw : FlashHw)
    (hop : hw.opcode = none) : Deferred .start hw.mem s hw where
  idle := hop
  buffer := .inl ⟨hs, fun _ => rfl⟩
  fresh := fun x _ => by
    rw [Track.start, Option.getD_none]
    exact UInt8.and_neg_one.symm
  stale := fun x h => by cases h
  tracked := fun x h => absurd rfl h

/-- The sectors the erase loop visits are those covered. -/
theorem eraseRange_covers (m : Mem) (e : FlashErase)
    (h : 0 < e.len ∨ e.addr % SECTOR = 0) (x : Nat) :
    eraseRange m (e.addr / SECTOR * SECTOR) (eraseStop e.addr e.len) x =
      if e.covers x then 0xFF else m x := by
  simp only [eraseRange, eraseStop, FlashErase.covers, covers, SECTOR] at h ⊢
  congr 1
  simp only [Bool.and_eq_true, decide_eq_true_eq, eq_iff_iff]
  omega

section steps
variable {k : Track} {flash : Mem} {s : Stub} {hw : FlashHw}

theorem Deferred.erase (h : Deferred k flash s hw) (e : FlashErase) (hw' : FlashHw)
    (hidle : hw'.Idle fun x => if e.covers x then 0xFF else hw.mem x) :
    Deferred (k.step (.erase e)) (FlashStep.inOrder flash (.erase e)) s hw' := by
  obtain ⟨hop, hmem⟩ := hidle
  refine ⟨hop, h.buffer, ?_, ?_, ?_⟩
  · intro x hx
    simp only [Track.step, Bool.or_eq_false_iff, FlashStep.inOrder, hmem] at hx ⊢
    cases hc : e.covers x with
    | false =>
      simp only [Bool.false_eq_true, ↓reduceIte]
      exact h.fresh x hx.1
    | true =>
      -- nothing of an erased sector is in the buffer
      have hnone : k.buffered x = none := by simpa [hc] using hx.2
      simp only [↓reduceIte, hnone, Option.getD_none]
      decide
  · intro x hx
    simp only [Track.step, Bool.or_eq_true, FlashStep.inOrder, hmem] at hx ⊢
    cases hc : e.covers x with
    | false =>
      simp only [Bool.false_eq_true, ↓reduceIte]
      exact h.stale x (by simpa [hc] using hx)
    | true => exact ⟨rfl, rfl⟩
  · intro x hx
    simp only [Track.step] at hx ⊢
    cases hc : e.covers x with
    | false => simpa using h.tracked x hx
    | true => exact .inr (by simp [Option.isSome_iff_ne_none, hx])

theorem Deferred.write (h : Deferred k flash s hw) (w : FlashWrite)
    (hall : ∀ x, w.covers x = true → k.written x = false) (s' : Stub)
    (hbuf : s'.flash.Tracks (w.segment.over k.buffered)) :
    Deferred (k.step (.write w)) (FlashStep.inOrder flash (.write w)) s' hw := by
  have hover : ∀ x, w.segment.over k.buffered x =
      if w.covers x then some (w.data.getD (x - w.addr) 0) else k.buffered x := by
    intro x
    simp only [Segment.over, FlashWrite.covers, Bool.and_eq_true, decide_eq_true_eq]
    rfl
  refine ⟨h.idle, hbuf, ?_, ?_, ?_⟩
  · intro x hx
    simp only [Track.step, FlashStep.inOrder, hover] at hx ⊢
    cases hc : w.covers x with
    | false =>
      simp only [Bool.false_eq_true, ↓reduceIte]
      exact h.fresh x (by simpa [hc] using hx)
    | true =>
      simp only [↓reduceIte, Option.getD_some]
      cases hstale : k.stale x with
      | true =>
        obtain ⟨hf, hm⟩ := h.stale x hstale
        rw [hf, hm]
      | false =>
        -- neither written nor stale, so not in the buffer
        have hnone : k.buffered x = none := by
          by_contra hne
          rcases h.tracked x hne with hw | hs
          · rw [hall x hc] at hw
            cases hw
          · rw [hstale] at hs
            cases hs
        rw [h.fresh x hstale, hnone, Option.getD_none, show (0xFF : UInt8) = -1 from rfl,
          UInt8.and_neg_one]
  · intro x hx
    simp only [Track.step, Bool.and_eq_true, Bool.not_eq_true', FlashStep.inOrder] at hx ⊢
    simp only [hx.2, Bool.false_eq_true, ↓reduceIte]
    exact h.stale x hx.1
  · intro x hx
    simp only [Track.step, hover] at hx ⊢
    cases hc : w.covers x with
    | false =>
      simp only [hc, Bool.false_eq_true, ↓reduceIte] at hx
      simpa using h.tracked x hx
    | true => exact .inl (by simp)

theorem Deferred.done (h : Deferred k flash s hw) (stale : List UInt8)
    (hclean : ∀ x, k.stale x = true → k.buffered x = some 0xFF) (s' : Stub)
    (hbuf : s'.flash.fbuf = none) (hw' : FlashHw)
    (hidle : hw'.Idle fun x => hw.mem x &&& (k.buffered x).getD 0xFF) :
    Deferred (k.step (.done stale)) (FlashStep.inOrder flash (.done stale)) s' hw' := by
  obtain ⟨hop, hmem⟩ := hidle
  refine ⟨hop, .inl ⟨hbuf, fun _ => rfl⟩, ?_, ?_, fun x hx => absurd rfl hx⟩
  · intro x _
    simp only [Track.step, FlashStep.inOrder, hmem, Option.getD_none]
    rw [show (0xFF : UInt8) = -1 from rfl, UInt8.and_neg_one]
    cases hstale : k.stale x with
    | false => exact h.fresh x hstale
    | true =>
      obtain ⟨hf, hm⟩ := h.stale x hstale
      rw [hf, hm, hclean x hstale]
      rfl
  · intro x hx
    cases hx

end steps

/-! ## One packet -/

/-- Answers are only ever added. -/
theorem replying_grows {σ α : Type} (E : Env BusSig σ) (p : StubProg α)
    (x : σ × List (List UInt8)) :
    p.wp (replying E) (fun _ y => x.2 <+: y.2) (fun _ y => x.2 <+: y.2) x := by
  induction p generalizing x with
  | ret a => exact List.prefix_refl _
  | fail e => exact List.prefix_refl _
  | ask o k ih =>
    intro r y hy
    have hxy : x.2 <+: y.2 := by
      cases o with
      | bus o => exact hy.2 ▸ List.prefix_refl _
      | putPacket data =>
        rw [hy]
        exact List.prefix_append _ _
      | _ =>
        obtain rfl : y = x := hy
        exact List.prefix_refl _
    exact wp_mono _ (fun _ _ h => hxy.trans h) (fun _ _ h => hxy.trans h) (ih r y)

/-- After one packet: it is answered, and if by `OK` then `P` holds of what it
leaves. -/
def Answered (out : List (List UInt8)) (P : Stub → FlashHw → Prop) (r : Option Stub)
    (y : FlashHw × List (List UInt8)) : Prop :=
  ∃ reply, y.2 = out ++ [reply] ∧ (reply = bytes "OK" → ∃ s', r = some s' ∧ P s' y.1)

/-- The tail that most flash handlers share. -/
theorem wp_okOr (rc : Int) (s' : Stub) (hw : FlashHw) (out : List (List UInt8))
    (P : Stub → FlashHw → Prop) (X : Abort → FlashHw × List (List UInt8) → Prop)
    (h : rc = 0 → P s' hw) :
    (putPacket (okOr rc) >>= fun _ => (return some s' : StubProg (Option Stub))).wp
      (replying flashHw) (Answered out P) X (hw, out) := by
  rw [wp_bind, wp_putPacket_replying]
  refine ⟨okOr rc, rfl, fun hok => ⟨s', rfl, h ?_⟩⟩
  by_contra hne
  rw [okOr, if_pos hne] at hok
  exact absurd hok (by decide)

section packets
variable {k : Track} {flash : Mem} {s : Stub} {hw : FlashHw} (polls : Nat)

theorem dispatch_erase_deferred (h : Deferred k flash s hw) (e : FlashErase)
    (hall : k.Allowed (.erase e)) (hclean : k.Clean (.erase e)) (out : List (List UInt8)) :
    (dispatchPacket polls s e.packet).wp (replying flashHw)
      (Answered out (Deferred (k.step (.erase e)) (FlashStep.inOrder flash (.erase e))))
      (fun _ _ => False) (hw, out) := by
  rw [dispatch_erase, wp_bind]
  have hspec := tcmcdFlashErase_hw s.active.target e.addr64 e.len64 hall hw hw.mem ⟨h.idle, rfl⟩
  refine wp_mono _ ?_ (fun _ _ h => h.1) (wp_onBus_replying out hspec)
  rintro rc ⟨hw', _⟩ ⟨herased, rfl⟩
  refine wp_okOr rc s hw' _ _ _ fun h0 => h.erase e hw' ?_
  obtain ⟨hop, hmem⟩ := herased h0
  exact ⟨hop, hmem.trans (funext (eraseRange_covers _ e hclean))⟩

/-- What the buffer does with a packet that is not below its base. -/
theorem tracks_opened {b : FlashBuf} {buffered : Nat → Option UInt8} (h : b.Tracks buffered)
    (addr : UInt64) (haddr : AddrInWindow addr.toNat) :
    ∃ base stop, AddrInWindow base ∧
      (b.opened addr).1.Holds (b.opened addr).2 base buffered stop ∧
      (addr.toNat < base → ∃ f, b.Holds f base buffered stop) := by
  rcases h with ⟨hnone, hempty⟩ | ⟨f, base, stop, hbase, hf⟩
  · have hopen := opened_holds b addr hnone
    rw [show buffered = fun _ => none from funext hempty]
    exact ⟨addr.toNat, addr.toNat, haddr, hopen, fun hlt => absurd hlt (Nat.lt_irrefl _)⟩
  · refine ⟨base, stop, hbase, ?_, fun _ => ⟨f, hf⟩⟩
    rw [opened_of_holds hf]
    exact hf

theorem dispatch_write_deferred (h : Deferred k flash s hw) (w : FlashWrite)
    (hall : k.Allowed (.write w)) (out : List (List UInt8)) :
    (dispatchPacket polls s w.packet).wp (replying flashHw)
      (Answered out (Deferred (k.step (.write w)) (FlashStep.inOrder flash (.write w))))
      (fun _ _ => False) (hw, out) := by
  have haddr := toNat_addr w
  obtain ⟨base, stop, hbase, hopen, hbelow⟩ := tracks_opened h.buffer (UInt64.ofNat w.addr)
    (haddr.symm ▸ w.window)
  rw [haddr] at hbelow
  rcases Nat.lt_or_ge w.addr base with hlt | hle
  · obtain ⟨f, hf⟩ := hbelow hlt
    rw [dispatch_write_below polls s w hf hlt, wp_bind, wp_putPacket_replying]
    exact ⟨bytes "E01", rfl, fun hok => absurd hok (by decide)⟩
  · obtain ⟨b, f, hd, hb⟩ := dispatch_write_holds polls s w hopen hbase hle
    rw [hd, wp_bind, wp_putPacket_replying]
    exact ⟨bytes "OK", rfl, fun _ => ⟨s.setFlash b, rfl,
      h.write w hall _ (.inr ⟨f, base, _, hbase, hb⟩)⟩⟩

/-- What `vFlashDone` hands over, ANDed into flash. -/
theorem andRange_holds {b : FlashBuf} {f : Nat → UInt8} {base stop : Nat}
    {buffered : Nat → Option UInt8} (h : b.Holds f base buffered stop) (m : Mem) :
    andRange m base (stop - base) f = fun x => m x &&& (buffered x).getD 0xFF := by
  have hlen := h.flen
  have hle := h.flen_le
  funext x
  rw [andRange]
  split
  · rename_i hin
    rw [h.bytes (x - base) (by omega), show base + (x - base) = x by omega]
  · rename_i hout
    have hnone : buffered x = none := by
      by_contra hne
      have := h.inside x hne
      omega
    rw [hnone, Option.getD_none]
    exact UInt8.and_neg_one.symm

theorem dispatch_done_deferred (h : Deferred k flash s hw) (stale : List UInt8)
    (hclean : k.Clean (.done stale)) (out : List (List UInt8)) :
    (dispatchPacket polls s (donePacket stale)).wp (replying flashHw)
      (Answered out (Deferred (k.step (.done stale)) (FlashStep.inOrder flash (.done stale))))
      (fun _ _ => False) (hw, out) := by
  rcases h.buffer with ⟨hnone, hempty⟩ | ⟨f, base, stop, hbase, hf⟩
  · rw [dispatch_done_empty polls s hnone, wp_bind, wp_putPacket_replying]
    refine ⟨bytes "OK", rfl, fun _ => ⟨s, rfl, h.done stale hclean s hnone hw ⟨h.idle, ?_⟩⟩⟩
    funext x
    rw [hempty x, Option.getD_none]
    exact UInt8.and_neg_one.symm
  · have hlen := hf.flen
    have hle := hf.flen_le
    have hcap := hf.fcap
    simp only [AddrInWindow, FLASH_MIN, FLASH_MAX, UInt32.reduceToNat] at hbase
    have haddr : (UInt64.ofNat base).toNat = base := by
      rw [UInt64.toNat_ofNat']
      omega
    have hstop : (UInt32.ofNat (stop - base)).toNat = stop - base := by
      rw [UInt32.toNat_ofNat']
      omega
    rw [dispatch_done_holds polls s hf stale, wp_bind]
    rcases Nat.lt_or_ge FLASH_MAX.toNat stop with hout | hin
    · -- the image leaves the window
      have hrefused : flashRangeOk (UInt64.ofNat base) (UInt32.ofNat (stop - base)).toUInt64 =
          false := by
        rw [← Bool.not_eq_true, flashRangeOk_iff, haddr, UInt32.toNat_toUInt64, hstop]
        simp only [FLASH_MAX, UInt32.reduceToNat] at hout
        omega
      rw [program_refused _ _ _ _ (.inl hrefused)]
      exact wp_okOr (-1) _ _ _ _ _ fun h0 => by cases h0
    · have hspec := tcmcdFlashProgram_hw s.active.target (UInt64.ofNat base) f
        (UInt32.ofNat (stop - base)) (by
          rw [haddr, hstop, RangeInWindow]
          simp only [FLASH_MIN, FLASH_MAX, UInt32.reduceToNat] at hin ⊢
          omega) hw hw.mem ⟨h.idle, rfl⟩
      refine wp_mono _ ?_ (fun _ _ h => h.1) (wp_onBus_replying out hspec)
      rintro rc ⟨hw', _⟩ ⟨hprog, rfl⟩
      refine wp_okOr rc _ hw' _ _ _ fun h0 => h.done stale hclean _ rfl hw' ?_
      have hidle := (hprog h0).2
      rw [haddr, hstop, andRange_holds hf] at hidle
      exact hidle

-- without this, Lean runs the stub on the packet to look for a function type
attribute [local irreducible] Prog.wp in
theorem dispatch_step_deferred (h : Deferred k flash s hw) (st : FlashStep)
    (hall : k.Allowed st) (hclean : k.Clean st) (out : List (List UInt8)) :
    (dispatchPacket polls s st.packet).wp (replying flashHw)
      (Answered out (Deferred (k.step st) (FlashStep.inOrder flash st)))
      (fun _ _ => False) (hw, out) := by
  cases st with
  | erase e => exact dispatch_erase_deferred polls h e hall hclean out
  | write w => exact dispatch_write_deferred polls h w hall out
  | done stale => exact dispatch_done_deferred polls h stale hclean out

end packets

/-! ## Sessions -/

/-- Every reply so far is `OK`. -/
def AllOK (out : List (List UInt8)) : Prop := ∀ reply ∈ out, reply = bytes "OK"

instance (out : List (List UInt8)) : Decidable (AllOK out) := by
  unfold AllOK
  infer_instance

/-- If all packets are answered by `OK`, flash and buffer make up what is meant. -/
theorem dispatchAll_deferred (polls : Nat) (steps : List FlashStep) (k : Track) (flash : Mem)
    (s : Stub) (hw : FlashHw) (out : List (List UInt8)) (h : Deferred k flash s hw)
    (hall : k.All Track.Allowed steps) (hclean : k.All Track.Clean steps) :
    (dispatchAll polls s (steps.map FlashStep.packet)).wp (replying flashHw) (fun r y =>
      AllOK y.2 → ∃ s', r = some s' ∧
        Deferred (steps.foldl Track.step k) (inOrder flash steps) s' y.1)
      (fun _ _ => True) (hw, out) := by
  induction steps generalizing k flash s hw out with
  | nil => exact fun _ => ⟨s, rfl, h⟩
  | cons st steps ih =>
    rw [List.map_cons, dispatchAll, wp_bind]
    refine wp_mono _ ?_ (fun _ _ _ => trivial)
      (dispatch_step_deferred polls h st hall.1 hclean.1 out)
    rintro r ⟨hw', out'⟩ ⟨reply, hout, hok⟩
    by_cases hreply : reply = bytes "OK"
    · obtain ⟨s', rfl, h'⟩ := hok hreply
      exact ih _ _ s' hw' out' h' hall.2 hclean.2
    · -- a refused packet stays refused
      refine wp_mono _ ?_ (fun _ _ _ => trivial) (replying_grows flashHw _ (hw', out'))
      intro r' y hgrows hally
      have hmem : reply ∈ out' := by
        simp only at hout
        simp [hout]
      exact absurd (hally reply (hgrows.subset hmem)) hreply

/-- The session leaves flash as if each packet had been executed at once, if all
packets are answered by `OK`. -/
def LoadsInOrder (polls : Nat) (s : Stub) (hw : FlashHw) (steps : List FlashStep) : Prop :=
  (dispatchAll polls s (steps.map FlashStep.packet)).wp (replying flashHw)
    (fun _ y => AllOK y.2 → y.1.mem = inOrder hw.mem steps) (fun _ _ => True) (hw, [])

/-- A load is in order if no `vFlashDone` of the session programs a byte that an
erase was meant to remove. -/
theorem flash_load_in_order (polls : Nat) (s : Stub) (hs : s.flash.fbuf = none) (hw : FlashHw)
    (hop : hw.opcode = none) (steps : List FlashStep) (stale : List UInt8)
    (hall : Track.start.All Track.Allowed (steps ++ [FlashStep.done stale]))
    (hclean : Track.start.All Track.Clean (steps ++ [FlashStep.done stale])) :
    LoadsInOrder polls s hw (steps ++ [FlashStep.done stale]) := by
  refine wp_mono _ ?_ (fun _ _ h => h) (dispatchAll_deferred polls _ .start hw.mem s hw []
    (deferred_start s hs hw hop) hall hclean)
  intro r y h hok
  obtain ⟨s', -, hd⟩ := h hok
  funext x
  have hempty : ((steps ++ [FlashStep.done stale]).foldl Track.step .start).buffered x = none ∧
      ((steps ++ [FlashStep.done stale]).foldl Track.step .start).stale x = false := by
    rw [List.foldl_append]
    exact ⟨rfl, rfl⟩
  rw [hd.fresh x hempty.2, hempty.1, Option.getD_none]
  exact UInt8.and_neg_one.symm

/-- An erase of the first sector. -/
def firstSector : FlashErase := ⟨bytes "a0000000,4000", []⟩

theorem firstSector_window : RangeInWindow firstSector.addr firstSector.len := by decide

/-- Flash with all bytes zero. -/
def zeroHw : FlashHw := ⟨fun _ => 0, none, 0, none⟩

theorem flash_load_in_order_hash :
    LoadsInOrder 0 .lone zeroHw [.erase firstSector, .write hashWrite, .done []] := by
  refine flash_load_in_order 0 .lone rfl _ rfl [.erase firstSector, .write hashWrite] [] ?_ ?_
  · simp [Track.All, Track.Allowed, Track.step, Track.start, firstSector_window]
  · simp [Track.All, Track.Clean, Track.step, Track.start]
    decide

theorem escapes_zero : Escapes [0] [0] := .plain (by decide) (by decide) .nil

/-- A zero at the start of PFLASH. -/
def zeroWrite : FlashWrite where
  addrText := bytes "a0000000"
  data := [0]
  raw := [0]
  stale := []
  hex := firstAddr_hex
  window := firstAddr_window
  escapes := escapes_zero
  fits := by decide

/-- A bus on which every access succeeds. -/
def FlashHw.working (hw : FlashHw) : (o : BusOp) → BusSig.Res o × FlashHw
  | .read _ _ => (some (0 : UInt32), hw)
  | .write _ a v => (true, hw.write a.address v)

theorem working_flashHw (hw : FlashHw) (o : BusOp) :
    flashHw hw o (hw.working o).1 (hw.working o).2 := by
  cases o with
  | read core a => rfl
  | write core a v => exact .inl ⟨rfl, rfl⟩

/-- A load that is abandoned after a write and restarted with an erase: the write
reaches flash all the same. -/
def restarted : List FlashStep :=
  [.erase firstSector, .write zeroWrite, .erase firstSector, .done []]

theorem restarted_not_in_order :
    Track.start.All Track.Allowed restarted ∧ ¬ LoadsInOrder 0 .lone zeroHw restarted := by
  refine ⟨by simp [restarted, Track.All, Track.Allowed, Track.step, Track.start,
    firstSector_window], fun h => ?_⟩
  have hr := runs_replyingBy FlashHw.working working_flashHw
    (dispatchAll 0 .lone (restarted.map FlashStep.packet)) (zeroHw, [])
  have hret : ((dispatchAll 0 .lone (restarted.map FlashStep.packet)).exec
      (replyingBy FlashHw.working) (zeroHw, [])).1.isOk = true := by decide +kernel
  have hok : AllOK ((dispatchAll 0 .lone (restarted.map FlashStep.packet)).exec
      (replyingBy FlashHw.working) (zeroHw, [])).2.2 := by decide +kernel
  have hmem : ((dispatchAll 0 .lone (restarted.map FlashStep.packet)).exec
      (replyingBy FlashHw.working) (zeroHw, [])).2.1.mem 0xA0000000 = 0 := by decide +kernel
  cases hx : ((dispatchAll 0 .lone (restarted.map FlashStep.packet)).exec
      (replyingBy FlashHw.working) (zeroHw, [])).1 with
  | error e =>
    rw [hx] at hret
    cases hret
  | ok r =>
    have hfinal := congrFun ((hr.sound _ h).1 r hx hok) 0xA0000000
    rw [hmem] at hfinal
    exact absurd hfinal (by decide +kernel)

end OpenTricore
