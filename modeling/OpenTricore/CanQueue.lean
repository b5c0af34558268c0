import Mathlib.Data.Bool.AllAny
import OpenTricore.Can
import OpenTricore.Lib.Interleave

/-! The CAN controller in internal loopback, and what the driver does to it. The controller
copies each frame it transmits into the next slot of RX FIFO 0: `can_send` puts its frame at
the end of that queue, and `can_recv` takes the first one out. -/

namespace OpenTricore.Can
open Lib Lib.Prog
open DataFlash (MmioOp MmioSig Mmio load store poll wp_load wp_store)

/-! ## The controller -/

/-- The identifier in word 0 of an element and the length code in word 1. -/
def idField (w : UInt32) : UInt32 := (w >>> 18) &&& 0x7FF
def dlcField (w : UInt32) : UInt32 := (w >>> 16) &&& 0xF

/-- `mem` are the registers and the message RAM. The FIFO holds `fill` elements from slot
`get` on. `polls` is ours: the reads of `TXBRP` since the last request. -/
structure Node where
  mem : UInt32 → UInt32
  pending : Bool
  polls : Nat
  fill : Nat
  get : Nat

namespace Node

/-- The number of slots, and where slot `i` and the transmit buffer are. -/
def size (s : Node) : Nat := ((s.mem CAN_RXF0C >>> 16) &&& 0x7F).toNat
def slot (s : Node) (i : Nat) : UInt32 :=
  CAN_RAM + (s.mem CAN_RXF0C &&& 0xFFFC) + UInt32.ofNat i * ELEM_SZ
def buffer (s : Node) : UInt32 := CAN_RAM + (s.mem CAN_TXBC &&& 0xFFFC)

/-- A write of `TXBAR` requests a transmission, one of `RXF0A` frees the slot it names. -/
def write (s : Node) (a v : UInt32) : Node :=
  let s := { s with mem := Function.update s.mem a v }
  if a = CAN_TXBAR ∧ v &&& 1 ≠ 0 then { s with pending := true, polls := 0 }
  else if a = CAN_RXF0A ∧ v = UInt32.ofNat s.get ∧ 0 < s.fill then
    { s with fill := s.fill - 1, get := (s.get + 1) % s.size }
  else s

end Node

/-- The element at `t` is stored at `e`, with other bits of the header as they come. -/
structure ElementCopied (mem mem' : UInt32 → UInt32) (t e : UInt32) : Prop where
  id : idField (mem' (e + 0x0)) = idField (mem (t + 0x0))
  dlc : dlcField (mem' (e + 0x4)) = dlcField (mem (t + 0x4))
  w0 : mem' (e + 0x8) = mem (t + 0x8)
  w1 : mem' (e + 0xC) = mem (t + 0xC)
  other : ∀ a, a ∉ elementWords e → mem' a = mem a

/-- A requested transmission takes place. With a full FIFO the frame is lost. -/
inductive Transmits (s : Node) : Node → Prop
  | copy (mem' : UInt32 → UInt32) : s.pending = true → s.fill < s.size →
      ElementCopied s.mem mem' s.buffer (s.slot ((s.get + s.fill) % s.size)) →
      Transmits s { s with mem := mem', pending := false, fill := s.fill + 1 }
  | lose : s.pending = true → s.size ≤ s.fill → Transmits s { s with pending := false }

/-- What a register may read. The message RAM ends at the module registers, and a request
does not last for `SPIN` polls. -/
structure Node.Reads (s : Node) (a r : UInt32) : Prop where
  ram : CAN_RAM ≤ a ∧ a < CAN_CLC → r = s.mem a
  fill : a = CAN_RXF0S → r &&& 0x7F = UInt32.ofNat s.fill
  get : a = CAN_RXF0S → (r >>> 8) &&& 0x3F = UInt32.ofNat s.get
  request : a = CAN_TXBRP → (r &&& 1 ≠ 0 ↔ s.pending = true)
  done : a = CAN_TXBRP → s.pending = true → s.polls + 1 < SPIN

def access : Env MmioSig Node
  | s, .read a, r, s' => s.Reads a r ∧
      s' = if a = CAN_TXBRP then { s with polls := s.polls + 1 } else s
  | s, .write a v, _, s' => s' = s.write a v

/-- A transmission takes place at any time. -/
def loopback : Env MmioSig Node := interleave Transmits access

/-! ## Frames -/

/-- A frame, as its sender means it. -/
structure Frame where
  id : UInt32
  payload : List UInt8
  short : payload.length ≤ 8

/-- The frame of `can_send(id, data, len)`. -/
def frameOf (id : UInt32) (data : Nat → UInt8) (len : UInt32) : Frame where
  id := id % 0x800
  payload := (List.range (min len.toNat 8)).map data
  short := by
    rw [List.length_map, List.length_range]
    exact Nat.min_le_right _ _

/-- What `can_recv` stores for a frame: the bytes past the length stay. -/
def Message.store (p : Pointers) (f : Frame) (out : Message) : Message where
  id := if p.id then f.id else out.id
  data := if p.data then fun i => f.payload.getD i (out.data i) else out.data
  len := if p.len then UInt32.ofNat f.payload.length else out.len

/-- The element at `e` is the frame. -/
structure Holds (mem : UInt32 → UInt32) (e : UInt32) (f : Frame) : Prop where
  id : idField (mem (e + 0x0)) = f.id
  dlc : (dlcField (mem (e + 0x4))).toNat = f.payload.length
  bytes : ∀ i (h : i < f.payload.length), byteAt (mem (e + 0x8), mem (e + 0xC)) i = f.payload[i]

theorem Holds.copied {mem mem' : UInt32 → UInt32} {t e : UInt32} {f : Frame} (h : Holds mem t f)
    (hcopy : ElementCopied mem mem' t e) : Holds mem' e f where
  id := hcopy.id.trans h.id
  dlc := by
    rw [hcopy.dlc]
    exact h.dlc
  bytes := by
    rw [hcopy.w0, hcopy.w1]
    exact h.bytes

theorem idField_shifted (id : UInt32) : idField ((id &&& 0x7FF) <<< 18) = id % 0x800 := by
  have hid : (id &&& 0x7FF).toNat = id.toNat % 2 ^ 11 := and_mask_toNat rfl
  rw [idField, field_shifted (k := 11) (by decide) (by decide) rfl (by rw [hid]; omega)]
  exact UInt32.toNat_inj.mp hid

theorem dlcField_shifted {len : UInt32} (h : len.toNat ≤ 8) :
    dlcField ((len &&& 0xF) <<< 16) = len := by
  have hlen : (len &&& 0xF).toNat = len.toNat % 2 ^ 4 := and_mask_toNat rfl
  rw [dlcField, field_shifted (k := 4) (by decide) (by decide) rfl (by rw [hlen]; omega)]
  apply UInt32.toNat_inj.mp
  rw [hlen]
  omega

/-! ## The queue in the controller -/

def slotAddress (i : Nat) : UInt32 := CAN_RAM + RXF0_OFF + UInt32.ofNat i * ELEM_SZ

/-- The FIFO of two slots holds the frames of `q`. -/
structure Queued (q : List Frame) (s : Node) : Prop where
  fifo : s.mem CAN_RXF0C = ((2 : UInt32) <<< 16) ||| RXF0_OFF
  buffer : s.mem CAN_TXBC = ((1 : UInt32) <<< 16) ||| TXB0_OFF
  fill : s.fill = q.length
  get : s.get < 2
  slots : ∀ i (h : i < q.length), Holds s.mem (slotAddress ((s.get + i) % 2)) q[i]

/-- Where the controller looks for the queue. -/
def queueWords : List UInt32 :=
  CAN_RXF0C :: CAN_TXBC :: (elementWords (slotAddress 0) ++ elementWords (slotAddress 1))

theorem Holds.congr {mem mem' : UInt32 → UInt32} {e : UInt32} {f : Frame} (h : Holds mem e f)
    (hsame : ∀ a ∈ elementWords e, mem' a = mem a) : Holds mem' e f := by
  have h0 := hsame (e + 0x0) (by simp [elementWords])
  have h1 := hsame (e + 0x4) (by simp [elementWords])
  have h2 := hsame (e + 0x8) (by simp [elementWords])
  have h3 := hsame (e + 0xC) (by simp [elementWords])
  constructor
  · rw [h0]
    exact h.id
  · rw [h1]
    exact h.dlc
  · rw [h2, h3]
    exact h.bytes

/-- The queue does not depend on the rest of the memory. -/
theorem Queued.congr {q : List Frame} {s s' : Node} (h : Queued q s) (hfill : s'.fill = s.fill)
    (hget : s'.get = s.get) (hsame : ∀ a ∈ queueWords, s'.mem a = s.mem a) : Queued q s' where
  fifo := (hsame _ (by simp [queueWords])).trans h.fifo
  buffer := (hsame _ (by simp [queueWords])).trans h.buffer
  fill := hfill.trans h.fill
  get := hget ▸ h.get
  slots := by
    intro i hi
    rw [hget]
    apply (h.slots i hi).congr
    intro a ha
    apply hsame
    rcases Nat.mod_two_eq_zero_or_one (s.get + i) with hslot | hslot
    · rw [hslot] at ha
      simp [queueWords, ha]
    · rw [hslot] at ha
      simp [queueWords, ha]

section
variable {q : List Frame} {s : Node} {f : Frame}

theorem Node.size_two (h : s.mem CAN_RXF0C = ((2 : UInt32) <<< 16) ||| RXF0_OFF) : s.size = 2 := by
  rw [Node.size, h]
  rfl

theorem Queued.slot_eq (h : Queued q s) (i : Nat) : s.slot i = slotAddress i := by
  rw [Node.slot, h.fifo]
  rfl

theorem Queued.buffer_eq (h : Queued q s) : s.buffer = bufferAddress := by
  rw [Node.buffer, h.buffer]
  rfl

/-- The other slot and the configuration are not in a slot. -/
theorem slot_words {i : Nat} (hi : i < 2) :
    CAN_RXF0C ∉ elementWords (slotAddress i) ∧ CAN_TXBC ∉ elementWords (slotAddress i) ∧
      ∀ a ∈ elementWords (slotAddress (1 - i)), a ∉ elementWords (slotAddress i) := by
  have hi' : i = 0 ∨ i = 1 := by omega
  rcases hi' with rfl | rfl
  · exact ⟨by decide, by decide, List.all_iff_forall_prop.mp (by decide)⟩
  · exact ⟨by decide, by decide, List.all_iff_forall_prop.mp (by decide)⟩

/-- The frame in the transmit buffer joins the queue. -/
theorem Queued.copied (h : Queued q s) (hf : Holds s.mem bufferAddress f) (hlt : q.length < 2)
    {mem' : UInt32 → UInt32}
    (hcopy : ElementCopied s.mem mem' s.buffer (s.slot ((s.get + s.fill) % s.size))) :
    Queued (q ++ [f]) { s with mem := mem', pending := false, fill := s.fill + 1 } := by
  rw [h.buffer_eq, h.slot_eq, Node.size_two h.fifo, h.fill] at hcopy
  obtain ⟨hfifo, hbuffer, hdisjoint⟩ := slot_words (Nat.mod_lt (s.get + q.length) Nat.two_pos)
  constructor
  · exact (hcopy.other _ hfifo).trans h.fifo
  · exact (hcopy.other _ hbuffer).trans h.buffer
  · rw [List.length_append, h.fill]
    rfl
  · exact h.get
  · intro i hi
    rw [List.length_append] at hi
    by_cases hlast : i = q.length
    · subst hlast
      rw [List.getElem_concat_length rfl]
      exact hf.copied hcopy
    · have hold : i < q.length := by
        simp only [List.length_singleton] at hi
        omega
      have hother : (s.get + i) % 2 = 1 - (s.get + q.length) % 2 := by omega
      rw [List.getElem_append_left hold]
      apply (h.slots i hold).congr
      intro a ha
      rw [hother] at ha
      exact hcopy.other a (hdisjoint a ha)

end

/-! ## Sending -/

theorem still {s s' : Node} (hs : s.pending = false) (h : Relation.ReflTransGen Transmits s s') :
    s' = s := by
  induction h with
  | refl => rfl
  | tail _ hstep ih =>
    subst ih
    cases hstep with
    | copy _ hpending => exact absurd (hs.symm.trans hpending) Bool.false_ne_true
    | lose hpending => exact absurd (hs.symm.trans hpending) Bool.false_ne_true

section
variable {X : Empty → Node → Prop} {s : Node} {a : UInt32}

theorem wp_storeStill {Q : Unit → Node → Prop} {v : UInt32} (hs : s.pending = false)
    (h : Q () (s.write a v)) : (store a v).wp loopback Q X s := by
  rw [wp_store]
  rintro _ _ ⟨s₁, hsteps, rfl⟩
  rw [still hs hsteps]
  exact h

theorem wp_loadStill {Q : UInt32 → Node → Prop} (hs : s.pending = false) (ha : a ≠ CAN_TXBRP)
    (h : ∀ r, s.Reads a r → Q r s) : (load a).wp loopback Q X s := by
  rw [wp_load]
  rintro r s' ⟨s₁, hsteps, hreads, hs'⟩
  rw [if_neg ha, still hs hsteps] at hs'
  rw [still hs hsteps] at hreads
  rw [hs']
  exact h r hreads

/-- A word of the message RAM, or a register that only holds its value. -/
theorem wp_storePlain {Q : Unit → Node → Prop} {v : UInt32} (hs : s.pending = false)
    (ha : a ≠ CAN_TXBAR ∧ a ≠ CAN_RXF0A) (h : Q () { s with mem := Function.update s.mem a v }) :
    (store a v).wp loopback Q X s := by
  apply wp_storeStill hs
  rw [Node.write, if_neg (fun h => ha.1 h.1), if_neg (fun h => ha.2 h.1)]
  exact h

end

/-- Nothing is requested. -/
def Idle (q : List Frame) (s : Node) : Prop := Queued q s ∧ s.pending = false

/-- A frame has been requested, and may be in the queue by now. -/
def Sending (q : List Frame) (f : Frame) (s : Node) : Prop :=
  (Queued q s ∧ s.pending = true ∧ Holds s.mem bufferAddress f) ∨ Idle (q ++ [f]) s

theorem Sending.transmits {q : List Frame} {f : Frame} {s s' : Node} (hlt : q.length < 2)
    (h : Sending q f s) (hstep : Transmits s s') : Sending q f s' ∧ s'.pending = false := by
  rcases h with ⟨hq, -, hf⟩ | ⟨-, hidle⟩
  · cases hstep with
    | copy mem' _ _ hcopy => exact ⟨.inr ⟨hq.copied hf hlt hcopy, rfl⟩, rfl⟩
    | lose _ hfull =>
      rw [Node.size_two hq.fifo, hq.fill] at hfull
      omega
  · cases hstep with
    | copy _ hpending => exact absurd (hidle.symm.trans hpending) Bool.false_ne_true
    | lose hpending => exact absurd (hidle.symm.trans hpending) Bool.false_ne_true

/-- The wait ends with the frame in the queue. -/
theorem wp_pollRequest {X : Empty → Node → Prop} {q : List Frame} {f : Frame} (hlt : q.length < 2)
    (n : Nat) {s : Node} (hs : Sending q f s) (hpolls : s.pending = true → s.polls + n = SPIN)
    (hn : 0 < n) :
    (poll CAN_TXBRP (· &&& 1 == 0) n).wp loopback
      (fun done s' => done = true ∧ Idle (q ++ [f]) s') X s := by
  induction n generalizing s with
  | zero => exact absurd hn (Nat.lt_irrefl 0)
  | succ n ih =>
    have hstable : Stable Transmits fun s => Sending q f s ∧
        (s.pending = true → s.polls + (n + 1) = SPIN) := by
      intro s s' h hstep
      obtain ⟨h', hdone⟩ := h.1.transmits hlt hstep
      exact ⟨h', fun hpending => absurd (hdone.symm.trans hpending) Bool.false_ne_true⟩
    rw [poll, wp_bind, wp_load]
    intro r s' hask
    obtain ⟨s₁, ⟨hs₁, hpolls₁⟩, hreads, hs'⟩ :=
      interleave_cases (E := access) hstable ⟨hs, hpolls⟩ hask
    rw [if_pos rfl] at hs'
    have hrequest := hreads.request rfl
    by_cases hr : r &&& 1 = 0
    · have hidle : s₁.pending = false := by
        rw [← Bool.not_eq_true, ← hrequest]
        exact not_not.mpr hr
      rw [if_pos (beq_iff_eq.mpr hr), hs']
      rcases hs₁ with ⟨-, hpending, -⟩ | hs₁
      · exact absurd (hidle.symm.trans hpending) Bool.false_ne_true
      · exact ⟨rfl, hs₁.1.congr rfl rfl (fun _ _ => rfl), hs₁.2⟩
    · have hpending : s₁.pending = true := hrequest.mp hr
      have hcount := hpolls₁ hpending
      have hlast := hreads.done rfl hpending
      rw [if_neg (fun h => hr (beq_iff_eq.mp h)), hs']
      apply ih
      · rcases hs₁ with ⟨hq, -, hf⟩ | hs₁
        · exact .inl ⟨hq.congr rfl rfl (fun _ _ => rfl), hpending, hf⟩
        · exact absurd (hs₁.2.symm.trans hpending) Bool.false_ne_true
      · intro _
        show s₁.polls + 1 + n = SPIN
        omega
      · omega

/-- The element that `can_send` writes. -/
theorem holds_element (mem : UInt32 → UInt32) (e id : UInt32) (data : Nat → UInt8) (len : UInt32)
    (h0 : mem (e + 0x0) = (id &&& 0x7FF) <<< 18) (h1 : mem (e + 0x4) = (clamp len &&& 0xF) <<< 16)
    (h2 : (mem (e + 0x8), mem (e + 0xC)) = pack data (clamp len).toNat) :
    Holds mem e (frameOf id data len) where
  id := by
    rw [h0]
    exact idField_shifted id
  dlc := by
    have hle : (clamp len).toNat ≤ 8 := by
      rw [clamp_toNat]
      exact Nat.min_le_right _ _
    rw [h1, dlcField_shifted hle, clamp_toNat, frameOf, List.length_map, List.length_range]
  bytes := by
    intro i hi
    have hlt : i < min len.toNat 8 := by
      rwa [frameOf, List.length_map, List.length_range] at hi
    have hbyte : (frameOf id data len).payload[i] = data i := by
      simp only [frameOf, List.getElem_map, List.getElem_range]
    rw [h2, byteAt_pack data (by rw [clamp_toNat]; omega) (by omega), clamp_toNat,
      if_pos hlt, hbyte]

/-- The queue is not in the transmit buffer, and neither is in the registers. -/
theorem queue_not_buffer : ∀ a ∈ queueWords, a ∉ elementWords bufferAddress :=
  List.all_iff_forall_prop.mp (by decide)

theorem not_request : CAN_TXBAR ∉ queueWords ∧ CAN_TXBAR ∉ elementWords bufferAddress := by decide

/-- `can_send` puts its frame at the end of the queue. -/
theorem wp_canSend {X : Empty → Node → Prop} {q : List Frame} {s : Node} (hs : Idle q s)
    (hlt : q.length < 2) (id : UInt32) (data : Nat → UInt8) (len : UInt32) :
    (canSend id data len).wp loopback
      (fun rc s' => rc = 0 ∧ Idle (q ++ [frameOf id data len]) s') X s := by
  obtain ⟨hq, hidle⟩ := hs
  obtain ⟨mem, hmem⟩ : ∃ mem, mem = withElement s.mem bufferAddress
    ((id &&& 0x7FF) <<< 18) ((clamp len &&& 0xF) <<< 16) (pack data (clamp len).toNat).1
      (pack data (clamp len).toNat).2 :=
    ⟨_, rfl⟩
  have hholds : Holds mem bufferAddress (frameOf id data len) := by
    rw [hmem]
    exact holds_element _ _ id data len rfl rfl rfl
  have hqueued : Queued q { s with mem := mem } := by
    refine hq.congr rfl rfl ?_
    intro a ha
    rw [hmem]
    exact withElement_other _ _ _ _ _ _ (queue_not_buffer a ha)
  rw [canSend, wp_bind]
  apply wp_storePlain (by exact hidle) (by decide)
  rw [wp_bind]
  apply wp_storePlain (by exact hidle) (by decide)
  rw [wp_bind]
  apply wp_storePlain (by exact hidle) (by decide)
  rw [wp_bind]
  apply wp_storePlain (by exact hidle) (by decide)
  rw [wp_bind]
  apply wp_storeStill (by exact hidle)
  have hstored : Sending q (frameOf id data len) ({ s with mem := mem }.write CAN_TXBAR 1) := by
    refine .inl ⟨?_, rfl, ?_⟩
    · refine hqueued.congr ?_ ?_ ?_
      · rfl
      · rfl
      · intro a ha
        exact Function.update_of_ne (ne_of_mem_of_not_mem ha not_request.1) ..
    · apply hholds.congr
      intro a ha
      exact Function.update_of_ne (ne_of_mem_of_not_mem ha not_request.2) ..
  rw [hmem] at hstored
  rw [wp_bind]
  apply wp_mono _ ?_ (fun _ _ h => h) (wp_pollRequest hlt SPIN hstored ?_ (by decide))
  · rintro _ s' ⟨rfl, hs'⟩
    exact ⟨rfl, hs'⟩
  · intro _
    exact Nat.zero_add SPIN

/-! ## Receiving -/

/-- What `can_recv` returns with the queue `q`. -/
def takeFrom (p : Pointers) (out : Message) : List Frame → Int × Message
  | [] => (1, out)
  | f :: _ => (0, out.store p f)

theorem slot_in_ram {i : Nat} (hi : i < 2) : ∀ a ∈ elementWords (slotAddress i),
    (CAN_RAM ≤ a ∧ a < CAN_CLC) ∧ a ≠ CAN_TXBRP := by
  have hi' : i = 0 ∨ i = 1 := by omega
  rcases hi' with rfl | rfl
  · exact List.all_iff_forall_prop.mp (by decide)
  · exact List.all_iff_forall_prop.mp (by decide)

theorem wp_loadSlot {X : Empty → Node → Prop} {s : Node} {Q : UInt32 → Node → Prop}
    (hs : s.pending = false) {i : Nat} (hi : i < 2) {a : UInt32}
    (ha : a ∈ elementWords (slotAddress i)) (h : Q (s.mem a) s) : (load a).wp loopback Q X s := by
  obtain ⟨hram, hne⟩ := slot_in_ram hi a ha
  apply wp_loadStill hs hne
  intro r hr
  rw [hr.ram hram]
  exact h

theorem not_acknowledge : CAN_RXF0A ∉ queueWords := by decide

/-- The acknowledged slot is free. -/
theorem Idle.acknowledge {f : Frame} {q : List Frame} {s : Node} (hs : Idle (f :: q) s) :
    Idle q (s.write CAN_RXF0A (UInt32.ofNat s.get)) := by
  obtain ⟨hq, hidle⟩ := hs
  have hother : ∀ a ∈ queueWords,
      Function.update s.mem CAN_RXF0A (UInt32.ofNat s.get) a = s.mem a := fun a ha =>
    Function.update_of_ne (ne_of_mem_of_not_mem ha not_acknowledge) ..
  have hkept : Queued (f :: q)
      { s with mem := Function.update s.mem CAN_RXF0A (UInt32.ofNat s.get) } := by
    refine hq.congr ?_ ?_ hother
    · rfl
    · rfl
  have hfill := hkept.fill
  have hack : ¬ (CAN_RXF0A = CAN_TXBAR ∧ UInt32.ofNat s.get &&& 1 ≠ 0) := fun h =>
    absurd h.1 (by decide)
  rw [Node.write, if_neg hack, if_pos ⟨rfl, rfl, hq.fill ▸ Nat.succ_pos _⟩,
    Node.size_two hkept.fifo]
  refine ⟨⟨hkept.fifo, hkept.buffer, ?_, Nat.mod_lt _ Nat.two_pos, ?_⟩, hidle⟩
  · show s.fill - 1 = q.length
    rw [hq.fill]
    rfl
  · intro i hi
    have hnext : ((s.get + 1) % 2 + i) % 2 = (s.get + (i + 1)) % 2 := by omega
    show Holds _ (slotAddress (((s.get + 1) % 2 + i) % 2)) q[i]
    rw [hnext]
    exact hkept.slots (i + 1) (Nat.succ_lt_succ hi)

/-- What is stored of the element. -/
theorem stored_eq {mem : UInt32 → UInt32} {e : UInt32} {f : Frame} (h : Holds mem e f)
    (p : Pointers)
    (out : Message) :
    (if p.data = true then
      { id := if p.id then idField (mem (e + 0x0)) else out.id
        data := unpack (mem (e + 0x8)) (mem (e + 0xC))
          (clamp (dlcField (mem (e + 0x4)))).toNat out.data
        len := if p.len then clamp (dlcField (mem (e + 0x4))) else out.len : Message }
    else
      { id := if p.id then idField (mem (e + 0x0)) else out.id
        data := out.data
        len := if p.len then clamp (dlcField (mem (e + 0x4))) else out.len }) = out.store p f := by
  have hlen : (clamp (dlcField (mem (e + 0x4)))).toNat = f.payload.length := by
    rw [clamp_toNat, h.dlc]
    exact Nat.min_eq_left f.short
  have hdlc : clamp (dlcField (mem (e + 0x4))) = UInt32.ofNat f.payload.length := by
    rw [← hlen, UInt32.ofNat_toNat]
  have hbytes : unpack (mem (e + 0x8)) (mem (e + 0xC)) f.payload.length out.data =
      fun i => f.payload.getD i (out.data i) := by
    funext i
    rw [unpack_apply]
    split
    · rename_i hi
      rw [h.bytes i hi, List.getD_eq_getElem?_getD, List.getElem?_eq_getElem hi, Option.getD_some]
    · rename_i hi
      rw [List.getD_eq_getElem?_getD, List.getElem?_eq_none (Nat.le_of_not_lt hi), Option.getD_none]
  rw [Message.store, h.id, hlen, hdlc, hbytes]
  split <;> rfl

/-- `can_recv` takes the first frame of the queue. -/
theorem wp_canRecv {X : Empty → Node → Prop} {q : List Frame} {s : Node} (hs : Idle q s)
    (hle : q.length ≤ 2) (p : Pointers) (out : Message) :
    (canRecv p out).wp loopback (fun x s' => x = takeFrom p out q ∧ Idle q.tail s') X s := by
  have hidle := hs.2
  rw [canRecv, wp_bind]
  apply wp_loadStill hidle (by decide)
  intro r hr
  rw [hr.fill rfl, hr.get rfl, hs.1.fill]
  cases q with
  | nil => exact ⟨rfl, hs⟩
  | cons f q =>
    have hne : UInt32.ofNat (f :: q).length ≠ 0 := by
      intro h
      have h' := congrArg UInt32.toNat h
      rw [UInt32.toNat_ofNat', Nat.mod_eq_of_lt (by omega)] at h'
      exact Nat.succ_ne_zero _ h'
    have hget := hs.1.get
    have hholds : Holds s.mem (slotAddress s.get) f := by
      have h := hs.1.slots 0 (Nat.succ_pos _)
      rwa [Nat.add_zero, Nat.mod_eq_of_lt hget] at h
    rw [if_neg hne, wp_bind]
    apply wp_loadSlot hidle hget (.head _)
    rw [wp_bind]
    apply wp_loadSlot hidle hget (.tail _ (.head _))
    have hstored := stored_eq hholds p out
    cases hdata : p.data with
    | true =>
      rw [if_pos hdata] at hstored
      rw [if_pos rfl, wp_bind]
      apply wp_loadSlot hidle hget (.tail _ (.tail _ (.head _)))
      rw [wp_bind]
      apply wp_loadSlot hidle hget (.tail _ (.tail _ (.tail _ (.head _))))
      rw [wp_bind]
      apply wp_storeStill hidle
      exact ⟨congrArg (Prod.mk 0) hstored, hs.acknowledge⟩
    | false =>
      rw [if_neg (by rw [hdata]; exact Bool.false_ne_true)] at hstored
      rw [if_neg Bool.false_ne_true, wp_bind]
      apply wp_storeStill hidle
      exact ⟨congrArg (Prod.mk 0) hstored, hs.acknowledge⟩

end OpenTricore.Can
