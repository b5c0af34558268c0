import OpenTricore.Handlers

/-! The flash buffer. `vFlashWrite` packets are collected in a growing buffer and
handed to the programming function by `vFlashDone`. Here the buffer is shown to
hold, for every order, overlap and gap of the packets, the bytes written last and
`0xFF` elsewhere.

* `unescape_escapes`: the payload is decoded;
* `FlashBuf.Holds`: what the buffer is at any time, kept by each packet
  (`flashStore_holds`);
* `flash_image_exact`: what `vFlashDone` programs. -/

namespace OpenTricore
open Lib Lib.Prog

/-! ## Binary escaping -/

/-- `raw` is an RSP encoding of `data`: any byte may be escaped, `#` and the
escape character must be. -/
inductive Escapes : List UInt8 → List UInt8 → Prop
  | nil : Escapes [] []
  | plain {b : UInt8} {data raw : List UInt8} (hesc : b ≠ 0x7d) (hhash : b ≠ 35)
      (h : Escapes data raw) : Escapes (b :: data) (b :: raw)
  | escaped {data raw : List UInt8} (b : UInt8) (h : Escapes data raw) :
      Escapes (b :: data) (0x7d :: (b ^^^ 0x20) :: raw)

theorem Escapes.length_le {data raw : List UInt8} (h : Escapes data raw) :
    data.length ≤ raw.length := by
  induction h with
  | nil => exact Nat.le_refl _
  | plain _ _ _ ih => simp only [List.length_cons]; omega
  | escaped _ _ ih => simp only [List.length_cons]; omega

theorem unescape_plain (n : Nat) (b : UInt8) (d : List UInt8) (h : b ≠ 0x7d) :
    unescape (n + 1) (b :: d) = b :: unescape n d := by
  cases n with
  | zero => simp [unescape, h]
  | succ n => simp [unescape, h]

theorem unescape_escapes {data raw : List UInt8} (h : Escapes data raw) (t : List UInt8) :
    unescape raw.length (raw ++ t) = data := by
  induction h with
  | nil => rfl
  | plain hesc _ _ ih => rw [List.length_cons, List.cons_append, unescape_plain _ _ _ hesc, ih]
  | escaped b _ ih =>
    have hb : b ^^^ 0x20 ^^^ 0x20 = b := by rw [UInt8.xor_assoc, UInt8.xor_self, UInt8.xor_zero]
    simp [unescape, ih, hb]

/-! ## Segments -/

/-- Bytes for consecutive addresses. -/
structure Segment where
  addr : Nat
  data : List UInt8

def Segment.stop (w : Segment) : Nat := w.addr + w.data.length

/-- What was written last at each address, once `w` is written over `m`. -/
def Segment.over (w : Segment) (m : Nat → Option UInt8) : Nat → Option UInt8 :=
  fun x => if w.addr ≤ x ∧ x < w.stop then some (w.data.getD (x - w.addr) 0) else m x

def lastWritten (ws : List Segment) : Nat → Option UInt8 :=
  ws.foldl (fun m w => w.over m) fun _ => none

/-- The end of the last segment, at least `base`. -/
def imageEnd (base : Nat) (ws : List Segment) : Nat := ws.foldl (fun e w => max e w.stop) base

/-! ## Storing bytes, growing the buffer -/

theorem storeBytes_eq (bs : List UInt8) (w : UInt64) (f : Nat → UInt8)
    (h : w.toNat + bs.length < 2 ^ 64) :
    (storeBytes bs w f).1.toNat = w.toNat + bs.length ∧
      (storeBytes bs w f).2 = storeRange f w.toNat bs.length fun i => bs.getD i 0 := by
  induction bs generalizing w f with
  | nil => exact ⟨rfl, (storeRange_zero f _ _).symm⟩
  | cons b bs ih =>
    simp only [List.length_cons] at h
    have hw : (w + 1).toNat = w.toNat + 1 := by
      rw [UInt64.toNat_add, UInt64.toNat_one]
      omega
    obtain ⟨h1, h2⟩ := ih (w + 1) (fun i => if i = w.toNat then b else f i) (by omega)
    refine ⟨?_, ?_⟩
    · rw [List.length_cons, ← Nat.add_assoc, Nat.add_right_comm, ← hw]
      exact h1
    · refine h2.trans ?_
      funext x
      simp only [storeRange_apply, hw, List.length_cons]
      rcases Nat.lt_trichotomy x w.toNat with hx | rfl | hx
      · rw [if_neg (by omega), if_neg (by omega), if_neg (by omega)]
      · rw [if_neg (by omega), if_pos rfl, if_pos (by omega), Nat.sub_self]
        rfl
      · obtain ⟨k, rfl⟩ : ∃ k, x = w.toNat + 1 + k := ⟨x - w.toNat - 1, by omega⟩
        rw [show w.toNat + 1 + k - w.toNat = k + 1 by omega, Nat.add_sub_cancel_left,
          List.getD_cons_succ, if_neg (show ¬ w.toNat + 1 + k = w.toNat by omega)]
        congr 1
        simp only [eq_iff_iff]
        omega

/-- The capacity doubles until it suffices. -/
theorem growCap_some (need : UInt64) (n : Nat) (nc : UInt64) (hn : need.toNat ≤ nc.toNat * 2 ^ n)
    (hmax : need.toNat < 2 ^ 62) :
    ∃ nc', growCap need n nc = some nc' ∧ need.toNat ≤ nc'.toNat ∧ nc.toNat ≤ nc'.toNat ∧
      nc'.toNat ≤ max nc.toNat (2 * need.toNat) := by
  induction n generalizing nc with
  | zero =>
    have hge : ¬ nc < need := by
      rw [UInt64.lt_iff_toNat_lt]
      omega
    exact ⟨nc, by rw [growCap, if_neg hge], by omega, Nat.le_refl _, by omega⟩
  | succ n ih =>
    rw [growCap]
    split
    · rename_i hlt
      rw [UInt64.lt_iff_toNat_lt] at hlt
      have hdouble : (nc * 2).toNat = nc.toNat * 2 := by
        rw [UInt64.toNat_mul, show (2 : UInt64).toNat = 2 from rfl]
        omega
      rw [Nat.pow_succ, Nat.mul_comm (2 ^ n), ← Nat.mul_assoc, ← hdouble] at hn
      obtain ⟨nc', h1, h2, h3, h4⟩ := ih (nc * 2) hn
      exact ⟨nc', h1, h2, by omega, by omega⟩
    · rename_i hge
      rw [UInt64.lt_iff_toNat_lt] at hge
      exact ⟨nc, rfl, by omega, Nat.le_refl _, by omega⟩

/-! ## The buffer -/

/-- The buffer holds what was written last, from `base` up to `stop`, and `0xFF`
elsewhere. -/
structure FlashBuf.Holds (b : FlashBuf) (f : Nat → UInt8) (base : Nat) (m : Nat → Option UInt8)
    (stop : Nat) : Prop where
  fbuf : b.fbuf = some f
  fbase : b.fbase.toNat = base
  bytes : ∀ i < b.fcap.toNat, f i = (m (base + i)).getD 0xFF
  inside : ∀ x, m x ≠ none → base ≤ x ∧ x < stop
  flen : base + b.flen.toNat = stop
  flen_le : b.flen.toNat ≤ b.fcap.toNat
  fcap : 0x1000 ≤ b.fcap.toNat ∧ b.fcap.toNat < 2 ^ 26

/-- The address of a packet is in the PFLASH window. -/
def AddrInWindow (addr : Nat) : Prop := FLASH_MIN.toNat ≤ addr ∧ addr < FLASH_MAX.toNat

instance (addr : Nat) : Decidable (AddrInWindow addr) := by
  unfold AddrInWindow
  infer_instance

theorem opened_holds (b : FlashBuf) (addr : UInt64) (h : b.fbuf = none) :
    (b.opened addr).1.Holds (b.opened addr).2 addr.toNat (fun _ => none) addr.toNat := by
  obtain ⟨fbuf, fbase, fcap, flen⟩ := b
  simp only at h
  subst h
  refine ⟨rfl, rfl, ?_, fun _ h => absurd rfl h, rfl, Nat.zero_le _, Nat.le_refl 0x1000,
    show 0x1000 < 2 ^ 26 by decide⟩
  intro i hi
  exact if_pos hi

theorem opened_of_holds {b : FlashBuf} {f : Nat → UInt8} {base stop : Nat}
    {m : Nat → Option UInt8} (h : b.Holds f base m stop) (addr : UInt64) :
    b.opened addr = (b, f) := by
  rw [FlashBuf.opened, h.fbuf]

theorem ensureCap_some {b : FlashBuf} {f : Nat → UInt8} {base stop : Nat} {m : Nat → Option UInt8}
    (h : b.Holds f base m stop) (need : UInt64) (hneed : need.toNat < 2 ^ 25) :
    ∃ cap f', ensureCap need b.fcap f = some (cap, f') ∧ need.toNat ≤ cap.toNat ∧
      b.fcap.toNat ≤ cap.toNat ∧ cap.toNat < 2 ^ 26 ∧
      ∀ i < cap.toNat, f' i = (m (base + i)).getD 0xFF := by
  obtain ⟨hlow, hhigh⟩ := h.fcap
  have hnone : ∀ i, b.fcap.toNat ≤ i → m (base + i) = none := by
    intro i hi
    cases hm : m (base + i) with
    | none => rfl
    | some c =>
      have hin := (h.inside (base + i) (by simp [hm])).2
      have hlen := h.flen
      have hle := h.flen_le
      omega
  rw [ensureCap]
  split
  · obtain ⟨nc, h1, h2, h3, h4⟩ := growCap_some need 64 b.fcap (by omega) (by omega)
    refine ⟨nc, _, by rw [h1]; rfl, h2, h3, by omega, ?_⟩
    intro i hi
    rcases Nat.lt_or_ge i b.fcap.toNat with hi' | hi'
    · rw [if_neg (by omega), h.bytes i hi']
    · rw [if_pos ⟨hi', hi⟩, hnone i hi']
      rfl
  · rename_i hle
    rw [gt_iff_lt, UInt64.lt_iff_toNat_lt] at hle
    exact ⟨b.fcap, f, rfl, by omega, Nat.le_refl _, hhigh, h.bytes⟩

theorem toNat_raised (w n : UInt64) : (if w > n then w else n).toNat = max n.toNat w.toNat := by
  split
  · rename_i hlt
    rw [gt_iff_lt, UInt64.lt_iff_toNat_lt] at hlt
    omega
  · rename_i hge
    rw [gt_iff_lt, UInt64.lt_iff_toNat_lt] at hge
    omega

/-- Storing at an offset from the base is laying the segment over the image. -/
theorem storeRange_over {f : Nat → UInt8} {m : Nat → Option UInt8} {base addr : Nat}
    (hle : base ≤ addr) (data : List UInt8) {i : Nat} (hi : f i = (m (base + i)).getD 0xFF) :
    storeRange f (addr - base) data.length (fun j => data.getD j 0) i =
      (Segment.over ⟨addr, data⟩ m (base + i)).getD 0xFF := by
  rw [storeRange_apply, Segment.over, Segment.stop]
  dsimp only
  rcases Nat.lt_or_ge i (addr - base) with hbefore | hfrom
  · rw [if_neg (by omega), if_neg (by omega), hi]
  · rcases Nat.lt_or_ge i (addr - base + data.length) with hin | hafter
    · rw [if_pos ⟨hfrom, hin⟩, if_pos (by omega), Option.getD_some,
        show base + i - addr = i - (addr - base) by omega]
    · rw [if_neg (by omega), if_neg (by omega), hi]

/-- One accepted write. -/
theorem flashStore_holds {b : FlashBuf} {addr : UInt64} {base stop : Nat}
    {m : Nat → Option UInt8} (h : (b.opened addr).1.Holds (b.opened addr).2 base m stop)
    (hbase : AddrInWindow base) (haddr : AddrInWindow addr.toNat) (hle : base ≤ addr.toNat)
    {data raw : List UInt8} (hesc : Escapes data raw) (hfit : raw.length < BUFSZ) (t : List UInt8) :
    ∃ b' f', flashStore b addr (raw ++ t) raw.length = some (0, b') ∧
      b'.Holds f' base (Segment.over ⟨addr.toNat, data⟩ m)
        (max stop (addr.toNat + data.length)) := by
  have hlen := hesc.length_le
  simp only [AddrInWindow, FLASH_MIN, FLASH_MAX, UInt32.reduceToNat, BUFSZ] at hbase haddr hfit
  cases hb : b.opened addr with
  | mk b₁ f₁ =>
    rw [hb] at h
    dsimp only at h
    have hfb := h.fbase
    have hoff : (addr - b₁.fbase).toNat = addr.toNat - base := by
      rw [UInt64.toNat_sub_of_le _ _ (UInt64.le_iff_toNat_le.mpr (by omega)), hfb]
    have hneed : (addr - b₁.fbase + UInt64.ofNat raw.length).toNat =
        addr.toNat - base + raw.length := by
      rw [UInt64.toNat_add, hoff, UInt64.toNat_ofNat']
      omega
    obtain ⟨cap, f₂, hcap, hroom, hgrow, hmax, hf₂⟩ := ensureCap_some h
      (addr - b₁.fbase + UInt64.ofNat raw.length) (by omega)
    obtain ⟨hw, hstore⟩ := storeBytes_eq data (addr - b₁.fbase) f₂ (by omega)
    rw [hoff] at hw hstore
    have hstays : ¬ addr < b₁.fbase := by
      rw [UInt64.lt_iff_toNat_lt]
      omega
    have hresult : flashStore b addr (raw ++ t) raw.length =
        some (0, ⟨some (storeBytes data (addr - b₁.fbase) f₂).2, b₁.fbase, cap,
          if (storeBytes data (addr - b₁.fbase) f₂).1 > b₁.flen
          then (storeBytes data (addr - b₁.fbase) f₂).1 else b₁.flen⟩) := by
      rw [flashStore, if_neg (by omega)]
      simp only [hb, if_neg hstays, Int.toNat_natCast, hcap, Option.map_some,
        unescape_escapes hesc]
    -- the new length
    have hflen := h.flen
    have hlow := h.fcap
    have hnew : (if (storeBytes data (addr - b₁.fbase) f₂).1 > b₁.flen
        then (storeBytes data (addr - b₁.fbase) f₂).1 else b₁.flen).toNat =
        max b₁.flen.toNat (addr.toNat - base + data.length) := by
      rw [← hw]
      exact toNat_raised _ _
    have hflen_le := h.flen_le
    refine ⟨_, _, hresult, rfl, hfb, ?_, ?_, ?_, ?_, by dsimp only; omega⟩
    · intro i hi
      rw [hstore]
      exact storeRange_over hle data (hf₂ i hi)
    · intro x hx
      rw [Segment.over, Segment.stop] at hx
      split at hx
      · rename_i hin
        dsimp only at hin
        omega
      · have := h.inside x hx
        omega
    · dsimp only
      rw [hnew]
      omega
    · dsimp only
      rw [hnew]
      omega

/-- A write below the base is refused. -/
theorem flashStore_below {b : FlashBuf} {f : Nat → UInt8} {base stop : Nat}
    {m : Nat → Option UInt8} (h : b.Holds f base m stop) (addr : UInt64) (hlt : addr.toNat < base)
    (d : List UInt8) (n : Nat) : flashStore b addr d n = some (-1, b) := by
  have hbelow : addr < b.fbase := by
    rw [UInt64.lt_iff_toNat_lt, h.fbase]
    exact hlt
  rw [flashStore, if_neg (by omega)]
  simp only [opened_of_holds h, if_pos hbelow]

/-! ## The packets -/

/-- `vFlashWrite:addr:raw`. -/
def writePayload (addr raw : List UInt8) : List UInt8 :=
  bytes "vFlashWrite:" ++ (addr ++ 58 :: raw)

/-- A `vFlashWrite` packet for an address in the PFLASH window. -/
structure FlashWrite where
  addrText : List UInt8
  data : List UInt8
  raw : List UInt8
  stale : List UInt8
  hex : HexText addrText
  window : AddrInWindow (hexValue addrText)
  escapes : Escapes data raw
  fits : (writePayload addrText raw).length < BUFSZ

namespace FlashWrite

def addr (w : FlashWrite) : Nat := hexValue w.addrText

def segment (w : FlashWrite) : Segment := ⟨w.addr, w.data⟩

def packet (w : FlashWrite) : Packet := ⟨writePayload w.addrText w.raw, w.stale⟩

end FlashWrite

/-- How the header of a `vFlashWrite` packet is read. -/
theorem flashWrite_packet (b : FlashBuf) (w : FlashWrite) :
    flashWrite b w.packet.buf w.packet.payload.length =
      flashStore b (UInt64.ofNat w.addr) (w.raw ++ 0 :: w.stale) w.raw.length := by
  have hwin := w.window
  simp only [AddrInWindow, FLASH_MIN, FLASH_MAX, UInt32.reduceToNat] at hwin
  have hbuf : w.packet.buf = bytes "vFlashWrite" ++
      58 :: (w.addrText ++ 58 :: (w.raw ++ 0 :: w.stale)) := by
    simp [FlashWrite.packet, Packet.buf, writePayload, bytes]
  have hc1 := strchr_first 58 (bytes "vFlashWrite") (w.addrText ++ 58 :: (w.raw ++ 0 :: w.stale))
    (by decide) (by decide)
  have hc2 := strchr_first 58 w.addrText (w.raw ++ 0 :: w.stale) (w.hex.not_mem rfl)
    (w.hex.not_mem rfl)
  have haddr := strtoull_hexText w.addrText w.hex 58 rfl (by decide) (w.raw ++ 0 :: w.stale)
    (by omega)
  rw [flashWrite, hbuf, hc1]
  simp only [List.drop_succ_cons, List.drop_zero, hc2, haddr]
  congr 1
  have h11 : (bytes "vFlashWrite").length = 11 := rfl
  have h12 : (bytes "vFlashWrite:").length = 12 := rfl
  simp only [FlashWrite.packet, writePayload, List.length_append, List.length_cons, h11, h12]
  omega

theorem dispatch_v (polls : Nat) (s : Stub) (p : List UInt8) (n : Int) (h : p.getD 0 0 = 118) :
    dispatch polls s p n = (handle_v polls s p n >>= fun s => return some s) := by
  simp only [dispatch, h]
  rfl

theorem dispatch_write (polls : Nat) (s : Stub) (w : FlashWrite) (rc : Int) (b : FlashBuf)
    (h : flashStore s.flash (UInt64.ofNat w.addr) (w.raw ++ 0 :: w.stale) w.raw.length =
      some (rc, b)) :
    dispatchPacket polls s w.packet =
      (putPacket (okOr rc) >>= fun _ => return some (s.setFlash b)) := by
  have hv : handle_v polls s w.packet.buf w.packet.payload.length =
      vFlashWrite s w.packet.buf w.packet.payload.length := rfl
  rw [dispatchPacket, dispatch_v polls s _ _ rfl, hv, vFlashWrite, flashWrite_packet, h]
  simp only [bind_bind]
  rfl

/-- `vFlashDone`. -/
def donePacket (stale : List UInt8) : Packet := ⟨bytes "vFlashDone", stale⟩

theorem dispatch_done (polls : Nat) (s : Stub) (stale : List UInt8) :
    dispatchPacket polls s (donePacket stale) =
      (onBus (flashDone s.active.target s.flash) >>= fun x =>
        putPacket (okOr x.1) >>= fun _ => return some (s.setFlash x.2)) := by
  have hv : ∀ n, handle_v polls s (donePacket stale).buf n = vFlashDone s := fun n => rfl
  rw [dispatchPacket, dispatch_v polls s _ _ rfl, hv, vFlashDone]
  simp only [bind_bind]
  rfl

/-! ## Runs of packets -/

/-- The buffer of the stub holds the segments, and starts at `base`. -/
def Stub.Buffered (s : Stub) (base : Nat) (ws : List Segment) : Prop :=
  ∃ f, s.flash.Holds f base (lastWritten ws) (imageEnd base ws)

/-- The segments of the packets that are not below the base. -/
def accepted (base : Nat) (ws : List FlashWrite) : List Segment :=
  (ws.filter fun w => base ≤ w.addr).map FlashWrite.segment

def writeReply (base : Nat) (w : FlashWrite) : List UInt8 :=
  if base ≤ w.addr then bytes "OK" else bytes "E01"

theorem toNat_addr (w : FlashWrite) : (UInt64.ofNat w.addr).toNat = w.addr := by
  have hwin := w.window
  simp only [AddrInWindow, FLASH_MIN, FLASH_MAX, UInt32.reduceToNat] at hwin
  rw [UInt64.toNat_ofNat', FlashWrite.addr]
  omega

theorem FlashWrite.raw_fits (w : FlashWrite) : w.raw.length < BUFSZ := by
  have hfits := w.fits
  simp only [writePayload, List.length_append, List.length_cons] at hfits
  omega

/-- A packet that is not below the base is added to the image. -/
theorem dispatch_write_holds (polls : Nat) (s : Stub) (w : FlashWrite) {base stop : Nat}
    {m : Nat → Option UInt8} (h : (s.flash.opened (UInt64.ofNat w.addr)).1.Holds
      (s.flash.opened (UInt64.ofNat w.addr)).2 base m stop)
    (hbase : AddrInWindow base) (hle : base ≤ w.addr) :
    ∃ b f, dispatchPacket polls s w.packet =
        (putPacket (bytes "OK") >>= fun _ => return some (s.setFlash b)) ∧
      b.Holds f base (w.segment.over m) (max stop w.segment.stop) := by
  have haddr := toNat_addr w
  obtain ⟨b, f, hstore, hholds⟩ := flashStore_holds h hbase (haddr.symm ▸ w.window)
    (haddr.symm ▸ hle) w.escapes w.raw_fits (0 :: w.stale)
  rw [haddr] at hholds
  exact ⟨b, f, dispatch_write polls s w 0 b hstore, hholds⟩

theorem dispatch_write_below (polls : Nat) (s : Stub) (w : FlashWrite) {f : Nat → UInt8}
    {base stop : Nat} {m : Nat → Option UInt8} (h : s.flash.Holds f base m stop)
    (hlt : w.addr < base) :
    dispatchPacket polls s w.packet = (putPacket (bytes "E01") >>= fun _ => return some s) :=
  dispatch_write polls s w (-1) s.flash
    (flashStore_below h _ ((toNat_addr w).symm ▸ hlt) _ _)

/-- `vFlashDone` programs the image, and empties the buffer whatever comes back. -/
theorem dispatch_done_holds (polls : Nat) (s : Stub) {f : Nat → UInt8} {base stop : Nat}
    {m : Nat → Option UInt8} (h : s.flash.Holds f base m stop) (stale : List UInt8) :
    dispatchPacket polls s (donePacket stale) =
      (onBus (tcmcdFlashProgram s.active.target (UInt64.ofNat base) f
          (UInt32.ofNat (stop - base))) >>= fun rc =>
        putPacket (okOr rc) >>= fun _ =>
          return some (s.setFlash { s.flash with fbuf := none, fcap := 0, flen := 0 })) := by
  have hbytes := h.flen
  have hle := h.flen_le
  have hcap := h.fcap
  have hbase : s.flash.fbase = UInt64.ofNat base := by
    rw [← UInt64.toNat_inj, ← h.fbase, UInt64.ofNat_toNat]
  have hlen : s.flash.flen.toUInt32 = UInt32.ofNat (stop - base) := by
    rw [← UInt32.toNat_inj, UInt64.toNat_toUInt32, UInt32.toNat_ofNat']
    omega
  rw [dispatch_done, flashDone, h.fbuf]
  simp only [hlen, onBus_bind, bind_bind, ← hbase]
  rfl

/-- Without a buffer there is nothing to do. -/
theorem dispatch_done_empty (polls : Nat) (s : Stub) (h : s.flash.fbuf = none)
    (stale : List UInt8) :
    dispatchPacket polls s (donePacket stale) =
      (putPacket (bytes "OK") >>= fun _ => return some s) := by
  rw [dispatch_done, flashDone, h]
  rfl

section
variable {σ : Type} (E : Env BusSig σ) (polls : Nat) (x : σ)

/-- After a packet, the rest of the session. -/
theorem wp_dispatchAll_cons {s s' : Stub} {p : Packet} {reply : List UInt8} {ps : List Packet}
    {Q : Option Stub → σ × List (List UInt8) → Prop} {X : Abort → σ × List (List UInt8) → Prop}
    {out : List (List UInt8)}
    (hp : dispatchPacket polls s p = (putPacket reply >>= fun _ => return some s')) :
    (dispatchAll polls s (p :: ps)).wp (replying E) Q X (x, out) ↔
      (dispatchAll polls s' ps).wp (replying E) Q X (x, out ++ [reply]) := by
  rw [dispatchAll, hp, wp_bind, wp_bind, wp_putPacket_replying]
  rfl

/-- From a buffer that holds `segs`, every packet is answered, and the accepted
ones are added in order. -/
theorem dispatchAll_writes (base : Nat) (hbase : AddrInWindow base)
    (ws : List FlashWrite) (s : Stub)
    (segs : List Segment) (hs : s.Buffered base segs) (out : List (List UInt8)) :
    (dispatchAll polls s (ws.map FlashWrite.packet)).wp (replying E) (fun r y =>
      ∃ b, r = some (s.setFlash b) ∧ y = (x, out ++ ws.map (writeReply base)) ∧
        (s.setFlash b).Buffered base (segs ++ accepted base ws)) (fun _ _ => False) (x, out) := by
  induction ws generalizing s segs out with
  | nil =>
    have hsame : s.setFlash s.flash = s := rfl
    refine ⟨s.flash, rfl, by simp, ?_⟩
    rw [hsame, accepted, List.filter_nil, List.map_nil, List.append_nil]
    exact hs
  | cons w ws ih =>
    rw [List.map_cons (f := FlashWrite.packet)]
    rcases Nat.lt_or_ge w.addr base with hlt | hle
    · obtain ⟨f, hf⟩ := id hs
      rw [wp_dispatchAll_cons E polls x (dispatch_write_below polls s w hf hlt)]
      refine wp_mono _ ?_ (fun _ _ h => h) (ih s segs hs _)
      rintro r y ⟨b, hr, hy, hb⟩
      refine ⟨b, hr, ?_, ?_⟩
      · rw [hy, List.map_cons, writeReply, if_neg (by omega), List.append_assoc]
        rfl
      · have hskip : accepted base (w :: ws) = accepted base ws := by
          rw [accepted, List.filter_cons_of_neg (by simpa using hlt)]
          rfl
        rw [hskip]
        exact hb
    · obtain ⟨f, hf⟩ := hs
      obtain ⟨b, f', hd, hb⟩ := dispatch_write_holds polls s w
        (by rw [opened_of_holds hf]; exact hf) hbase hle
      have hb : (s.setFlash b).Buffered base (segs ++ [w.segment]) := ⟨f', by
        rw [lastWritten, imageEnd, List.foldl_append, List.foldl_append]
        exact hb⟩
      rw [wp_dispatchAll_cons E polls x hd]
      refine wp_mono _ ?_ (fun _ _ h => h) (ih (s.setFlash b) _ hb _)
      rintro r y ⟨b', hr, hy, hb'⟩
      refine ⟨b', hr, ?_, ?_⟩
      · rw [hy, List.map_cons, writeReply, if_pos hle, List.append_assoc]
        rfl
      · have hkeep : accepted base (w :: ws) = w.segment :: accepted base ws := by
          rw [accepted, List.filter_cons_of_pos (by simpa using hle)]
          rfl
        rw [hkeep, List.append_cons]
        exact hb'

/-- From an empty buffer, the first packet sets the base. -/
theorem dispatchAll_image (s : Stub) (hs : s.flash.fbuf = none) (w : FlashWrite)
    (ws : List FlashWrite) (out : List (List UInt8)) :
    (dispatchAll polls s ((w :: ws).map FlashWrite.packet)).wp (replying E) (fun r y =>
      ∃ b, r = some (s.setFlash b) ∧ y = (x, out ++ (w :: ws).map (writeReply w.addr)) ∧
        (s.setFlash b).Buffered w.addr (accepted w.addr (w :: ws))) (fun _ _ => False)
          (x, out) := by
  have hfirst := opened_holds s.flash (UInt64.ofNat w.addr) hs
  rw [toNat_addr] at hfirst
  obtain ⟨b, f, hd, hb⟩ := dispatch_write_holds polls s w hfirst w.window (Nat.le_refl _)
  have hb : (s.setFlash b).Buffered w.addr [w.segment] := ⟨f, hb⟩
  rw [List.map_cons (f := FlashWrite.packet), wp_dispatchAll_cons E polls x hd]
  refine wp_mono _ ?_ (fun _ _ h => h)
    (dispatchAll_writes E polls x w.addr w.window ws (s.setFlash b) _ hb _)
  rintro r y ⟨b', hr, hy, hb'⟩
  have hall : accepted w.addr (w :: ws) = [w.segment] ++ accepted w.addr ws := by
    rw [accepted, List.filter_cons_of_pos (by simp)]
    rfl
  refine ⟨b', hr, ?_, ?_⟩
  · rw [hy, List.map_cons, writeReply, if_pos (Nat.le_refl _), List.append_assoc]
    rfl
  · rw [hall]
    exact hb'

end

/-- Whatever the packets, `vFlashDone` programs from the address of the first one
up to the last end, the byte written last at each address, and `0xFF` between.
Packets below the base change nothing, and the buffer is empty afterwards. -/
theorem flash_image_exact {σ : Type} (E : Env BusSig σ) (polls : Nat) (x : σ) (s : Stub)
    (hs : s.flash.fbuf = none) (w : FlashWrite) (ws : List FlashWrite)
    (out : List (List UInt8)) :
    (dispatchAll polls s ((w :: ws).map FlashWrite.packet)).wp (replying E) (fun r y =>
      ∃ s' : Stub, r = some s' ∧ y = (x, out ++ (w :: ws).map (writeReply w.addr)) ∧
        s'.active = s.active ∧
        (∀ v : FlashWrite, v.addr < w.addr →
          dispatchPacket polls s' v.packet =
            (putPacket (bytes "E01") >>= fun _ => return some s')) ∧
        ∃ data, (∀ i, w.addr + i < imageEnd w.addr (accepted w.addr (w :: ws)) →
            data i = (lastWritten (accepted w.addr (w :: ws)) (w.addr + i)).getD 0xFF) ∧
          ∀ stale, ∃ b : FlashBuf, b.fbuf = none ∧ b.flen = 0 ∧
            dispatchPacket polls s' (donePacket stale) =
              (onBus (tcmcdFlashProgram s.active.target (UInt64.ofNat w.addr) data
                  (UInt32.ofNat (imageEnd w.addr (accepted w.addr (w :: ws)) - w.addr))) >>=
                fun rc => putPacket (okOr rc) >>= fun _ => return some (s'.setFlash b)))
      (fun _ _ => False) (x, out) := by
  refine wp_mono _ ?_ (fun _ _ h => h) (dispatchAll_image E polls x s hs w ws out)
  rintro r y ⟨b', hr, hy, hb'⟩
  obtain ⟨f', hf'⟩ := hb'
  refine ⟨_, hr, hy, rfl, ?_, ?_⟩
  · exact fun v hv => dispatch_write_below polls _ v hf' hv
  · refine ⟨f', fun i hi => hf'.bytes i ?_, fun stale => ?_⟩
    · have hlen := hf'.flen
      have hle := hf'.flen_le
      omega
    · exact ⟨_, rfl, rfl, dispatch_done_holds polls _ hf' stale⟩

theorem firstAddr_hex : HexText (bytes "a0000000") := by decide

theorem firstAddr_window : AddrInWindow (hexValue (bytes "a0000000")) := by decide

/-- The byte `#` at the start of PFLASH, escaped. -/
def hashWrite : FlashWrite where
  addrText := bytes "a0000000"
  data := [35]
  raw := [0x7d, 3]
  stale := []
  hex := firstAddr_hex
  window := firstAddr_window
  escapes := .escaped 35 .nil
  fits := by decide

theorem escapes_hash_nine : Escapes [35, 9] [0x7d, 3, 9] :=
  .escaped 35 (.plain (by decide) (by decide) .nil)

theorem escapes_one_two : Escapes [1, 2] [1, 2] :=
  .plain (by decide) (by decide) (.plain (by decide) (by decide) .nil)

/-- The bytes `#` and 9 at 16 above the start of PFLASH. -/
def baseWrite : FlashWrite where
  addrText := bytes "a0000010"
  data := [35, 9]
  raw := [0x7d, 3, 9]
  stale := []
  hex := by decide
  window := by decide
  escapes := escapes_hash_nine
  fits := by decide

/-- More than `0x1000` bytes further on, which makes the buffer grow. -/
def growWrite : FlashWrite where
  addrText := bytes "a0001110"
  data := [1, 2]
  raw := [1, 2]
  stale := []
  hex := by decide
  window := by decide
  escapes := escapes_one_two
  fits := by decide

/-- Over the second byte of the base. -/
def overWrite : FlashWrite where
  addrText := bytes "a0000011"
  data := [1, 2]
  raw := [1, 2]
  stale := []
  hex := by decide
  window := by decide
  escapes := escapes_one_two
  fits := by decide

theorem overlap_accepted : accepted baseWrite.addr [baseWrite, growWrite, hashWrite, overWrite] =
    [⟨0xA0000010, [35, 9]⟩, ⟨0xA0001110, [1, 2]⟩, ⟨0xA0000011, [1, 2]⟩] := rfl

theorem overlap_gap (i : Nat) (hlow : 3 ≤ i) (hhigh : i < 0x1100) :
    lastWritten [⟨0xA0000010, [35, 9]⟩, ⟨0xA0001110, [1, 2]⟩, ⟨0xA0000011, [1, 2]⟩]
      (0xA0000010 + i) = none := by
  have hover : ¬ (0xA0000011 ≤ 0xA0000010 + i ∧ 0xA0000010 + i < 0xA0000013) := by omega
  have hfar : ¬ (0xA0001110 ≤ 0xA0000010 + i ∧ 0xA0000010 + i < 0xA0001112) := by omega
  have hfirst : ¬ (0xA0000010 ≤ 0xA0000010 + i ∧ 0xA0000010 + i < 0xA0000012) := by omega
  exact (if_neg hover).trans ((if_neg hfar).trans (if_neg hfirst))

/-- A growing image with an overlap and a gap, and a packet below its base. -/
theorem flash_image_exact_overlap :
    (dispatchAll 0 .lone ([baseWrite, growWrite, hashWrite, overWrite].map FlashWrite.packet)).wp
      (replying anything) (fun r y =>
      y.2 = [bytes "OK", bytes "OK", bytes "E01", bytes "OK"] ∧ ∃ s' data, r = some s' ∧
        data 0 = 35 ∧ data 1 = 1 ∧ data 2 = 2 ∧ (∀ i, 3 ≤ i → i < 0x1100 → data i = 0xFF) ∧
        data 0x1100 = 1 ∧ data 0x1101 = 2 ∧
        ∃ b : FlashBuf, b.fbuf = none ∧ dispatchPacket 0 s' (donePacket []) =
          (onBus (tcmcdFlashProgram ⟨0, 0⟩ 0xA0000010 data 0x1102) >>= fun rc =>
            putPacket (okOr rc) >>= fun _ => return some (s'.setFlash b)))
      (fun _ _ => False) ([], []) := by
  refine wp_mono _ ?_ (fun _ _ h => h)
    (flash_image_exact anything 0 [] .lone rfl baseWrite [growWrite, hashWrite, overWrite] [])
  rintro r y ⟨s', hr, hy, -, -, data, hdata, hdone⟩
  obtain ⟨b, hb, -, hd⟩ := hdone []
  have hgap : ∀ i, 3 ≤ i → i < 0x1100 → data i = 0xFF := by
    intro i hlow hhigh
    have hin : 0xA0000010 + i < 0xA0001112 := by omega
    rw [hdata i hin, overlap_accepted]
    exact congrArg (·.getD 0xFF) (overlap_gap i hlow hhigh)
  exact ⟨by rw [hy]; rfl, s', data, hr, hdata 0 (by decide), hdata 1 (by decide),
    hdata 2 (by decide), hgap, hdata 0x1100 (by decide), hdata 0x1101 (by decide), b, hb, hd⟩

end OpenTricore
