import OpenTricore.MemoryPackets

/-! Where the bytes of a memory reply come from. Everything that is read over the
bus is recorded, and each byte of a reply to `m` is looked up there. A range whose
end, rounded up to words, passes the end of the address space is not read at all
and is answered from the fresh buffer. -/

namespace OpenTricore
open Lib Lib.Prog

/-! ## Bytes that were read -/

/-- A read of the target with its answer. -/
def readEvent (t : Target) (a : UInt64) (w : UInt32) : Event BusSig :=
  ⟨.read t.core ⟨a, t.msid⟩, (some w : Option UInt32)⟩

/-- The byte at `a` was read as `b`, in the word that holds it. -/
def ReadAt (t : Target) (tr : List (Event BusSig)) (a : UInt64) (b : UInt8) : Prop :=
  ∃ c w, readEvent t c w ∈ tr ∧ c.toNat ≤ a.toNat ∧ a.toNat < c.toNat + 4 ∧
    b = byteOf w (a.toNat - c.toNat)

/-- The first `len` bytes of `buf` were read from `addr` on. -/
def ReadFrom (t : Target) (tr : List (Event BusSig)) (addr : UInt64) (len : Nat)
    (buf : Nat → UInt8) : Prop :=
  ∀ i < len, ReadAt t tr (addr + UInt64.ofNat i) (buf i)

/-- The rounded end of the range is representable, or there is nothing to read. -/
def Covered (addr : UInt64) (len : UInt32) : Prop :=
  len = 0 ∨ addr.toNat + len.toNat + 3 < 2 ^ 64

section
variable {t : Target} {tr : List (Event BusSig)} {addr : UInt64} {len : UInt32}

theorem ReadAt.snoc {a : UInt64} {b : UInt8} (h : ReadAt t tr a b) (e : Event BusSig) :
    ReadAt t (tr ++ [e]) a b := by
  obtain ⟨c, w, hmem, hrest⟩ := h
  exact ⟨c, w, List.mem_append_left _ hmem, hrest⟩

theorem not_readAt_nil {a : UInt64} {b : UInt8} : ¬ ReadAt t [] a b := by
  rintro ⟨c, w, hmem, -⟩
  cases hmem

theorem toNat_offset (hr : WordRange addr len) {i : Nat} (hi : i < len.toNat) :
    (addr + UInt64.ofNat i).toNat = addr.toNat + i := by
  have := hr.bound
  rw [UInt64.toNat_add, UInt64.toNat_ofNat']
  omega

/-- A range whose end does not wrap is read byte for byte, or the call fails. -/
theorem tcmcdRead_covers (t : Target) (addr : UInt64) (buf : Nat → UInt8) (len : UInt32)
    (hr : WordRange addr len) :
    (tcmcdRead t addr buf len).wp anything
      (fun x tr => x.1 = 0 → ReadFrom t tr addr len.toNat x.2) (fun _ _ => False) [] := by
  have hbound := hr.bound
  apply wp_loop anything (fun b tr => AtWord addr len b.1 ∧
      ∀ i < len.toNat, addr.toNat + i < b.1.toNat → ReadAt t tr (addr + UInt64.ofNat i) (b.2 i))
    (fun b => ((addr.toNat + len.toNat + 3) / 4 * 4 - b.1.toNat) / 4)
  · rintro ⟨a, buf⟩ tr ⟨ha, hread⟩
    dsimp only at ha hread ⊢
    split
    · rename_i hlt
      obtain ⟨hnext, h4, hhigh⟩ := ha.next hr hlt
      simp only [rd32Try, wp_bind, wp_xferR]
      rintro r _ rfl
      cases r with
      | none => exact fun h => by cases h
      | some w =>
        refine ⟨⟨hnext, fun i hi hlow => ?_⟩, by dsimp only; omega⟩
        dsimp only at hlow ⊢
        rw [readWordInto_apply hr hhigh w buf i hi]
        split
        · rename_i hin
          have hoff := toNat_offset hr hi
          refine ⟨a, w, List.mem_append_right _ (List.mem_singleton_self _), by omega, by omega, ?_⟩
          rw [hoff]
        · exact (hread i hi (by omega)).snoc _
    · rename_i hge
      rw [UInt64.lt_iff_toNat_lt, hr.toNat_last] at hge
      exact fun _ i hi => hread i hi (by omega)
  · refine ⟨atWord_first, fun i _ hlow => ?_⟩
    dsimp only at hlow
    rw [toNat_first] at hlow
    omega
  · dsimp only
    omega

/-- A range whose end wraps is not read, and still answered by 0. -/
theorem tcmcdRead_wraps (t : Target) (addr : UInt64) (buf : Nat → UInt8) (len : UInt32)
    (h : 2 ^ 64 ≤ addr.toNat + len.toNat + 3) : tcmcdRead t addr buf len = .ret (0, buf) := by
  have ha0 := toNat_first addr
  have ha1 := toNat_first (addr + len.toUInt64 + 3)
  have haddr := addr.toNat_lt
  have hlen := len.toNat_lt
  have hsum : (addr + len.toUInt64 + 3).toNat = addr.toNat + len.toNat + 3 - 2 ^ 64 := by
    rw [UInt64.toNat_add, UInt64.toNat_add, UInt32.toNat_toUInt64,
      show (3 : UInt64).toNat = 3 from rfl]
    omega
  have hge : ¬ (addr &&& ~~~3 : UInt64) < (addr + len.toUInt64 + 3) &&& ~~~3 := by
    rw [UInt64.lt_iff_toNat_lt, ha0, ha1, hsum]
    omega
  rw [tcmcdRead, show (2 ^ 62 : Nat) = 4611686018427387903 + 1 from rfl, loop]
  simp only [hge, ↓reduceIte, pure_eq, ret_bind]

end

/-! ## Replies to `m` -/

/-- The range a request is for, as `handle_m` reads it. -/
def requestAddr (p : List UInt8) : UInt64 := strtoull (p.drop 1)

def requestLen (p : List UInt8) : UInt32 :=
  min (numberAfterComma p).toUInt32 (UInt32.ofNat ((BUFSZ - 8) / 2))

/-- A reply that is the hexadecimal text of bytes read from `addr` on. -/
def TargetBytes (t : Target) (tr : List (Event BusSig)) (addr : UInt64) (reply : List UInt8) :
    Prop :=
  ∃ (mb : Nat → UInt8) (n : Nat), reply = hexOfBytes mb n ∧ ReadFrom t tr addr n mb

/-- Whatever the bus and the heap hold, the reply to `p` is empty, an error, or
text of bytes that were read while the packet was handled. -/
def OnlyTargetBytes (polls : Nat) (s : Stub) (p : Packet) : Prop :=
  ∀ x tr replies, Runs (replying anything) (dispatchPacket polls s p) ([], []) x (tr, replies) →
    ∀ reply ∈ replies, reply = bytes "" ∨ reply = bytes "E01" ∨
      TargetBytes s.active.target tr (requestAddr p.buf) reply

theorem requestLen_eq_zero (p : List UInt8) :
    requestLen p = 0 ↔ (numberAfterComma p).toUInt32 = 0 := by
  have hmin : ∀ x : UInt32, min x 8188 = if x ≤ 8188 then x else 8188 := fun _ => rfl
  rw [requestLen, show UInt32.ofNat ((BUFSZ - 8) / 2) = 8188 from rfl, hmin]
  split
  · rfl
  · rename_i hgt
    constructor
    · intro h
      cases h
    · intro h
      exact absurd (h ▸ by decide) hgt

theorem handle_m_eq (s : Stub) (p : List UInt8) :
    handle_m s p =
      if requestLen p = 0 then putPacket (bytes "")
      else malloc (requestLen p) >>= fun mb =>
        onBus (tcmcdRead s.active.target (requestAddr p) mb (requestLen p)) >>= fun x =>
        putPacket (if x.1 ≠ 0 then bytes "E01" else hexOfBytes x.2 (requestLen p).toNat) := by
  have hzero := requestLen_eq_zero p
  simp only [handle_m, requestAddr]
  split
  · rename_i h
    rw [if_pos (hzero.mpr h)]
  · rename_i h
    rw [if_neg fun h' => h (hzero.mp h')]
    rfl

section
variable {s : Stub} {p : List UInt8}

theorem handle_m_covered (h : Covered (requestAddr p) (requestLen p)) :
    (handle_m s p).wp (replying anything) (fun _ y => ∀ reply ∈ y.2,
      reply = bytes "" ∨ reply = bytes "E01" ∨
        TargetBytes s.active.target y.1 (requestAddr p) reply) (fun _ _ => False) ([], []) := by
  rw [handle_m_eq]
  split
  · rw [wp_putPacket_replying]
    intro reply hmem
    exact .inl (List.mem_singleton.mp hmem)
  · rename_i hne
    have hr : WordRange (requestAddr p) (requestLen p) := ⟨h.resolve_left hne⟩
    rw [wp_bind, wp_malloc_replying]
    intro mb
    rw [wp_bind]
    apply wp_mono _ ?_ (fun _ _ h => h.1)
      (wp_onBus_replying [] (tcmcdRead_covers s.active.target _ mb _ hr))
    rintro ⟨rc, mb⟩ ⟨tr, _⟩ ⟨hread, rfl⟩
    rw [wp_putPacket_replying]
    intro reply hmem
    obtain rfl := List.mem_singleton.mp hmem
    split
    · exact .inr (.inl rfl)
    · rename_i hrc
      exact .inr (.inr ⟨mb, _, rfl, hread (Decidable.not_not.mp hrc)⟩)

/-- A wrapped range is answered from the heap, without an access. -/
theorem handle_m_wraps (hne : requestLen p ≠ 0)
    (h : 2 ^ 64 ≤ (requestAddr p).toNat + (requestLen p).toNat + 3) :
    handle_m s p = malloc (requestLen p) >>= fun mb =>
      putPacket (hexOfBytes mb (requestLen p).toNat) := by
  rw [handle_m_eq, if_neg hne]
  simp only [tcmcdRead_wraps _ _ _ _ h]
  rfl

theorem hexOfBytes_not_target (t : Target) (addr : UInt64) (mb : Nat → UInt8) {n : Nat}
    (hn : 0 < n) : hexOfBytes mb n ≠ bytes "" ∧ hexOfBytes mb n ≠ bytes "E01" ∧
      ¬ TargetBytes t [] addr (hexOfBytes mb n) := by
  have hlen := length_hexOfBytes mb n
  refine ⟨?_, ?_, ?_⟩
  · intro h
    rw [h, show (bytes "").length = 0 from rfl] at hlen
    omega
  · intro h
    rw [h, show (bytes "E01").length = 3 by decide] at hlen
    omega
  · rintro ⟨mb', n', heq, hread⟩
    have hlen' := length_hexOfBytes mb' n'
    rw [← heq, hlen] at hlen'
    exact not_readAt_nil (hread 0 (by omega))

end

/-- Replies are target bytes exactly for the requests whose range is covered. -/
theorem onlyTargetBytes_iff (polls : Nat) (s : Stub) (args stale : List UInt8) :
    OnlyTargetBytes polls s ⟨109 :: args, stale⟩ ↔
      Covered (requestAddr (109 :: args ++ 0 :: stale))
        (requestLen (109 :: args ++ 0 :: stale)) := by
  generalize hp : (⟨109 :: args, stale⟩ : Packet) = p
  have hbuf : 109 :: args ++ 0 :: stale = p.buf := hp ▸ rfl
  have hdispatch : dispatchPacket polls s p = (handle_m s p.buf >>= fun _ => return some s) :=
    dispatch_m polls s p.buf _ (hbuf ▸ rfl)
  rw [hbuf]
  constructor
  · intro honly
    by_contra hcov
    rw [Covered, not_or, Nat.not_lt] at hcov
    obtain ⟨hne, hwraps⟩ := hcov
    have hpos : 0 < (requestLen p.buf).toNat := by
      rw [Nat.pos_iff_ne_zero, ne_eq, show 0 = (0 : UInt32).toNat from rfl, UInt32.toNat_inj]
      exact hne
    have hcan : (dispatchPacket polls s p).Can (replying anything)
        (fun _ y => y = ([], [hexOfBytes (fun _ => 0) (requestLen p.buf).toNat])) ([], []) := by
      rw [hdispatch, handle_m_wraps hne hwraps]
      have hfresh : replying anything ([], []) (.malloc (requestLen p.buf))
          (fun _ => 0 : Nat → UInt8) ([], []) := rfl
      apply can_ask hfresh
      apply can_ask (r := (0 : Int)) rfl
      exact can_ret rfl
    obtain ⟨x, _, hrun, rfl⟩ := hcan
    obtain ⟨hempty, herr, hnot⟩ :=
      hexOfBytes_not_target s.active.target (requestAddr p.buf) (fun _ => 0) hpos
    rcases honly _ _ _ hrun _ (List.mem_singleton_self _) with h | h | h
    · exact hempty h
    · exact herr h
    · exact hnot h
  · intro hcov x tr replies hrun
    have hwp : (dispatchPacket polls s p).wp (replying anything) (fun _ y => ∀ reply ∈ y.2,
        reply = bytes "" ∨ reply = bytes "E01" ∨
          TargetBytes s.active.target y.1 (requestAddr p.buf) reply) (fun _ _ => False)
            ([], []) := by
      rw [hdispatch, wp_bind]
      exact handle_m_covered hcov
    obtain ⟨hok, herr⟩ := hrun.sound _ hwp
    cases x with
    | ok a => exact hok a rfl
    | error e => exact (herr e rfl).elim

/-- `tcmcd_read` alone: 0 means that every byte was read. -/
def FullRead (t : Target) (addr : UInt64) (buf : Nat → UInt8) (len : UInt32) : Prop :=
  ∀ out tr, Runs anything (tcmcdRead t addr buf len) [] (.ok (0, out)) tr →
    ReadFrom t tr addr len.toNat out

theorem fullRead_iff (t : Target) (addr : UInt64) (buf : Nat → UInt8) (len : UInt32) :
    FullRead t addr buf len ↔ Covered addr len := by
  constructor
  · intro hfull
    by_contra hcov
    rw [Covered, not_or, Nat.not_lt] at hcov
    obtain ⟨hne, hwraps⟩ := hcov
    rw [FullRead, tcmcdRead_wraps t addr buf len hwraps] at hfull
    have hpos : 0 < len.toNat := by
      rw [Nat.pos_iff_ne_zero, ne_eq, show 0 = (0 : UInt32).toNat from rfl, UInt32.toNat_inj]
      exact hne
    exact not_readAt_nil (hfull buf [] (.ret _ _) 0 hpos)
  · rintro (rfl | hbound) out tr hrun i hi
    · cases hi
    · exact (hrun.sound _ (tcmcdRead_covers t addr buf len ⟨hbound⟩)).1 _ rfl rfl i hi

/-- Memory replies hold target bytes only, and a read that returns 0 has filled the
buffer, exactly where the range is covered. -/
theorem reply_bytes_iff (polls : Nat) (s : Stub) (args stale : List UInt8) (t : Target)
    (addr : UInt64) (buf : Nat → UInt8) (len : UInt32) :
    (OnlyTargetBytes polls s ⟨109 :: args, stale⟩ ↔
      Covered (requestAddr (109 :: args ++ 0 :: stale)) (requestLen (109 :: args ++ 0 :: stale))) ∧
    (FullRead t addr buf len ↔ Covered addr len) :=
  ⟨onlyTargetBytes_iff polls s args stale, fullRead_iff t addr buf len⟩

/-- The last word of the address space is never read. -/
theorem last_word_from_heap :
    ¬ OnlyTargetBytes 0 .lone ⟨bytes "mfffffffffffffffc,1", []⟩ ∧
      ¬ FullRead ⟨0, 0⟩ 0xFFFFFFFFFFFFFFFC (fun _ => 0) 1 := by
  have hpayload : bytes "mfffffffffffffffc,1" = 109 :: bytes "fffffffffffffffc,1" := by decide
  have haddr : requestAddr (109 :: bytes "fffffffffffffffc,1" ++ [0]) = 0xFFFFFFFFFFFFFFFC := by
    decide
  have hlen : requestLen (109 :: bytes "fffffffffffffffc,1" ++ [0]) = 1 := by decide
  rw [hpayload, onlyTargetBytes_iff, fullRead_iff, haddr, hlen]
  constructor <;> rintro (h | h)
  · cases h
  · exact absurd h (by decide)
  · cases h
  · exact absurd h (by decide)

end OpenTricore
