import OpenTricore.MemoryPackets
import OpenTricore.Registers

/-! Write packets with malformed data. A `G` packet is refused for its length alone, a `P`
packet for a missing `=` alone, and an `M` packet for the digits of the length it is cut
to. Whatever else is wrong with the data is written. -/

namespace OpenTricore.Malformed
open OpenTricore Lib Lib.Prog Threads Registers

/-- The packet is answered by `E01`, and nothing on the target has changed. -/
def Refused (fails : BusOp → Prop) (polls : Nat) (s : Stub) (p : Packet) : Prop :=
  ∀ regs, (dispatchPacket polls s p).wp (replying (coreRegs fails))
    (fun r y => r = some s ∧ y = (regs, [bytes "E01"])) (fun _ _ => False) (regs, [])

/-- A length as it arrives: what is too large is the largest, and then it is cut. -/
def cutLen (n : Nat) : Nat := if n < 2 ^ 64 then n % 2 ^ 32 else 2 ^ 32 - 1

/-- Fewer than eight digits for a register, or no digit where one is decoded. -/
def BadBlock (s : Stub) (data : List UInt8) : Prop :=
  data.length < NREG * 8 ∨
    ∃ i : Fin NREG, s.active.regok i = true ∧ ¬ DigitsFor 8 (data.drop (i * 8))

/-- What stands behind the first `=`, if there is one, is not eight digits. -/
def BadValue (args : List UInt8) : Prop :=
  ∀ v, strchr 61 (args ++ [0]) = some (61 :: v) → ¬ DigitsFor 8 v

section
variable {fails : BusOp → Prop} {polls : Nat} {s : Stub}

/-- An answer by `E01` alone refuses the packet. -/
theorem refused_of_eq {p : Packet}
    (h : dispatchPacket polls s p = (putPacket (bytes "E01") >>= fun _ => return some s)) :
    Refused fails polls s p := by
  intro regs
  rw [h, wp_bind]
  exact (wp_putPacket_replying _ _).mpr ⟨rfl, rfl⟩

/-- If everything succeeds, the packet is answered by `OK`. -/
def Accepted (polls : Nat) (s : Stub) (p : Packet) : Prop :=
  ∀ regs, (dispatchPacket polls s p).wp (replying (coreRegs fun _ => False))
    (fun _ y => y.2 = [bytes "OK"]) (fun _ _ => True) (regs, [])

theorem not_refused {p : Packet} (h : Accepted polls s p) : ¬ Refused fails polls s p := by
  intro hrefused
  have hruns := runs_replyingBy (E := coreRegs fun _ => False) regsBy regsBy_coreRegs
    (dispatchPacket polls s p) (zeros, [])
  have hruns' := runs_replyingBy (E := coreRegs fails) regsBy regsBy_coreRegs
    (dispatchPacket polls s p) (zeros, [])
  obtain ⟨hok, -⟩ := hruns.sound _ (h zeros)
  obtain ⟨hno, hdies⟩ := hruns'.sound _ (hrefused zeros)
  cases hx : ((dispatchPacket polls s p).exec (replyingBy regsBy) (zeros, [])).1 with
  | error e => exact hdies e hx
  | ok r =>
    have hreply : [bytes "OK"] = [bytes "E01"] :=
      (hok r hx).symm.trans (congrArg Prod.snd (hno r hx).2)
    exact absurd hreply (by decide)

/-! ## Blocks -/

theorem block_refused_iff (data stale : List UInt8) :
    Refused fails polls s ⟨71 :: data, stale⟩ ↔ strlen (data ++ [0]) < NREG * 8 := by
  have hlocal := strlen_local data stale
  constructor
  · intro h
    by_contra hlong
    refine not_refused (fun regs => ?_) h
    apply wp_mono _ ?_ (fun _ _ _ => trivial) (wp_block polls s regs data stale)
    rintro r y ⟨-, ⟨hshort, -⟩ | rfl⟩
    · exact absurd (hlocal ▸ hshort) hlong
    · rfl
  · intro hshort
    apply refused_of_eq
    rw [dispatch_regCommand polls s (by simp [Accesses])]
    change (handle_G s (data ++ 0 :: stale) >>= _) = _
    rw [handle_G, hlocal, if_pos hshort]

/-! ## Single values -/

theorem value_refused_iff (args stale : List UInt8) :
    Refused fails polls s ⟨80 :: args, stale⟩ ↔ strchr 61 (args ++ [0]) = none := by
  have hP : dispatchPacket polls s ⟨80 :: args, stale⟩ =
      (handle_P s (80 :: args ++ 0 :: stale) >>= fun _ => return some s) :=
    dispatch_P polls s _ _ rfl
  have hskip : ∀ t, strchr 61 (80 :: args ++ 0 :: t) = strchr 61 (args ++ 0 :: t) := fun t => by
    simp [strchr]
  rcases strchr_cases 61 (by decide) args with hno | ⟨pre, post, -, -, -, heq⟩
  · refine ⟨fun _ => hno [], fun _ => ?_⟩
    apply refused_of_eq
    rw [hP, handle_P, hskip, hno]
  · constructor
    · intro h
      refine absurd h (not_refused fun regs => ?_)
      rw [hP, wp_bind]
      simp only [handle_P, hskip, heq]
      split
      · rw [wp_bind]
        refine wp_mono _ ?_ (fun _ _ _ => trivial) (wp_setReg_core s regs [] _ _)
        rintro _ _ rfl
        exact (wp_putPacket_replying _ _).mpr rfl
      · exact (wp_putPacket_replying _ _).mpr rfl
    · intro hnone
      cases hnone.symm.trans (heq [])

/-! ## Memory -/

theorem digitsFor_hexPairs {n : Nat} {data : List UInt8} (h : DigitsFor (2 * n) data)
    (t : List UInt8) : ∃ mb, hexPairs n (data ++ t) = some mb := by
  induction n generalizing data with
  | zero => exact ⟨[], rfl⟩
  | succ n ih =>
    obtain ⟨hlen, hall⟩ := h
    match data, hlen with
    | hi :: lo :: data, hlen =>
      rw [show 2 * (n + 1) = 2 * n + 1 + 1 by omega, List.take_succ_cons,
        List.take_succ_cons] at hall
      simp only [List.mem_cons, forall_eq_or_imp] at hall
      obtain ⟨hhi, hlo, hrest⟩ := hall
      obtain ⟨mb, hmb⟩ := ih ⟨by simp only [List.length_cons] at hlen; omega, hrest⟩
      have hgood : ¬ (hexval hi < 0 ∨ hexval lo < 0) := by
        rw [hexval_nonneg_iff, hexval_nonneg_iff, not_or]
        exact ⟨Option.isSome_iff_ne_none.mp hhi, Option.isSome_iff_ne_none.mp hlo⟩
      simp only [hexPairs, List.cons_append, List.getD_cons_zero, List.getD_cons_succ, hgood,
        ↓reduceIte, List.drop_succ_cons, List.drop_zero, hmb, Option.map_some]
      exact ⟨_, rfl⟩

theorem cutLen_eq (len : List UInt8) (hl : HexText len) (data : List UInt8) :
    (strtoull (len ++ 58 :: data)).toUInt32.toNat = cutLen (hexValue len) := by
  rw [strtoull, number16_hexText len hl 58 rfl (by decide) data, cutLen]
  dsimp only
  split
  · simp only [Bool.false_eq_true, ↓reduceIte, UInt64.toNat_toUInt32, UInt64.toNat_ofNat']
    omega
  · rfl

/-- How an `M` packet is read, whatever its numbers. -/
theorem handle_M_header {addr len : List UInt8} (ha : HexText addr) (hl : HexText len)
    (data : List UInt8) :
    handle_M s (packetM addr len data) =
      match hexPairs (cutLen (hexValue len)) data with
      | none => putPacket (bytes "E01")
      | some mb =>
        onBus (tcmcdWrite s.active.target (strtoull ((packetM addr len data).drop 1))
          (fun i => mb.getD i 0) (strtoull (len ++ 58 :: data)).toUInt32) >>= fun rc =>
        putPacket (okOr rc) := by
  rw [← cutLen_eq len hl data]
  cases hp : hexPairs (strtoull (len ++ 58 :: data)).toUInt32.toNat data <;>
    simp only [handle_M, packetM_comma ha, packetM_colon ha hl, List.cons_append,
      List.drop_succ_cons, List.drop_zero, hp]

theorem succeeds_coreRegs : Succeeds (coreRegs fun _ => False) where
  read regs c a v regs' h := by
    rcases h.1 with rfl | ⟨-, hno⟩
    · exact ⟨_, rfl⟩
    · exact hno.elim
  write regs c a v b regs' h := by
    rcases h with ⟨rfl, -⟩ | ⟨-, hno, -⟩
    · rfl
    · exact hno.elim

theorem memory_refused_iff {addr len : List UInt8} (ha : HexText addr) (hl : HexText len)
    (data stale : List UInt8) :
    Refused fails polls s ⟨packetM addr len data, stale⟩ ↔
      ¬ DigitsFor (2 * cutLen (hexValue len)) data := by
  have hM : dispatchPacket polls s ⟨packetM addr len data, stale⟩ =
      (handle_M s (packetM addr len (data ++ 0 :: stale)) >>= fun _ => return some s) := by
    rw [dispatchPacket, Packet.buf, dispatch_M polls s _ _ rfl]
    simp [packetM]
  rw [handle_M_header ha hl] at hM
  constructor
  · intro h hdigits
    obtain ⟨mb, hmb⟩ := digitsFor_hexPairs hdigits (0 :: stale)
    refine not_refused (fun regs => ?_) h
    rw [hM, hmb, wp_bind]
    dsimp only
    rw [wp_bind]
    refine wp_mono _ ?_ (fun _ _ _ => trivial)
      (wp_onBus_replying [] (tcmcdWrite_succeeds succeeds_coreRegs _ _ _ _ regs))
    rintro rc ⟨regs', out⟩ ⟨rfl, rfl⟩
    exact (wp_putPacket_replying _ _).mpr rfl
  · intro hbad
    apply refused_of_eq
    rw [hM, hexPairs_malformed _ _ _ hbad]

end

/-- Exactly which of the write packets with malformed data are refused. -/
theorem malformed_refused (fails : BusOp → Prop) (polls : Nat) (s : Stub) (stale : List UInt8) :
    (∀ data, BadBlock s data →
      (Refused fails polls s ⟨71 :: data, stale⟩ ↔ strlen (data ++ [0]) < NREG * 8)) ∧
    (∀ args, BadValue args →
      (Refused fails polls s ⟨80 :: args, stale⟩ ↔ strchr 61 (args ++ [0]) = none)) ∧
    (∀ addr len data, HexText addr → HexText len → ¬ DigitsFor (2 * hexValue len) data →
      (Refused fails polls s ⟨packetM addr len data, stale⟩ ↔
        ¬ DigitsFor (2 * cutLen (hexValue len)) data)) ∧
    (∀ args, 44 ∉ args ∨ 58 ∉ args → Refused fails polls s ⟨77 :: args, stale⟩) := by
  refine ⟨fun data _ => block_refused_iff data stale, fun args _ => value_refused_iff args stale,
    fun addr len data ha hl _ => memory_refused_iff ha hl data stale, fun args hargs => ?_⟩
  apply refused_of_eq
  rw [dispatchPacket, Packet.buf, dispatch_M polls s _ _ rfl, handle_M_incomplete s args hargs]

/-! ## A value of letters -/

theorem badValue_z : BadValue (bytes "0=zzzzzzzz") := by
  intro v hv
  obtain rfl : bytes "zzzzzzzz" ++ [0] = v := by
    injection Option.some.inj hv with _ hv
  rintro ⟨-, hdigits⟩
  exact absurd (hdigits 122 (by decide)) (by decide)

theorem noDigits_one : ¬ DigitsFor (2 * hexValue (bytes "1")) [] := by
  rintro ⟨hlen, -⟩
  exact absurd hlen (by decide)

theorem malformed_refused_one :
    Refused (fun _ => True) 0 .lone ⟨bytes "G12", []⟩ ∧
      ¬ Refused (fun _ => True) 0 .lone ⟨bytes "P0=zzzzzzzz", []⟩ ∧
      Refused (fun _ => True) 0 .lone ⟨bytes "M0,1:", []⟩ ∧
      Refused (fun _ => True) 0 .lone ⟨bytes "M0", []⟩ := by
  obtain ⟨hG, hP, hM, hM'⟩ := malformed_refused (fun _ => True) 0 .lone []
  refine ⟨?_, ?_, ?_, ?_⟩
  · exact (hG (bytes "12") (.inl (by decide))).mpr (by decide)
  · exact fun h => absurd ((hP _ badValue_z).mp h) (by decide)
  · exact (hM (bytes "0") (bytes "1") [] (by decide) (by decide) noDigits_one).mpr noDigits_one
  · exact hM' (bytes "0") (.inl (by decide))

/-- The value has no digit, and `d0` is written. -/
theorem bad_digit_written :
    ¬ ∀ data args addr len mem, BadBlock .lone data → BadValue args → HexText addr → HexText len →
      ¬ DigitsFor (2 * hexValue len) mem →
      Refused (fun _ => False) 0 .lone ⟨71 :: data, []⟩ ∧
        Refused (fun _ => False) 0 .lone ⟨80 :: args, []⟩ ∧
        Refused (fun _ => False) 0 .lone ⟨packetM addr len mem, []⟩ := by
  intro h
  obtain ⟨-, hrefused, -⟩ := h [] _ (bytes "0") (bytes "1") [] (.inl (by decide)) badValue_z
    (by decide) (by decide) noDigits_one
  cases (value_refused_iff _ []).mp hrefused

end OpenTricore.Malformed
