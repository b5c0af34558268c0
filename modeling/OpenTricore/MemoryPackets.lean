import OpenTricore.Handlers
import OpenTricore.MemoryAccess

/-! The `M` and `m` packets on a memory of plain bytes. What an `M` packet writes
is read back by an `m` packet in lower case, for every text of the address, the
length and the data, and a packet whose data is malformed touches nothing. -/

namespace OpenTricore
open Lib Lib.Prog

/-! ## Data as pairs of digits -/

/-- `data` is a hexadecimal text of the bytes, digits in either case. -/
inductive HexData : List UInt8 → List UInt8 → Prop
  | nil : HexData [] []
  | cons {hi lo b : UInt8} {h l : Nat} {bs data : List UInt8} (hh : digit16 hi = some h)
      (hl : digit16 lo = some l) (hb : b.toNat = 16 * h + l) (hd : HexData bs data) :
      HexData (b :: bs) (hi :: lo :: data)

/-- The first `n` characters are there, and are digits. -/
def DigitsFor (n : Nat) (data : List UInt8) : Prop :=
  n ≤ data.length ∧ ∀ c ∈ data.take n, (digit16 c).isSome

theorem hexPairs_hexData {d data : List UInt8} (h : HexData d data) (t : List UInt8) :
    hexPairs d.length (data ++ t) = some d := by
  induction h with
  | nil => rfl
  | cons hh hl hb hd ih =>
    simp [hexPairs, hexval_some hh, hexval_some hl, ih,
      nibbles _ (digit16_some hh).1 (digit16_some hl).1 hb]

theorem hexPairs_malformed (n : Nat) (data t : List UInt8) (h : ¬ DigitsFor (2 * n) data) :
    hexPairs n (data ++ 0 :: t) = none := by
  induction n generalizing data with
  | zero => exact absurd ⟨by omega, by simp⟩ h
  | succ n ih =>
    rw [hexPairs]
    split
    · rfl
    · rename_i hgood
      simp only [hexval_nonneg_iff, not_or] at hgood
      rcases data with _ | ⟨hi, _ | ⟨lo, data⟩⟩
      · exact absurd rfl hgood.1
      · exact absurd rfl hgood.2
      · have hrest : ¬ DigitsFor (2 * n) data := by
          rintro ⟨hlen, hall⟩
          refine h ⟨by simp only [List.length_cons]; omega, ?_⟩
          rw [show 2 * (n + 1) = 2 * n + 1 + 1 by omega, List.take_succ_cons, List.take_succ_cons]
          simp only [List.mem_cons, forall_eq_or_imp]
          exact ⟨Option.ne_none_iff_isSome.mp hgood.1, Option.ne_none_iff_isSome.mp hgood.2, hall⟩
        simp [ih data hrest]

/-! ## The packets -/

/-- `M addr,len:data`. -/
def packetM (addr len data : List UInt8) : List UInt8 := 77 :: addr ++ 44 :: len ++ 58 :: data

/-- `m addr,len`. -/
def packetm (addr len : List UInt8) : List UInt8 := 109 :: addr ++ 44 :: len

theorem not_mem_header {f : List UInt8} (hf : HexText f) {c : UInt8} (hc : digit16 c = none)
    (h0 : c ≠ 77) : c ∉ 77 :: f := by
  rw [List.mem_cons, not_or]
  exact ⟨h0, hf.not_mem hc⟩

theorem packetM_comma {addr : List UInt8} (ha : HexText addr) (len data : List UInt8) :
    strchr 44 (packetM addr len data) = some (44 :: len ++ 58 :: data) := by
  have := strchr_first 44 (77 :: addr) (len ++ 58 :: data) (not_mem_header ha rfl (by decide))
    (not_mem_header ha rfl (by decide))
  simpa [packetM] using this

theorem packetM_colon {addr len : List UInt8} (ha : HexText addr) (hl : HexText len)
    (data : List UInt8) :
    strchr 58 (packetM addr len data) = some (58 :: data) := by
  refine strchr_first 58 (77 :: addr ++ 44 :: len) data ?_ ?_ <;>
    · simp only [List.mem_append, List.mem_cons, not_or]
      exact ⟨⟨by decide, ha.not_mem rfl⟩, by decide, hl.not_mem rfl⟩

/-- How an `M` packet is read. -/
theorem handle_M_packetM (s : Stub) {addr len : List UInt8} (ha : HexText addr)
    (haddr : hexValue addr < 2 ^ 64) (hl : HexText len) (hlen : hexValue len < 2 ^ 64)
    (data : List UInt8) :
    handle_M s (packetM addr len data) =
      match hexPairs (UInt64.ofNat (hexValue len)).toUInt32.toNat data with
      | none => putPacket (bytes "E01")
      | some mb => onBus (tcmcdWrite s.active.target (UInt64.ofNat (hexValue addr))
          (fun i => mb.getD i 0) (UInt64.ofNat (hexValue len)).toUInt32) >>= fun rc =>
          putPacket (okOr rc) := by
  have haddr' := strtoull_hexText addr ha 44 rfl (by decide) (len ++ 58 :: data) haddr
  have hlen' := strtoull_hexText len hl 58 rfl (by decide) data hlen
  have hdrop : (packetM addr len data).drop 1 = addr ++ 44 :: (len ++ 58 :: data) := by
    simp [packetM]
  cases hdata : hexPairs (UInt64.ofNat (hexValue len)).toUInt32.toNat data with
  | none =>
    simp only [handle_M, packetM_comma ha, packetM_colon ha hl, List.cons_append,
      List.drop_succ_cons, List.drop_zero, hlen', hdata]
  | some mb =>
    simp only [handle_M, packetM_comma ha, packetM_colon ha hl, hdrop, List.cons_append,
      List.drop_succ_cons, List.drop_zero, haddr', hlen', hdata]

/-- How an `m` packet is read. -/
theorem handle_m_packetm (s : Stub) {addr len : List UInt8} (ha : HexText addr)
    (haddr : hexValue addr < 2 ^ 64) (hl : HexText len) (hlen : hexValue len < 2 ^ 64)
    (stale : List UInt8) :
    handle_m s (packetm addr len ++ 0 :: stale) =
      if (UInt64.ofNat (hexValue len)).toUInt32 = 0 then putPacket (bytes "")
      else
        let n := min (UInt64.ofNat (hexValue len)).toUInt32 (UInt32.ofNat ((BUFSZ - 8) / 2))
        malloc n >>= fun mb =>
        onBus (tcmcdRead s.active.target (UInt64.ofNat (hexValue addr)) mb n) >>= fun x =>
        putPacket (if x.1 ≠ 0 then bytes "E01" else hexOfBytes x.2 n.toNat) := by
  have hcomma := strchr_first 44 (109 :: addr) (len ++ 0 :: stale)
    (by simpa using ha.not_mem rfl) (by simpa using ha.not_mem rfl)
  have haddr' := strtoull_hexText addr ha 44 rfl (by decide) (len ++ 0 :: stale) haddr
  have hlen' := strtoull_hexText len hl 0 rfl (by decide) stale hlen
  simp only [List.cons_append] at hcomma
  simp only [handle_m, numberAfterComma, packetm, List.cons_append, List.append_assoc, hcomma,
    List.drop_succ_cons,
    List.drop_zero, haddr', hlen']

theorem dispatch_M (polls : Nat) (s : Stub) (p : List UInt8) (n : Int) (h : p.getD 0 0 = 77) :
    dispatch polls s p n = (handle_M s p >>= fun _ => return some s) := by
  simp only [dispatch, h]
  rfl

theorem dispatch_m (polls : Nat) (s : Stub) (p : List UInt8) (n : Int) (h : p.getD 0 0 = 109) :
    dispatch polls s p n = (handle_m s p >>= fun _ => return some s) := by
  simp only [dispatch, h]
  rfl

/-! ## Writing and reading back -/

theorem HexData.length {d data : List UInt8} (h : HexData d data) :
    data.length = 2 * d.length := by
  induction h with
  | nil => rfl
  | cons _ _ _ _ ih => simp only [List.length_cons, ih]; omega

/-- The reply of an `m` packet is never cut for data that fits an `M` packet. -/
theorem fits_reply {addr len data d : List UInt8} (ha : HexText addr)
    (hlen : hexValue len = d.length) (hd : HexData d data)
    (hfit : (packetM addr len data).length < BUFSZ) : d.length ≤ (BUFSZ - 8) / 2 := by
  have hdata := hd.length
  have haddr : 0 < addr.length := List.length_pos_iff.mpr ha.1
  simp only [packetM, List.cons_append, List.length_cons, List.length_append, BUFSZ] at hfit ⊢
  -- a length of more than 4095 bytes takes four digits
  rcases Nat.lt_or_ge len.length 4 with h | h
  · have hlt : hexValue len < 16 ^ 3 :=
      Nat.lt_of_lt_of_le (hexValue_lt len) (Nat.pow_le_pow_right (by omega) (by omega))
    omega
  · omega

/-- The stub is back in its loop, with the reply sent and the memory as `m`. -/
def Replied (s : Stub) (out : List (List UInt8)) (reply : List UInt8) (m : Mem)
    (r : Option Stub) (x : Mem × List (List UInt8)) : Prop :=
  r = some s ∧ x = (m, out ++ [reply])

theorem hexOfBytes_eq {mb : Nat → UInt8} {d : List UInt8} (h : ∀ i < d.length, mb i = d.getD i 0) :
    hexOfBytes mb d.length = d.flatMap hexOfByte := by
  have hd : (List.range d.length).map mb = d := by
    apply List.ext_getElem
    · simp
    · intro i _ hi
      simp [h i hi, hi]
  rw [hexOfBytes]
  conv_rhs => rw [← hd, List.flatMap_map]

section
variable (polls : Nat) (s : Stub) {addr len : List UInt8} (ha : HexText addr)
  (haddr : hexValue addr < 2 ^ 32) (hl : HexText len) (m : Mem) (out : List (List UInt8))
include ha haddr hl

/-- Reading answers the bytes in memory. -/
theorem dispatch_packetm {d : List UInt8} (hlen : hexValue len = d.length)
    (hd : d.length ≤ (BUFSZ - 8) / 2) (hm : ∀ i < d.length, m (hexValue addr + i) = d.getD i 0)
    (stale : List UInt8) (n : Int) :
    (dispatch polls s (packetm addr len ++ 0 :: stale) n).wp (replying readableMemory)
      (Replied s out (d.flatMap hexOfByte) m) (fun _ _ => False) (m, out) := by
  simp only [BUFSZ] at hd
  have hlen32 : (UInt64.ofNat (hexValue len)).toUInt32.toNat = d.length := by
    simp only [UInt64.toNat_toUInt32, UInt64.toNat_ofNat']
    omega
  have haddr64 : (UInt64.ofNat (hexValue addr)).toNat = hexValue addr := by
    rw [UInt64.toNat_ofNat']
    omega
  rw [dispatch_m polls s _ n rfl, handle_m_packetm s ha (by omega) hl (by omega), wp_bind]
  split
  · -- nothing was asked for
    rename_i h0
    have : d = [] := by
      rw [h0] at hlen32
      exact List.length_eq_zero_iff.mp hlen32.symm
    subst this
    simp [Replied, bytes]
  · have hmin : min (UInt64.ofNat (hexValue len)).toUInt32 (UInt32.ofNat ((BUFSZ - 8) / 2)) =
        (UInt64.ofNat (hexValue len)).toUInt32 := by
      rw [UInt32.min_def, if_pos]
      rw [UInt32.le_iff_toNat_le, hlen32]
      exact hd
    simp only [hmin, wp_bind, wp_malloc_replying]
    intro garbage
    have hr : WordRange (UInt64.ofNat (hexValue addr)) (UInt64.ofNat (hexValue len)).toUInt32 :=
      ⟨by omega⟩
    have hspec := wp_and _
      (wp_env_mono memory_of_readable (tcmcdRead_spec s.active.target _ garbage _ hr m))
      (tcmcdRead_readable s.active.target _ garbage _ hr m)
    refine wp_mono _ ?_ (fun _ _ h => h.1.1) (wp_onBus_replying out hspec)
    rintro ⟨rc, mb⟩ ⟨m', out'⟩ ⟨⟨⟨hm', hread⟩, hrc⟩, hout⟩
    dsimp only at hm' hread hrc hout
    subst hm' hrc hout
    obtain h | ⟨-, hmb⟩ := hread
    · cases h
    · rw [hlen32, haddr64] at hmb
      have hreply := hexOfBytes_eq fun i hi => (hmb i hi).trans (hm i hi)
      simp only [ne_eq, not_true_eq_false, ↓reduceIte, hlen32, hreply, wp_putPacket_replying,
        pure_eq, wp_ret]
      exact ⟨rfl, rfl⟩

/-- Writing answers `OK` with the data in memory and everything else as it was,
or `E01` with a part of it written, word by word. -/
theorem dispatch_packetM {d data : List UInt8} (hlen : hexValue len = d.length)
    (hd : d.length ≤ (BUFSZ - 8) / 2) (hdata : HexData d data) (stale : List UInt8) (n : Int) :
    (dispatch polls s (packetM addr len data ++ 0 :: stale) n).wp (replying memory)
      (fun r x =>
        Replied s out (bytes "OK") (storeRange m (hexValue addr) d.length fun i => d.getD i 0) r x ∨
        ∃ k ≤ d.length, Replied s out (bytes "E01")
          (storeRange m (hexValue addr) k fun i => d.getD i 0) r x)
      (fun _ _ => False) (m, out) := by
  simp only [BUFSZ] at hd
  have hlen32 : (UInt64.ofNat (hexValue len)).toUInt32.toNat = d.length := by
    simp only [UInt64.toNat_toUInt32, UInt64.toNat_ofNat']
    omega
  have haddr64 : (UInt64.ofNat (hexValue addr)).toNat = hexValue addr := by
    rw [UInt64.toNat_ofNat']
    omega
  have hpacket : packetM addr len data ++ 0 :: stale = packetM addr len (data ++ 0 :: stale) := by
    simp [packetM]
  rw [hpacket, dispatch_M polls s _ n rfl, handle_M_packetM s ha (by omega) hl (by omega), hlen32,
    hexPairs_hexData hdata, wp_bind]
  dsimp only
  have hr : WordRange (UInt64.ofNat (hexValue addr)) (UInt64.ofNat (hexValue len)).toUInt32 :=
    ⟨by omega⟩
  have hspec := tcmcdWrite_spec s.active.target _ (fun i => d.getD i 0) _ hr m
  rw [wp_bind]
  refine wp_mono _ ?_ (fun _ _ h => h.1) (wp_onBus_replying out hspec)
  rintro rc ⟨m', out'⟩ ⟨hwrite, hout⟩
  dsimp only at hwrite hout
  subst hout
  rw [wp_putPacket_replying, pure_eq, wp_ret]
  obtain ⟨rfl, rfl⟩ | ⟨rfl, a, -, rfl⟩ := hwrite
  · left
    rw [hlen32, haddr64]
    exact ⟨rfl, rfl⟩
  · right
    refine ⟨min a.toNat (hexValue addr + d.length) - hexValue addr, by omega, rfl, ?_⟩
    rw [writtenBelow, hlen32, haddr64]
    rfl

/-- A packet with malformed data is refused, and nothing is accessed. -/
theorem dispatch_packetM_malformed {data : List UInt8} (hlen : hexValue len < 2 ^ 32)
    (hdata : ¬ DigitsFor (2 * hexValue len) data) (stale : List UInt8) (n : Int) :
    (dispatch polls s (packetM addr len data ++ 0 :: stale) n).wp (replying memory)
      (Replied s out (bytes "E01") m) (fun _ _ => False) (m, out) := by
  have hlen32 : (UInt64.ofNat (hexValue len)).toUInt32.toNat = hexValue len := by
    simp only [UInt64.toNat_toUInt32, UInt64.toNat_ofNat']
    omega
  have hpacket : packetM addr len data ++ 0 :: stale = packetM addr len (data ++ 0 :: stale) := by
    simp [packetM]
  rw [hpacket, dispatch_M polls s _ n rfl, handle_M_packetM s ha (by omega) hl (by omega), hlen32,
    hexPairs_malformed _ _ _ hdata]
  simp [Replied]

end

theorem handle_M_incomplete (s : Stub) (args : List UInt8) (hargs : 44 ∉ args ∨ 58 ∉ args)
    (stale : List UInt8) : handle_M s (77 :: args ++ 0 :: stale) = putPacket (bytes "E01") := by
  rw [handle_M]
  obtain h | h := hargs
  · rw [strchr_absent 44 (by decide) (77 :: args) stale (by simpa using h)]
  · rw [strchr_absent 58 (by decide) (77 :: args) stale (by simpa using h)]
    cases strchr 44 (77 :: args ++ 0 :: stale) <;> rfl

/-- A packet without a comma or without a colon is refused. -/
theorem dispatch_M_incomplete (polls : Nat) (s : Stub) (m : Mem) (out : List (List UInt8))
    (args : List UInt8) (hargs : 44 ∉ args ∨ 58 ∉ args) (stale : List UInt8) (n : Int) :
    (dispatch polls s (77 :: args ++ 0 :: stale) n).wp (replying memory)
      (Replied s out (bytes "E01") m) (fun _ _ => False) (m, out) := by
  rw [dispatch_M polls s _ n rfl, handle_M_incomplete s args hargs]
  simp [Replied]

/-- What an `M` packet writes is what memory holds afterwards and what an `m`
packet for the same range answers, in lower case, and a malformed `M` packet is
refused with memory as it was. The range may be written differently in the two
packets. A packet that is refused because an access failed has written a part from the
start of its range. -/
theorem memory_packets_round_trip (polls : Nat) (s : Stub) (addr len : List UInt8)
    (ha : HexText addr) (haddr : hexValue addr < 2 ^ 32) (hl : HexText len) (m : Mem)
    (out : List (List UInt8)) :
    (∀ (d data stale : List UInt8), HexData d data → hexValue len = d.length →
      (packetM addr len data).length < BUFSZ →
      (dispatch polls s (packetM addr len data ++ 0 :: stale) (packetM addr len data).length).wp
        (replying memory) (fun r x =>
          (∃ m', Replied s out (bytes "OK") m' r x ∧
            m' = storeRange m (hexValue addr) d.length (fun i => d.getD i 0) ∧
            ∀ addr' len' stale' : List UInt8, HexText addr' → HexText len' →
              hexValue addr' = hexValue addr → hexValue len' = hexValue len →
              (dispatch polls s (packetm addr' len' ++ 0 :: stale') (packetm addr' len').length).wp
                (replying readableMemory)
                (Replied s x.2 (d.flatMap hexOfByte) m') (fun _ _ => False) x) ∨
          ∃ k ≤ d.length, Replied s out (bytes "E01")
            (storeRange m (hexValue addr) k fun i => d.getD i 0) r x) (fun _ _ => False) (m, out)) ∧
    (∀ data stale : List UInt8, hexValue len < 2 ^ 32 → ¬ DigitsFor (2 * hexValue len) data →
      (dispatch polls s (packetM addr len data ++ 0 :: stale) (packetM addr len data).length).wp
        (replying memory) (Replied s out (bytes "E01") m) (fun _ _ => False) (m, out)) ∧
    (∀ args stale : List UInt8, 44 ∉ args ∨ 58 ∉ args →
      (dispatch polls s (77 :: args ++ 0 :: stale) (77 :: args).length).wp
        (replying memory) (Replied s out (bytes "E01") m) (fun _ _ => False) (m, out)) := by
  refine ⟨?_, ?_, ?_⟩
  · intro d data stale hdata hlen hfit
    have hd := fits_reply ha hlen hdata hfit
    refine wp_mono _ ?_ (fun _ _ h => h)
      (dispatch_packetM polls s ha haddr hl m out hlen hd hdata stale _)
    rintro r x (hok | he)
    · refine .inl ⟨_, hok, rfl, ?_⟩
      intro addr' len' stale' ha' hl' haddr' hlen'
      obtain ⟨-, rfl⟩ := hok
      refine dispatch_packetm polls s ha' (by omega) hl' _ _ (by omega) hd ?_ stale' _
      intro i hi
      rw [haddr', storeRange_apply, if_pos (by omega), Nat.add_sub_cancel_left]
    · exact .inr he
  · intro data stale hlen hdata
    exact dispatch_packetM_malformed polls s ha haddr hl m out hlen hdata stale _
  · intro args stale hargs
    exact dispatch_M_incomplete polls s m out args hargs stale _

/-- Memory whose accesses succeed. -/
def memoryBy (m : Mem) : (o : BusOp) → BusSig.Res o × Mem
  | .read _ a => ((some (loadWord m a.address.toNat) : Option UInt32), m)
  | .write _ a v => (true, storeWord m a.address.toNat v)

theorem memory_memoryBy (m : Mem) (o : BusOp) : memory m o (memoryBy m o).1 (memoryBy m o).2 := by
  cases o with
  | read c a =>
    refine ⟨rfl, fun w hw => ?_⟩
    exact (Option.some.inj hw).symm
  | write c a v => exact .inl ⟨rfl, rfl⟩

/-- Two bytes at `0x70000102` are written and read back, and the same packet with a bad
digit is refused. -/
theorem memory_packets_round_trip_two :
    (∃ r x, Runs (replying memory) (dispatch 0 .lone (bytes "M70000102,2:aB0f" ++ [0]) 16)
        (fun _ => 0, []) (.ok r) x ∧
      Replied .lone [] (bytes "OK")
        (storeRange (fun _ => 0) 0x70000102 2 fun i => [0xAB, 0x0F].getD i 0) r x ∧
      (dispatch 0 .lone (bytes "m70000102,02" ++ [0]) 12).wp (replying readableMemory)
        (Replied .lone x.2 (bytes "ab0f")
          (storeRange (fun _ => 0) 0x70000102 2 fun i => [0xAB, 0x0F].getD i 0))
        (fun _ _ => False) x) ∧
    (dispatch 0 .lone (bytes "M70000102,2:aB0g" ++ [0]) 16).wp (replying memory)
      (Replied .lone [] (bytes "E01") fun _ => 0) (fun _ _ => False) (fun _ => 0, []) := by
  have h := memory_packets_round_trip 0 .lone (bytes "70000102") (bytes "2")
    (by decide +kernel) (by decide +kernel) (by decide +kernel) (fun _ => 0) []
  have hdata : HexData [0xAB, 0x0F] (bytes "aB0f") :=
    .cons (h := 10) (l := 11) rfl rfl rfl (.cons (h := 0) (l := 15) rfl rfl rfl .nil)
  constructor
  · have hrun := runs_replyingBy (E := memory) memoryBy memory_memoryBy
      (dispatch 0 .lone (bytes "M70000102,2:aB0f" ++ [0]) 16) (fun _ => 0, [])
    have hreply : ((dispatch 0 .lone (bytes "M70000102,2:aB0f" ++ [0]) 16).exec
        (replyingBy memoryBy) (fun _ => 0, [])).2.2 = [bytes "OK"] := by decide +kernel
    obtain ⟨hok, herr⟩ := hrun.sound _ (h.1 [0xAB, 0x0F] (bytes "aB0f") [] hdata rfl (by decide))
    cases hx : ((dispatch 0 .lone (bytes "M70000102,2:aB0f" ++ [0]) 16).exec
        (replyingBy memoryBy) (fun _ => 0, [])).1 with
    | error e => exact (herr e hx).elim
    | ok r =>
      rw [hx] at hrun
      refine ⟨r, _, hrun, ?_⟩
      obtain ⟨_, hr, rfl, hread⟩ | ⟨k, -, -, he⟩ := hok r hx
      · exact ⟨hr, hread (bytes "70000102") (bytes "02") [] (by decide +kernel) (by decide +kernel)
          rfl (by decide +kernel)⟩
      · rw [he] at hreply
        have hsame : [bytes "E01"] = [bytes "OK"] := hreply
        exact absurd hsame (by decide)
  · refine h.2.1 (bytes "aB0g") [] (by decide) ?_
    rintro ⟨-, hall⟩
    exact absurd (hall 103 (by decide)) (by decide)

end OpenTricore
