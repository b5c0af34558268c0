import OpenTricore.Registers

/-! Single registers, `handle_p` and `handle_P`. The number of the register is cut to an
`unsigned`, and a `P` packet is answered by `OK` also where it writes nothing. -/

namespace OpenTricore.RegisterWrites
open OpenTricore Lib Lib.Prog Threads Registers

/-- The number names a register that is available, at the address `a`. -/
def Available (s : Stub) (n : List UInt8) (a : McdAddr) : Prop :=
  ∃ i, hexValue n = i.val ∧ s.active.reg i = some a

/-- What is asked of `P n=v`. -/
structure Acknowledged (bad : Core → McdAddr → UInt32 → Prop) (polls : Nat) (s : Stub)
    (n v : List UInt8) : Prop where
  /-- After `OK`, `p n` returns `v`, and no other register changed. -/
  written : ∀ p regs s' regs', p.payload = 80 :: n ++ 61 :: v →
    Step (fileRegs bad) polls s regs ⟨p, [bytes "OK"]⟩ s' regs' →
    s' = s ∧ (∀ c b, ¬ (c = s.active.target.core ∧ Available s n b) → regs' c b = regs c b) ∧
      ∀ q : Packet, q.payload = 112 :: n → (dispatchPacket polls s' q).wp (replying (fileRegs bad))
        (fun r y => r = some s' ∧ y = (regs', [v.map tolower])) (fun _ _ => False) (regs', [])
  /-- What is not available is answered by an error. -/
  refused : (∀ a, ¬ Available s n a) → ∀ p regs, p.payload = 80 :: n ++ 61 :: v →
    (dispatchPacket polls s p).wp (replying (fileRegs bad))
      (fun _ y => ∃ e : List UInt8, e.getD 0 0 = 69 ∧ y.2 = [e]) (fun _ _ => False) (regs, [])

section
variable {bad : Core → McdAddr → UInt32 → Prop} {polls : Nat} {s : Stub} {n v : List UInt8}

theorem regAt_available {i : Fin NREG} (hn : HexText n) (hi : hexValue n = i.val)
    (hok : s.active.regok i = true) {c : UInt8} (hc : digit16 c = none) (hx : c ≠ 120 ∧ c ≠ 88)
    (t : List UInt8) : regAt s (strtoull (n ++ c :: t)).toUInt32 = some i := by
  have hlt : hexValue n < NREG := hi ▸ i.isLt
  have hval : (strtoull (n ++ c :: t)).toUInt32.toNat = i.val := by
    rw [strtoull_hexText n hn c hc hx t (Nat.lt_trans hlt (by decide)), hi]
    simp only [UInt64.toNat_toUInt32, UInt64.toNat_ofNat']
    have := i.isLt
    simp only [NREG] at this
    omega
  unfold regAt
  simp only [hval, i.isLt, ↓reduceDIte, Fin.eta, hok, ↓reduceIte]

/-- The number and the value of a `P` packet. -/
theorem handle_P_packet (hn : HexText n) (stale : List UInt8) :
    handle_P s (80 :: n ++ 61 :: v ++ 0 :: stale) =
      match regAt s (strtoull (n ++ 61 :: (v ++ 0 :: stale))).toUInt32 with
      | some i => do
        setReg s (s.active.rega i) (getU32Le (v ++ 0 :: stale))
        putPacket (bytes "OK")
      | none => putPacket (bytes "OK") := by
  have heq : strchr 61 (80 :: n ++ 61 :: v ++ 0 :: stale) = some (61 :: (v ++ 0 :: stale)) := by
    have hfirst := strchr_first 61 (80 :: n) (v ++ 0 :: stale)
      (by simpa using hn.not_mem (by decide)) (by simpa using hn.not_mem digit16_zero)
    simpa using hfirst
  have hnum : (80 :: n ++ 61 :: v ++ 0 :: stale).drop 1 = n ++ 61 :: (v ++ 0 :: stale) := by simp
  simp only [handle_P, heq, hnum]
  rfl

/-- A register that is available is written, or the stub dies. -/
theorem wp_P {i : Fin NREG} (hn : HexText n) (hi : hexValue n = i.val)
    (hok : s.active.regok i = true) (regs : Regs) (stale : List UInt8) :
    (dispatchPacket polls s ⟨80 :: n ++ 61 :: v, stale⟩).wp (replying (fileRegs bad))
      (fun r y => r = some s ∧
        y = (regs.set s.active.target.core (s.active.rega i) (getU32Le (v ++ 0 :: stale)),
          [bytes "OK"]))
      (fun _ _ => True) (regs, []) := by
  have hat : regAt s (strtoull (n ++ 61 :: (v ++ 0 :: stale))).toUInt32 = some i :=
    regAt_available hn hi hok (by decide) (by decide) _
  rw [dispatchPacket, dispatch_P polls s _ _ rfl, wp_bind, Packet.buf, handle_P_packet hn, hat]
  simp only [wp_bind]
  refine wp_mono _ ?_ (fun _ _ _ => trivial) (wp_setReg_core s regs [] _ _)
  rintro _ _ rfl
  exact (wp_putPacket_replying _ _).mpr ⟨rfl, rfl⟩

variable (bad polls) in
theorem wp_p {i : Fin NREG} (hn : HexText n) (hi : hexValue n = i.val)
    (hok : s.active.regok i = true) (regs : Regs) (stale : List UInt8) :
    (dispatchPacket polls s ⟨112 :: n, stale⟩).wp (replying (fileRegs bad))
      (fun r y => r = some s ∧ y = (regs, [putU32Le (regs s.active.target.core (s.active.rega i))]))
      (fun _ _ => False) (regs, []) := by
  have hat := regAt_available hn hi hok digit16_zero (by decide) stale
  have hp : dispatchPacket polls s ⟨112 :: n, stale⟩ =
      (handle_p s (112 :: (n ++ 0 :: stale)) >>= fun _ => return some s) := by
    simp only [dispatchPacket, dispatch, Packet.buf, List.cons_append, List.getD_cons_zero]
    rfl
  rw [hp, wp_bind, handle_p, List.drop_one, List.tail_cons, hat]
  simp only [wp_bind]
  apply wp_mono _ ?_ (fun _ _ h => h) (wp_getReg_file s regs [] (s.active.rega i))
  rintro _ _ ⟨rfl, rfl⟩
  exact (wp_putPacket_replying _ _).mpr ⟨rfl, rfl⟩

variable (bad polls) in
/-- Whatever the number, there is a run that is answered by `OK`. -/
theorem can_P (hn : HexText n) (regs : Regs) (stale : List UInt8) :
    ∃ regs', Step (fileRegs bad) polls s regs
      ⟨⟨80 :: n ++ 61 :: v, stale⟩, [bytes "OK"]⟩ s regs' := by
  have hruns := runs_replyingBy (E := fileRegs bad) regsBy regsBy_coreRegs
    (dispatchPacket polls s ⟨80 :: n ++ 61 :: v, stale⟩) (regs, [])
  have hexec : ∃ regs', (dispatchPacket polls s ⟨80 :: n ++ 61 :: v, stale⟩).exec
      (replyingBy regsBy) (regs, []) = (.ok (some s), (regs', [bytes "OK"])) := by
    rw [dispatchPacket, dispatch_P polls s _ _ rfl, Packet.buf, handle_P_packet hn]
    cases regAt s (strtoull (n ++ 61 :: (v ++ 0 :: stale))).toUInt32 with
    | none => exact ⟨regs, rfl⟩
    | some i => exact ⟨_, rfl⟩
  obtain ⟨regs', hexec⟩ := hexec
  rw [hexec] at hruns
  exact ⟨regs', hruns⟩

theorem not_acknowledged (hn : HexText n) (hnone : ∀ a, ¬ Available s n a) :
    ¬ Acknowledged bad polls s n v := by
  intro h
  obtain ⟨regs', hstep⟩ := can_P bad polls (s := s) (v := v) hn zeros []
  obtain ⟨e, he, hreply⟩ := (hstep.sound _ (h.refused hnone _ zeros rfl)).1 _ rfl
  obtain rfl : bytes "OK" = e := List.singleton_inj.mp hreply
  exact absurd he (by decide)

/-- What is asked of `P n=v` holds exactly for the registers that are available. -/
theorem acknowledged_iff (bad : Core → McdAddr → UInt32 → Prop) (polls : Nat) (s : Stub)
    (n v : List UInt8) (hn : HexText n) (hlen : v.length = 8) (hv : ∀ d ∈ v, (digit16 d).isSome) :
    Acknowledged bad polls s n v ↔ ∃ a, Available s n a := by
  constructor
  · intro h
    by_contra hnone
    exact not_acknowledged hn (fun a ha => hnone ⟨a, ha⟩) h
  · rintro ⟨a, i, hi, ha⟩
    obtain ⟨hok, hrega⟩ := reg_some.mp ha
    refine ⟨?_, fun hnone => absurd ⟨i, hi, ha⟩ (hnone a)⟩
    rintro ⟨_, stale⟩ regs s' regs' rfl hstep
    obtain ⟨hs, hset⟩ := (hstep.sound _ (wp_P hn hi hok regs stale)).1 _ rfl
    obtain rfl := Option.some.inj hs
    obtain rfl : regs' = _ := congrArg Prod.fst hset
    refine ⟨rfl, ?_, ?_⟩
    · intro c b hother
      refine if_neg ?_
      rintro ⟨hc, rfl⟩
      exact hother ⟨hc, i, hi, reg_some.mpr ⟨hok, rfl⟩⟩
    · rintro ⟨_, stale'⟩ rfl
      have hread := wp_p bad polls hn hi hok
        (regs.set s'.active.target.core (s'.active.rega i) (getU32Le (v ++ 0 :: stale))) stale'
      have hheld : (regs.set s'.active.target.core (s'.active.rega i) (getU32Le (v ++ 0 :: stale)))
          s'.active.target.core (s'.active.rega i) = getU32Le (v ++ 0 :: stale) := if_pos ⟨rfl, rfl⟩
      rw [hheld, putU32Le_getU32Le _ hlen hv] at hread
      exact hread

end

theorem acknowledged_one :
    Acknowledged (fun _ _ _ => True) 0 .lone (bytes "0") (bytes "0000000A") :=
  (acknowledged_iff _ 0 .lone (bytes "0") (bytes "0000000A") (by decide) rfl
    (List.all_eq_true.mp rfl)).mpr
    ⟨⟨0, 1⟩, ⟨0, by decide⟩, rfl, rfl⟩

/-- The number is `2^32` and no register has it, and `d0` is written. -/
theorem cut_number_acknowledged :
    ¬ ∀ n v, HexText n → v.length = 8 → (∀ d ∈ v, (digit16 d).isSome) →
      Acknowledged (fun _ _ _ => False) 0 .lone n v := by
  intro h
  have hn : HexText (bytes "100000000") := by decide
  have hnone : ∀ a, ¬ Available .lone (bytes "100000000") a := by
    rintro a ⟨i, hi, -⟩
    rw [show hexValue (bytes "100000000") = 2 ^ 32 from rfl] at hi
    exact absurd i.isLt (by rw [← hi]; decide)
  exact not_acknowledged hn hnone (h _ (bytes "00000000") hn rfl (List.all_eq_true.mp rfl))

end OpenTricore.RegisterWrites
