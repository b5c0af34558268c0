import OpenTricore.Handlers

/-! What earlier packets leave in the receive buffer behind the terminator, and
which handlers look at it.

* every handler stops at the terminator, whatever the packet (`dispatch_local`),
  except for `H` and `P`;
* a `P` packet reads on exactly if the text after `=` is a whole number of digit
  pairs, and too short (`getU32Le_local`, `getU32Le_stale`);
* `packets_isolated_iff`: the packets whose effect depends on stale bytes. -/

namespace OpenTricore
open Lib

/-! ## Register values -/

/-- What one pair of characters contributes. -/
def pairBits (p : List UInt8) : UInt32 :=
  (UInt32.ofInt (hexval (p.getD 0 0)) <<< 4) ||| UInt32.ofInt (hexval (p.getD 1 0))

/-- `get_u32_le` over `n` pairs, from the first pair on. -/
def pairsFrom : Nat → List UInt8 → UInt32
  | 0, _ => 0
  | n + 1, p => pairBits p ||| (pairsFrom n (p.drop 2) <<< 8)

theorem shiftLeft_eight (x : UInt32) :
    (x <<< 8) <<< 8 = x <<< 16 ∧ (x <<< 16) <<< 8 = x <<< 24 :=
  ⟨(UInt32.shiftLeft_add_of_toNat_lt (by decide)).symm,
    (UInt32.shiftLeft_add_of_toNat_lt (by decide)).symm⟩

theorem getU32Le_eq (p : List UInt8) : getU32Le p = pairsFrom 4 p := by
  have hsplit : ∀ b, pairBits (p.drop (b * 2)) =
      (UInt32.ofInt (hexval (p.getD (b * 2) 0)) <<< 4) |||
        UInt32.ofInt (hexval (p.getD (b * 2 + 1) 0)) := by
    intro b
    simp [pairBits, List.getD]
  have h0 := hsplit 0
  have h1 := hsplit 1
  have h2 := hsplit 2
  have h3 := hsplit 3
  simp only [Nat.reduceMul, Nat.reduceAdd, List.drop_zero] at h0 h1 h2 h3
  simp only [getU32Le, List.range, List.range.loop, List.foldl_cons, List.foldl_nil,
    Nat.reduceMul, Nat.reduceAdd, ← h0, ← h1, ← h2, ← h3]
  simp only [pairsFrom, List.drop_drop, UInt32.shiftLeft_or, shiftLeft_eight]
  simp [UInt32.or_assoc]

/-- A bad second digit makes the value all ones from its pair on. -/
theorem pairBits_bad_second {p : List UInt8} (h : hexval (p.getD 1 0) = -1) :
    pairBits p = -1 := by
  rw [pairBits, h, UInt32.ofInt_neg_one, UInt32.or_neg_one]

/-- A bad first digit does so from the upper half of its pair on. -/
theorem pairBits_bad_first {p : List UInt8} (h : hexval (p.getD 0 0) = -1) (z : UInt32) :
    pairBits p ||| (z <<< 8) = pairBits p := by
  have hz : z <<< 8 = (z <<< 4) <<< 4 := by
    have := UInt32.shiftLeft_add_of_toNat_lt (a := z) (b := 4) (c := 4) (by decide)
    rwa [show (4 + 4 : UInt32) = 8 from rfl] at this
  have habsorb : (-1 : UInt32) <<< (4 : UInt32) ||| (z <<< 4) <<< 4 = (-1 : UInt32) <<< 4 :=
    UInt32.neg_one_shiftLeft_or_shiftLeft
  rw [pairBits, h, hz, UInt32.or_assoc, UInt32.or_comm (UInt32.ofInt _), ← UInt32.or_assoc]
  rw [UInt32.ofInt_neg_one, habsorb]

/-- A whole number of digit pairs, and fewer than `n` of them. -/
def ShortPairs (n : Nat) (post : List UInt8) : Prop :=
  post.length < 2 * n ∧ post.length % 2 = 0 ∧ ∀ c ∈ post, (digit16 c).isSome

theorem pairsFrom_local (n : Nat) (post : List UInt8) (h : ¬ ShortPairs n post)
    (t t' : List UInt8) : pairsFrom n (post ++ 0 :: t) = pairsFrom n (post ++ 0 :: t') := by
  induction n generalizing post with
  | zero => rfl
  | succ n ih =>
    rcases post with _ | ⟨x, _ | ⟨y, post⟩⟩
    · exact absurd ⟨by simp only [List.length_nil]; omega, rfl, by simp⟩ h
    · -- the second digit is the terminator
      rw [pairsFrom, pairsFrom, pairBits_bad_second rfl, pairBits_bad_second rfl]
      simp
    · have hpair : ∀ t, pairBits (x :: y :: post ++ 0 :: t) = pairBits [x, y] := fun t => rfl
      have hdrop : ∀ t, (x :: y :: post ++ 0 :: t).drop 2 = post ++ 0 :: t := fun t => rfl
      rw [pairsFrom, pairsFrom, hpair, hpair, hdrop, hdrop]
      cases hy : digit16 y with
      | none =>
        rw [pairBits_bad_second (p := [x, y]) (hexval_none hy)]
        simp
      | some l =>
        cases hx : digit16 x with
        | none => rw [pairBits_bad_first (p := [x, y]) (hexval_none hx),
            pairBits_bad_first (p := [x, y]) (hexval_none hx)]
        | some d =>
          rw [ih post]
          rintro ⟨hlen, heven, hall⟩
          refine h ⟨by simp only [List.length_cons]; omega, by
            simp only [List.length_cons]; omega, ?_⟩
          simpa [hx, hy] using hall

theorem bit_shiftLeft_eight (x : UInt32) (i : Nat) (hi : i + 8 < 32) :
    (x <<< 8).toBitVec.getLsbD (i + 8) = x.toBitVec.getLsbD i := by
  have hi' : i < 32 := by omega
  simp [hi, hi', BitVec.getLsbD_eq_getElem]

theorem bit_pair_digits {x y : UInt8} {h l : Nat} (hx : digit16 x = some h)
    (hy : digit16 y = some l) (i : Nat) (hi : 8 ≤ i) :
    (pairBits [x, y]).toBitVec.getLsbD i = false := by
  have key : ∀ h l : Fin 16,
      ((UInt32.ofInt (h : Nat) <<< 4) ||| UInt32.ofInt (l : Nat)).toNat < 2 ^ 8 := by
    decide
  have hlt := key ⟨h, (digit16_some hx).1⟩ ⟨l, (digit16_some hy).1⟩
  have hp : pairBits [x, y] = (UInt32.ofInt (h : Nat) <<< 4) ||| UInt32.ofInt (l : Nat) := by
    rw [← hexval_some hx, ← hexval_some hy]
    rfl
  rw [hp]
  exact Nat.testBit_lt_two_pow (Nat.lt_of_lt_of_le hlt (Nat.pow_le_pow_right (by omega) hi))

/-- The lower half of the first pair behind the packet shows in the value. -/
theorem pairsFrom_stale (n : Nat) (hn : n ≤ 4) (post : List UInt8) (h : ShortPairs n post) :
    (pairsFrom n (post ++ [0, 48])).toBitVec.getLsbD (4 * post.length) = false ∧
      (pairsFrom n (post ++ [0, 49])).toBitVec.getLsbD (4 * post.length) = true := by
  induction n generalizing post with
  | zero => exact absurd h.1 (by omega)
  | succ n ih =>
    obtain ⟨hlen, heven, hall⟩ := h
    rcases post with _ | ⟨x, _ | ⟨y, post⟩⟩
    · -- the upper half is bad, the lower half is stale
      have hlow : ∀ z : UInt32, (z <<< 8).toBitVec.getLsbD 0 = false := fun z => by simp
      simp only [List.nil_append, List.length_nil, Nat.mul_zero, pairsFrom, UInt32.toBitVec_or,
        BitVec.getLsbD_or, hlow, Bool.or_false]
      exact ⟨by decide, by decide⟩
    · simp at heven
    · have hdrop : ∀ c, (x :: y :: post ++ [0, c]).drop 2 = post ++ [0, c] := fun c => rfl
      have hpair : ∀ c, pairBits (x :: y :: post ++ [0, c]) = pairBits [x, y] := fun c => rfl
      obtain ⟨d, hx⟩ := Option.isSome_iff_exists.mp (hall x (by simp))
      obtain ⟨l, hy⟩ := Option.isSome_iff_exists.mp (hall y (by simp))
      simp only [List.length_cons] at hlen heven ⊢
      have hbits := ih (by omega) post ⟨by omega, by omega, fun c hc => hall c (by simp [hc])⟩
      have hpos : 4 * (post.length + 1 + 1) = 4 * post.length + 8 := by omega
      simp only [pairsFrom, hdrop, hpair, hpos, UInt32.toBitVec_or, BitVec.getLsbD_or,
        bit_pair_digits hx hy _ (show 8 ≤ 4 * post.length + 8 by omega),
        bit_shiftLeft_eight _ _ (show 4 * post.length + 8 < 32 by omega), Bool.false_or]
      exact hbits

theorem getU32Le_local (post : List UInt8) (h : ¬ ShortPairs 4 post) (t t' : List UInt8) :
    getU32Le (post ++ 0 :: t) = getU32Le (post ++ 0 :: t') := by
  rw [getU32Le_eq, getU32Le_eq]
  exact pairsFrom_local 4 post h t t'

theorem getU32Le_stale (post : List UInt8) (h : ShortPairs 4 post) :
    getU32Le (post ++ [0, 48]) ≠ getU32Le (post ++ [0, 49]) := by
  rw [getU32Le_eq, getU32Le_eq]
  intro heq
  obtain ⟨h0, h1⟩ := pairsFrom_stale 4 (by omega) post h
  rw [heq, h1] at h0
  cases h0

/-- Inside eight characters nothing else is read. -/
theorem getU32Le_inside (q t t' : List UInt8) (h : 8 ≤ q.length) :
    getU32Le (q ++ t) = getU32Le (q ++ t') := by
  have hget : ∀ i < 8, ∀ t, (q ++ t).getD i 0 = q.getD i 0 := by
    intro i hi t
    simp [List.getD, List.getElem?_append_left (show i < q.length by omega)]
  simp only [getU32Le, List.range, List.range.loop, List.foldl_cons, List.foldl_nil,
    Nat.reduceMul, Nat.reduceAdd, hget 0 (by omega), hget 1 (by omega), hget 2 (by omega),
    hget 3 (by omega), hget 4 (by omega), hget 5 (by omega), hget 6 (by omega), hget 7 (by omega)]

/-! ## Parsing stops at the terminator -/

section
variable (s : Stub) (c : UInt8) (rest : List UInt8) (t t' : List UInt8)

theorem hexPairs_local (n : Nat) (data : List UInt8) :
    hexPairs n (data ++ 0 :: t) = hexPairs n (data ++ 0 :: t') := by
  induction n generalizing data with
  | zero => rfl
  | succ n ih =>
    rcases data with _ | ⟨x, _ | ⟨y, data⟩⟩
    · rfl
    · have hbad : ∀ t, hexPairs (n + 1) ([x] ++ 0 :: t) = none := by
        intro t
        rw [hexPairs, if_pos]
        exact .inr (show hexval 0 < 0 by decide)
      rw [hbad, hbad]
    · have hdrop : ∀ t, (x :: y :: data ++ 0 :: t).drop 2 = data ++ 0 :: t := fun t => rfl
      rw [hexPairs, hexPairs, hdrop, hdrop, ih]
      rfl

theorem unescape_local : ∀ d : List UInt8,
    unescape d.length (d ++ 0 :: t) = unescape d.length (d ++ 0 :: t')
  | [] => rfl
  | [_] => rfl
  | x :: y :: d => by
    have h2 : ∀ t, (x :: y :: d ++ 0 :: t).drop 2 = d ++ 0 :: t := fun t => rfl
    have h1 : ∀ t, (x :: y :: d ++ 0 :: t).drop 1 = y :: d ++ 0 :: t := fun t => rfl
    have ih := unescape_local d
    have ih' := unescape_local (y :: d)
    simp only [List.length_cons] at ih' ⊢
    rw [unescape, unescape, h1, h1, h2, h2, ih, ih']
    rfl

theorem strtoull_stop (p : List UInt8) : strtoull (p ++ 0 :: t) = strtoull (p ++ 0 :: t') := by
  rw [strtoull_local, strtoull_local p t']

theorem strcmpEq_stop (p lit : List UInt8) (hl : (0 : UInt8) ∉ lit) :
    strcmpEq (p ++ 0 :: t) lit = strcmpEq (p ++ 0 :: t') lit := by
  rw [strcmpEq_local lit hl, strcmpEq_local lit hl p t']

theorem strncmpEq_stop (p lit : List UInt8) (hl : (0 : UInt8) ∉ lit) :
    strncmpEq (p ++ 0 :: t) lit = strncmpEq (p ++ 0 :: t') lit := by
  rw [strncmpEq_local lit hl, strncmpEq_local lit hl p t']

theorem numberAfterComma_stop (p : List UInt8) :
    numberAfterComma (p ++ 0 :: t) = numberAfterComma (p ++ 0 :: t') := by
  rcases strchr_cases 44 (by decide) p with h | ⟨pre, post, -, -, -, h⟩
  · rw [numberAfterComma, numberAfterComma, h, h]
  · have hdrop : ∀ t, (44 :: post ++ 0 :: t).drop 1 = post ++ 0 :: t := fun t => rfl
    simp only [numberAfterComma, h, hdrop, strtoull_stop t t' post]

/-! ## The handlers -/

theorem trigLen_local (p : List UInt8) : trigLen (p ++ 0 :: t) = trigLen (p ++ 0 :: t') := by
  rcases strchr_cases 44 (by decide) p with h | ⟨pre, post, -, -, -, h⟩
  · rw [trigLen, trigLen, h, h]
  · have hdrop : ∀ t, (44 :: post ++ 0 :: t).drop 1 = post ++ 0 :: t := fun t => rfl
    simp only [trigLen, h, hdrop, strtoull_stop t t' post]

theorem trigKind_local : trigKind (c :: rest ++ 0 :: t) = trigKind (c :: rest ++ 0 :: t') := by
  have h := fun t => getD_local (c :: rest) t 1 (by simp)
  rw [trigKind, trigKind, h, h]

theorem handle_Z_local :
    handle_Z s (c :: rest ++ 0 :: t) = handle_Z s (c :: rest ++ 0 :: t') := by
  simp only [handle_Z, trigKind_local c rest t t']
  rcases strchr_cases 44 (by decide) (c :: rest) with h | ⟨pre, post, -, -, -, h⟩
  · simp only [h]
  · have hdrop : ∀ t, (44 :: post ++ 0 :: t).drop 1 = post ++ 0 :: t := fun t => rfl
    simp only [h, hdrop, strtoull_stop t t' post, trigLen_local t t' post]

theorem handle_z_local :
    handle_z s (c :: rest ++ 0 :: t) = handle_z s (c :: rest ++ 0 :: t') := by
  simp only [handle_z, trigKind_local c rest t t']
  rcases strchr_cases 44 (by decide) (c :: rest) with h | ⟨pre, post, -, -, -, h⟩
  · simp only [h]
  · have hdrop : ∀ t, (44 :: post ++ 0 :: t).drop 1 = post ++ 0 :: t := fun t => rfl
    simp only [h, hdrop, strtoull_stop t t' post]

theorem qxferChunk_local (doc args : List UInt8) :
    qxferChunk doc (args ++ 0 :: t) = qxferChunk doc (args ++ 0 :: t') := by
  simp only [qxferChunk, strtoull_stop t t' args, numberAfterComma_stop t t' args]

theorem handle_q_local (p : List UInt8) : handle_q s (p ++ 0 :: t) = handle_q s (p ++ 0 :: t') := by
  have hlit : ∀ lit ∈ [bytes "qSupported", bytes "qXfer:memory-map:read:", bytes "qAttached",
      bytes "qC", bytes "qfThreadInfo", bytes "qsThreadInfo", bytes "qSymbol"],
        (0 : UInt8) ∉ lit := by
    decide
  simp only [List.forall_mem_cons] at hlit
  obtain ⟨h1, h2, h3, h4, h5, h6, h7, -⟩ := hlit
  simp only [handle_q, strncmpEq_stop t t' p _ h1, strncmpEq_stop t t' p _ h2,
    strcmpEq_stop t t' p _ h3, strcmpEq_stop t t' p _ h4, strcmpEq_stop t t' p _ h5,
    strcmpEq_stop t t' p _ h6, strncmpEq_stop t t' p _ h7]
  rcases strrchr_cases 58 p with h | ⟨post, h⟩
  · simp only [h]
  · have hdrop : ∀ t, (58 :: post ++ 0 :: t).drop 1 = post ++ 0 :: t := fun t => rfl
    simp only [h, hdrop, qxferReply, qxferChunk_local t t' MEMMAP post]

theorem flashWrite_local (b : FlashBuf) (p : List UInt8) :
    flashWrite b (p ++ 0 :: t) p.length = flashWrite b (p ++ 0 :: t') p.length := by
  rw [flashWrite, flashWrite]
  rcases strchr_cases 58 (by decide) p with h | ⟨pre, post, rfl, -, -, h⟩
  · rw [h, h]
  · have hdrop : ∀ t, (58 :: post ++ 0 :: t).drop 1 = post ++ 0 :: t := fun t => rfl
    rw [h, h]
    simp only [hdrop, strtoull_stop t t' post]
    rcases strchr_cases 58 (by decide) post with h' | ⟨pre', d, rfl, -, -, h'⟩
    · rw [h', h']
    · have hdrop' : ∀ t, (58 :: d ++ 0 :: t).drop 1 = d ++ 0 :: t := fun t => rfl
      rw [h', h']
      -- the payload starts the same way, and as far from the end of the packet
      have hdlen : ∀ t : List UInt8, (((pre ++ 58 :: (pre' ++ 58 :: d)).length : Int) -
          ((pre ++ 58 :: (pre' ++ 58 :: d) ++ 0 :: t).length - (d ++ 0 :: t).length : Int)) =
          d.length := by
        intro t
        simp only [List.length_append, List.length_cons]
        omega
      simp only [hdrop', hdlen, flashStore, Int.toNat_natCast, unescape_local t t' d]

theorem handle_v_local (polls : Nat) (p : List UInt8) :
    handle_v polls s (p ++ 0 :: t) p.length = handle_v polls s (p ++ 0 :: t') p.length := by
  have hlit : ∀ lit ∈ [bytes "vMustReplyEmpty", bytes "vCont?", bytes "vCont;",
      bytes "vFlashErase:", bytes "vFlashWrite:", bytes "vFlashDone"], (0 : UInt8) ∉ lit := by
    decide
  simp only [List.forall_mem_cons] at hlit
  obtain ⟨h1, h2, h3, h4, h5, h6, -⟩ := hlit
  have hcont : strncmpEq (p ++ 0 :: t') (bytes "vCont;") = true →
      vCont polls s (p ++ 0 :: t) = vCont polls s (p ++ 0 :: t') := by
    intro h
    have hlen : 6 ≤ p.length := strncmpEq_length _ h3 p t' h
    rw [vCont, vCont, getD_local p t 6 hlen, getD_local p t' 6 hlen]
  have herase : strncmpEq (p ++ 0 :: t') (bytes "vFlashErase:") = true →
      vFlashErase s (p ++ 0 :: t) = vFlashErase s (p ++ 0 :: t') := by
    intro h
    have hlen : 12 ≤ p.length := strncmpEq_length _ h4 p t' h
    have hdrop : ∀ t : List UInt8, (p ++ 0 :: t).drop 12 = p.drop 12 ++ 0 :: t :=
      fun t => List.drop_append_of_le_length hlen
    simp only [vFlashErase, hdrop, strtoull_stop t t' (p.drop 12),
      numberAfterComma_stop t t' (p.drop 12)]
  simp only [handle_v, strcmpEq_stop t t' p _ h1, strcmpEq_stop t t' p _ h2,
    strncmpEq_stop t t' p _ h3, strncmpEq_stop t t' p _ h4, strncmpEq_stop t t' p _ h5,
    strcmpEq_stop t t' p _ h6, vFlashWrite, flashWrite_local t t' s.flash p]
  congr 2
  refine ite_congr rfl (fun h => by rw [hcont h]) fun _ => ?_
  exact ite_congr rfl (fun h => by rw [herase h]) fun _ => rfl

theorem setRegs_local (p : List UInt8) (h : NREG * 8 ≤ p.length) (is : List (Fin NREG)) :
    setRegs s (p ++ 0 :: t) is = setRegs s (p ++ 0 :: t') is := by
  induction is with
  | nil => rfl
  | cons i is ih =>
    have hi : i * 8 + 8 ≤ p.length := by
      have := i.isLt
      simp only [NREG] at h this
      omega
    have hdrop : ∀ t : List UInt8, (p ++ 0 :: t).drop (i * 8) = p.drop (i * 8) ++ 0 :: t :=
      fun t => List.drop_append_of_le_length (by omega)
    rw [setRegs, setRegs, hdrop, hdrop, ih, getU32Le_inside _ (0 :: t) (0 :: t')]
    rw [List.length_drop]
    omega

theorem handle_G_local (p : List UInt8) : handle_G s (p ++ 0 :: t) = handle_G s (p ++ 0 :: t') := by
  rw [handle_G, handle_G, strlen_local, strlen_local p t']
  refine ite_congr rfl (fun _ => rfl) fun h => ?_
  have hlen : NREG * 8 ≤ p.length := by
    have := strlen_le p []
    omega
  rw [setRegs_local s t t' p hlen]

theorem handle_p_local : handle_p s (c :: rest ++ 0 :: t) = handle_p s (c :: rest ++ 0 :: t') := by
  have hdrop : ∀ t, (c :: rest ++ 0 :: t).drop 1 = rest ++ 0 :: t := fun t => rfl
  simp only [handle_p, hdrop, strtoull_stop t t' rest]

theorem handle_m_local : handle_m s (c :: rest ++ 0 :: t) = handle_m s (c :: rest ++ 0 :: t') := by
  have hdrop : ∀ t, (c :: rest ++ 0 :: t).drop 1 = rest ++ 0 :: t := fun t => rfl
  simp only [handle_m, hdrop, strtoull_stop t t' rest, numberAfterComma_stop t t' (c :: rest)]

theorem handle_M_local : handle_M s (c :: rest ++ 0 :: t) = handle_M s (c :: rest ++ 0 :: t') := by
  have hdrop : ∀ t, (c :: rest ++ 0 :: t).drop 1 = rest ++ 0 :: t := fun t => rfl
  rw [handle_M, handle_M]
  rcases strchr_cases 44 (by decide) (c :: rest) with h | ⟨pre, post, -, -, -, h⟩
  · rw [h, h]
  · rcases strchr_cases 58 (by decide) (c :: rest) with h' | ⟨pre', data, -, -, -, h'⟩
    · rw [h, h, h', h']
    · have hpost : ∀ t, (44 :: post ++ 0 :: t).drop 1 = post ++ 0 :: t := fun t => rfl
      have hdata : ∀ t, (58 :: data ++ 0 :: t).drop 1 = data ++ 0 :: t := fun t => rfl
      rw [h, h, h', h']
      simp only [hdrop, hpost, hdata, strtoull_stop t t' rest, strtoull_stop t t' post,
        hexPairs_local t t' _ data]

/-- Every command but `H` and `P` stops at the terminator. -/
theorem dispatch_local (polls : Nat) (hH : c ≠ 72) (hP : c ≠ 80) :
    dispatch polls s (c :: rest ++ 0 :: t) (c :: rest).length =
      dispatch polls s (c :: rest ++ 0 :: t') (c :: rest).length := by
  have hhead : ∀ t, (c :: rest ++ 0 :: t).getD 0 0 = c := fun t => rfl
  have hdrop : ∀ t, (c :: rest ++ 0 :: t).drop 1 = rest ++ 0 :: t := fun t => rfl
  simp only [dispatch, hhead, hdrop, hH, hP, ↓reduceIte, handle_G_local s t t' rest,
    handle_p_local s c rest t t', handle_m_local s c rest t t', handle_M_local s c rest t t',
    handle_q_local s t t' (c :: rest), handle_v_local s t t' polls (c :: rest),
    handle_Z_local s c rest t t', handle_z_local s c rest t t']

end

/-! ## Selecting a thread -/

theorem selectThread_single (s : Stub) (h : s.ncore = 1) (idx : Int) : selectThread s idx = s := by
  obtain ⟨ncore, all, cur, active, bp, flash, hle, hlt, hactive⟩ := s
  simp only at h hlt hactive
  subst h
  have hcur : cur = 0 := by omega
  subst hcur hactive
  simp only [selectThread]
  split
  · rfl
  · rename_i hin
    have hidx : idx.toNat = 0 := by omega
    simp only [hidx]

theorem selectThread_cur (s : Stub) (idx : Nat) (h : idx < s.ncore) :
    (selectThread s idx).cur = idx := by
  rw [selectThread, dif_neg (by omega)]
  rfl

/-- The thread that an `H` packet selects, `args` being what follows its letters. -/
def threadArg (s : Stub) (args : List UInt8) : Stub :=
  if strtol args > 0 then selectThread s (Int.bmod (strtol args) (2 ^ 32) - 1) else s

/-- Selecting a thread changes nothing else. -/
theorem threadArg_frame (s : Stub) (args : List UInt8) :
    (threadArg s args).all = s.all ∧ (threadArg s args).ncore = s.ncore ∧
      (threadArg s args).bp = s.bp := by
  have hselect : ∀ idx : Int, (selectThread s idx).all = s.all ∧
      (selectThread s idx).ncore = s.ncore ∧ (selectThread s idx).bp = s.bp := by
    intro idx
    unfold selectThread
    split <;> exact ⟨rfl, rfl, rfl⟩
  unfold threadArg
  split
  · exact hselect _
  · exact ⟨rfl, rfl, rfl⟩

theorem handle_H_eq (s : Stub) (p : List UInt8) :
    handle_H s p = (putPacket (bytes "OK") >>= fun _ => return threadArg s (p.drop 2)) := rfl

theorem threadArg_single (s : Stub) (h : s.ncore = 1) (args : List UInt8) :
    threadArg s args = s := by
  rw [threadArg, selectThread_single s h]
  split <;> rfl

theorem threadArg_one (s : Stub) : (threadArg s [49]).cur = 0 := by
  have h : strtol [49] = 1 := by decide
  rw [threadArg, h]
  exact selectThread_cur s 0 (Nat.lt_of_le_of_lt (Nat.zero_le _) s.cur_lt)

theorem threadArg_two (s : Stub) (h2 : 2 ≤ s.ncore) : (threadArg s [50]).cur = 1 := by
  have h : strtol [50] = 2 := by decide
  rw [threadArg, h]
  exact selectThread_cur s 1 h2

/-! ## The packets that read on -/

/-- The packet is `H` alone, and there is a thread to choose from, or it writes a
register that is there, from fewer than four whole pairs of digits. -/
def ReadsStale (s : Stub) (payload : List UInt8) : Prop :=
  (payload = [72] ∧ 2 ≤ s.ncore) ∨
    ∃ pre post, payload = 80 :: pre ++ 61 :: post ∧ 61 ∉ pre ∧ 0 ∉ pre ∧
      (regAt s (strtoull (pre ++ 61 :: post ++ [0])).toUInt32).isSome ∧ ShortPairs 4 post

/-- The effect of the packet does not depend on what stands behind it. -/
def Isolated (polls : Nat) (s : Stub) (payload : List UInt8) : Prop :=
  ∀ stale stale' : List UInt8,
    dispatch polls s (payload ++ 0 :: stale) payload.length =
      dispatch polls s (payload ++ 0 :: stale') payload.length

theorem dispatch_H (polls : Nat) (s : Stub) (p : List UInt8) (n : Int) (h : p.getD 0 0 = 72) :
    dispatch polls s p n = (handle_H s p >>= fun s => return some s) := by
  simp only [dispatch, h]
  rfl

theorem dispatch_P (polls : Nat) (s : Stub) (p : List UInt8) (n : Int) (h : p.getD 0 0 = 80) :
    dispatch polls s p n = (handle_P s p >>= fun _ => return some s) := by
  simp only [dispatch, h]
  rfl

/-- The empty packet. -/
theorem dispatch_nul (polls : Nat) (s : Stub) (p : List UInt8) (n : Int) (h : p.getD 0 0 = 0) :
    dispatch polls s p n = (putPacket (bytes "") >>= fun _ => return some s) := by
  simp only [dispatch, h]
  rfl

/-- Equal runs of two `H` packets leave the same state. -/
theorem threadArg_inj {s : Stub} {p p' : List UInt8} (polls : Nat) (n : Int)
    (hp : p.getD 0 0 = 72) (hp' : p'.getD 0 0 = 72)
    (h : dispatch polls s p n = dispatch polls s p' n) :
    threadArg s (p.drop 2) = threadArg s (p'.drop 2) := by
  rw [dispatch_H polls s p n hp, dispatch_H polls s p' n hp', handle_H_eq, handle_H_eq] at h
  injection h with _ hk
  injection congrFun hk (0 : Int) with hs
  exact Option.some.inj hs

/-- The first access of a `P` packet to a register that is there. -/
theorem handle_P_head {s : Stub} {pre post : List UInt8} {t : List UInt8} (h61 : 61 ∉ pre)
    (h0 : 0 ∉ pre) {i : Fin NREG}
    (hi : regAt s (strtoull (pre ++ 61 :: post ++ [0])).toUInt32 = some i) :
    (handle_P s (80 :: pre ++ 61 :: post ++ 0 :: t)).head =
      some (.bus (.write s.active.target.core (s.active.rega i) (getU32Le (post ++ 0 :: t)))) := by
  have heq : strchr 61 (80 :: pre ++ 61 :: post ++ 0 :: t) = some (61 :: (post ++ 0 :: t)) := by
    have := strchr_first 61 (80 :: pre) (post ++ 0 :: t) (by simpa using h61) (by simpa using h0)
    simpa using this
  have hnum : (80 :: pre ++ 61 :: post ++ 0 :: t).drop 1 = (pre ++ 61 :: post) ++ 0 :: t := by simp
  have hi' : regAt s (strtoull ((pre ++ 61 :: post) ++ 0 :: t)).toUInt32 = some i := by
    rw [strtoull_local]
    exact hi
  simp only [handle_P, heq, hnum, hi']
  rfl

theorem handle_P_local (s : Stub) (rest : List UInt8) (t t' : List UInt8)
    (h : ¬ ReadsStale s (80 :: rest)) :
    handle_P s (80 :: rest ++ 0 :: t) = handle_P s (80 :: rest ++ 0 :: t') := by
  have hdrop : ∀ t, (80 :: rest ++ 0 :: t).drop 1 = rest ++ 0 :: t := fun t => rfl
  rw [handle_P, handle_P]
  rcases strchr_cases 61 (by decide) (80 :: rest) with hno | ⟨pre, post, hsplit, h61, h0, heq⟩
  · rw [hno, hno]
  · have hpost : ∀ t, (61 :: post ++ 0 :: t).drop 1 = post ++ 0 :: t := fun t => rfl
    rw [heq, heq]
    simp only [hdrop, hpost, strtoull_stop t t' rest]
    cases hreg : regAt s (strtoull (rest ++ 0 :: t')).toUInt32 with
    | none => rfl
    | some i =>
      -- the register is there, so the text behind `=` is not a few whole pairs
      have hshort : ¬ ShortPairs 4 post := by
        intro hp
        rcases pre with _ | ⟨c, pre⟩
        · cases hsplit
        · injection hsplit with hc hrest
          subst hc hrest
          refine h (.inr ⟨pre, post, rfl, ?_, ?_, ?_, hp⟩)
          · exact fun hm => h61 (List.mem_cons_of_mem _ hm)
          · exact fun hm => h0 (List.mem_cons_of_mem _ hm)
          · rw [strtoull_local] at hreg
            exact Option.isSome_iff_exists.mpr ⟨i, hreg⟩
      rw [getU32Le_local post hshort t t']

theorem handle_H_local (s : Stub) (rest : List UInt8) (t t' : List UInt8)
    (h : ¬ ReadsStale s (72 :: rest)) :
    handle_H s (72 :: rest ++ 0 :: t) = handle_H s (72 :: rest ++ 0 :: t') := by
  rw [handle_H_eq, handle_H_eq]
  rcases rest with _ | ⟨c, rest⟩
  · have hone : s.ncore = 1 := by
      have hpos := s.cur_lt
      have : ¬ 2 ≤ s.ncore := fun h2 => h (.inl ⟨rfl, h2⟩)
      omega
    rw [threadArg_single s hone, threadArg_single s hone]
  · have hdrop : ∀ t, (72 :: c :: rest ++ 0 :: t).drop 2 = rest ++ 0 :: t := fun t => rfl
    rw [hdrop, hdrop, threadArg, threadArg, strtol_local, strtol_local rest t']

/-- Which packets are answered, and act on the target and the stub, without regard
to what earlier packets left in the buffer. -/
theorem packets_isolated_iff (polls : Nat) (s : Stub) (payload : List UInt8) :
    Isolated polls s payload ↔ ¬ ReadsStale s payload := by
  constructor
  · rintro hiso (⟨rfl, h2⟩ | ⟨pre, post, rfl, h61, h0, hreg, hshort⟩)
    · have h := threadArg_inj polls _ rfl rfl (hiso [49] [50])
      have hcur := congrArg Stub.cur h
      rw [show (([72] ++ 0 :: [49] : List UInt8).drop 2) = [49] from rfl,
        show (([72] ++ 0 :: [50] : List UInt8).drop 2) = [50] from rfl, threadArg_one,
        threadArg_two s h2] at hcur
      cases hcur
    · obtain ⟨i, hi⟩ := Option.isSome_iff_exists.mp hreg
      have h := congrArg Prog.head (hiso [48] [49])
      rw [dispatch_P polls s _ _ rfl, dispatch_P polls s _ _ rfl,
        Prog.head_bind (handle_P_head h61 h0 hi), Prog.head_bind (handle_P_head h61 h0 hi)] at h
      simp only [Option.some.injEq, StubOp.bus.injEq, BusOp.write.injEq] at h
      exact getU32Le_stale post hshort h.2.2
  · intro hns stale stale'
    rcases payload with _ | ⟨c, rest⟩
    · rw [dispatch_nul polls s _ _ rfl, dispatch_nul polls s _ _ rfl]
    · rcases eq_or_ne c 72 with rfl | hH
      · rw [dispatch_H polls s _ _ rfl, dispatch_H polls s _ _ rfl,
          handle_H_local s rest stale stale' hns]
      · rcases eq_or_ne c 80 with rfl | hP
        · rw [dispatch_P polls s _ _ rfl, dispatch_P polls s _ _ rfl,
            handle_P_local s rest stale stale' hns]
        · exact dispatch_local s c rest stale stale' polls hH hP

/-- `P0=12` writes a register value whose fifth digit is a stale byte. -/
theorem short_value_reads_stale : ¬ Isolated 0 .lone (bytes "P0=12") := by
  intro h
  have hhead := congrArg Prog.head (h [48] [49])
  exact absurd hhead (by decide)

end OpenTricore
