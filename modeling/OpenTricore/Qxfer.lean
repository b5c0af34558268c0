import OpenTricore.Stub
import OpenTricore.Handlers
import OpenTricore.ReplyBytes

/-! The transfer of a document by `qXfer`. The client asks for one chunk after the other,
each from where the last one ended, until a reply is marked as the last.

* `chunk_at`: what a request is answered;
* `qxfer_reassembly`: every client gets the document, whatever lengths it asks for;
* `memory_map_reassembly`: the same for the memory map, by the packets of the stub. -/

namespace OpenTricore.Qxfer
open OpenTricore Lib Lib.Prog

/-! ## Requests -/

/-- A C string. -/
structure Document where
  text : List UInt8
  clean : 0 ∉ text
  fits : text.length < 2 ^ 64

/-- What stands in the document from the offset on, up to the length, marked by whether
it is the end. -/
def Document.chunk (d : Document) (offset length : Nat) : List UInt8 :=
  if d.text.length ≤ offset then bytes "l"
  else (if d.text.length ≤ offset + length then 108 else 109) ::
    (d.text.drop offset).take length

/-- How a client writes numbers, and how much it asks for in its `i`-th request. -/
structure Client where
  number : Nat → List UInt8
  hex : ∀ n, HexText (number n)
  value : ∀ n, hexValue (number n) = n
  ask : Nat → Nat
  pos : ∀ i, 0 < ask i

/-- `offset,length`. -/
def Client.args (cl : Client) (offset length : Nat) : List UInt8 :=
  cl.number offset ++ 44 :: cl.number length

/-- A number that does not fit is cut to the largest that does. -/
theorem toNat_strtoull_hexText {ds : List UInt8} (hd : HexText ds) {c : UInt8}
    (hc : digit16 c = none) (hx : c ≠ 120 ∧ c ≠ 88) (t : List UInt8) :
    (strtoull (ds ++ c :: t)).toNat = min (hexValue ds) (2 ^ 64 - 1) := by
  rw [strtoull, number16_hexText ds hd c hc hx t]
  simp only [Bool.false_eq_true, ↓reduceIte]
  split
  · rename_i h
    rw [UInt64.toNat_ofNat', Nat.mod_eq_of_lt h]
    omega
  · rename_i h
    rw [UInt64.toNat_ofNat', Nat.mod_eq_of_lt (by omega)]
    omega

/-- `length < avail ? length : avail`. -/
theorem toNat_chunk {length : UInt64} {l : Nat} (hl : length.toNat = min l (2 ^ 64 - 1))
    (avail : UInt64) :
    (if length < avail then length else avail).toNat = min l avail.toNat := by
  have havail := avail.toNat_lt
  split
  · rename_i h
    rw [UInt64.lt_iff_toNat_lt] at h
    omega
  · rename_i h
    rw [UInt64.lt_iff_toNat_lt] at h
    omega

section chunk
variable (d : Document) (cl : Client)

theorem offset_args (offset length : Nat) (stale : List UInt8) :
    (strtoull (cl.args offset length ++ 0 :: stale)).toNat = min offset (2 ^ 64 - 1) := by
  rw [Client.args, List.append_assoc, List.cons_append,
    toNat_strtoull_hexText (cl.hex offset) (by decide) (by decide), cl.value]

theorem length_args (offset length : Nat) (stale : List UInt8) :
    (numberAfterComma (cl.args offset length ++ 0 :: stale)).toNat = min length (2 ^ 64 - 1) := by
  rw [Client.args, List.append_assoc, List.cons_append, numberAfterComma,
    strchr_first 44 _ _ ((cl.hex offset).not_mem (by decide)) ((cl.hex offset).not_mem (by decide))]
  dsimp only
  rw [List.drop_succ_cons, List.drop_zero,
    toNat_strtoull_hexText (cl.hex length) (by decide) (by decide), cl.value]

theorem chunk_at (offset length : Nat) (stale : List UInt8) :
    qxferChunk d.text (cl.args offset length ++ 0 :: stale) = d.chunk offset length := by
  unfold Document.chunk
  have hfits := d.fits
  have hoff := offset_args cl offset length stale
  have hlen := length_args cl offset length stale
  have hdoc : (UInt64.ofNat d.text.length).toNat = d.text.length := by
    rw [UInt64.toNat_ofNat', Nat.mod_eq_of_lt hfits]
  simp only [qxferChunk]
  generalize strtoull (cl.args offset length ++ 0 :: stale) = off at hoff ⊢
  generalize numberAfterComma (cl.args offset length ++ 0 :: stale) = len at hlen ⊢
  generalize UInt64.ofNat d.text.length = doclen at hdoc ⊢
  by_cases hpast : d.text.length ≤ offset
  · have hge : off ≥ doclen := by
      rw [ge_iff_le, UInt64.le_iff_toNat_le]
      omega
    rw [if_pos hge, if_pos hpast]
  · have hlt : ¬ off ≥ doclen := by
      rw [ge_iff_le, UInt64.le_iff_toNat_le]
      omega
    have havail : (doclen - off).toNat = d.text.length - offset := by
      rw [UInt64.toNat_sub_of_le _ _ (by rw [UInt64.le_iff_toNat_le]; omega)]
      omega
    have hchunk := toNat_chunk hlen (doclen - off)
    rw [if_neg hlt, if_neg hpast]
    generalize (if len < doclen - off then len else doclen - off) = chunk at hchunk ⊢
    have hend : (off + chunk ≥ doclen) = (d.text.length ≤ offset + length) := by
      rw [ge_iff_le, UInt64.le_iff_toNat_le, UInt64.toNat_add, eq_iff_iff]
      omega
    have htake : (d.text.drop off.toNat).take chunk.toNat = (d.text.drop offset).take length := by
      rw [show off.toNat = offset by omega, hchunk, havail, ← List.length_drop,
        List.take_eq_take_iff]
      omega
    simp only [hend, htake]

end chunk

/-! ## Numbers as `%x` prints them -/

theorem scan16_snoc {ds : List UInt8} {b : UInt8} {v : Nat} (hds : ∀ d ∈ ds, (digit16 d).isSome)
    (hb : digit16 b = some v) (acc : Nat) : scan16 acc (ds ++ [b]) = scan16 acc ds * 16 + v := by
  induction ds generalizing acc with
  | nil => simp [scan16, hb]
  | cons c ds ih =>
    obtain ⟨hc, hds⟩ := List.forall_mem_cons.mp hds
    obtain ⟨w, hw⟩ := Option.isSome_iff_exists.mp hc
    simp [scan16, hw, ih hds]

theorem digit16_digitChar {v : Nat} (hv : v < 16) :
    digit16 (Nat.digitChar v).toNat.toUInt8 = some v := by
  have key : ∀ v : Fin 16, digit16 (Nat.digitChar v).toNat.toUInt8 = some v.val := by decide
  exact key ⟨v, hv⟩

theorem printHex_eq (n : Nat) : printHex n = if n < 16 then [(Nat.digitChar n).toNat.toUInt8]
    else printHex (n / 16) ++ [(Nat.digitChar (n % 16)).toNat.toUInt8] := by
  rw [printHex, Nat.toDigits_eq_if (by omega)]
  split
  · rfl
  · rw [List.map_append]
    rfl

/-- What is printed is read back. -/
theorem printHex_hex (n : Nat) :
    (∀ d ∈ printHex n, (digit16 d).isSome) ∧ hexValue (printHex n) = n := by
  induction n using Nat.strongRecOn with
  | ind n ih =>
    rw [printHex_eq]
    split
    · rename_i hn
      simp [hexValue, scan16, digit16_digitChar hn]
    · rename_i hn
      obtain ⟨hds, hvalue⟩ := ih (n / 16) (by omega)
      have hlast := digit16_digitChar (Nat.mod_lt n (by omega : 0 < 16))
      constructor
      · simp only [List.mem_append, List.mem_singleton]
        rintro d (hd | rfl)
        · exact hds d hd
        · rw [hlast]
          rfl
      · rw [hexValue, scan16_snoc hds hlast, ← hexValue, hvalue]
        omega

/-- The client prints its numbers, and always asks for the same length. -/
def steady (length : Nat) (h : 0 < length) : Client where
  number := printHex
  hex := fun n => ⟨by simp [printHex], (printHex_hex n).1⟩
  value := fun n => (printHex_hex n).2
  ask := fun _ => length
  pos := fun _ => h

/-! ## A transfer -/

/-- However things go, the program sends the reply `r` and makes no access. -/
def Answers {α : Type} (p : StubProg α) (r : List UInt8) : Prop :=
  p.wp (replying anything) (fun _ y => y = ([], [r])) (fun _ _ => False) ([], [])

def IsLast (r : List UInt8) : Prop := r.head? = some 108

/-- The data of a reply, behind its mark. -/
def body (r : List UInt8) : List UInt8 := r.drop 1

/-- The replies to the requests from the `i`-th on, after `got` was received. The client
stops at the first that is marked as the last. -/
inductive Transfer {α : Type} (serve : List UInt8 → List UInt8 → StubProg α) (cl : Client)
    (stale : Nat → List UInt8) : Nat → List UInt8 → List (List UInt8) → Prop
  | last {i : Nat} {got r : List UInt8}
      (hr : Answers (serve (cl.args got.length (cl.ask i)) (stale i)) r) (hlast : IsLast r) :
      Transfer serve cl stale i got [r]
  | more {i : Nat} {got r : List UInt8} {rs : List (List UInt8)}
      (hr : Answers (serve (cl.args got.length (cl.ask i)) (stale i)) r) (hlast : ¬ IsLast r)
      (h : Transfer serve cl stale (i + 1) (got ++ body r) rs) :
        Transfer serve cl stale i got (r :: rs)

/-- The client stops, and then it has the document. -/
structure Reassembles {α : Type} (d : Document) (serve : List UInt8 → List UInt8 → StubProg α)
    (cl : Client) (stale : Nat → List UInt8) : Prop where
  ends : ∃ rs, Transfer serve cl stale 0 [] rs
  whole : ∀ rs, Transfer serve cl stale 0 [] rs → rs.flatMap body = d.text
  marks : ∀ rs, Transfer serve cl stale 0 [] rs → ∀ r ∈ rs.dropLast, ¬ IsLast r
  bounded : ∀ rs, Transfer serve cl stale 0 [] rs → ∀ i r, rs[i]? = some r →
    (body r).length ≤ cl.ask i
  past : ∀ offset length t, d.text.length ≤ offset →
    Answers (serve (cl.args offset length) t) (bytes "l")

section transfer
variable {α : Type} {d : Document} {serve : List UInt8 → List UInt8 → StubProg α} {cl : Client}
  {stale : Nat → List UInt8}

/-- Each request is answered by its chunk, whatever stands behind it in the buffer. -/
def Serves (d : Document) (serve : List UInt8 → List UInt8 → StubProg α) (cl : Client) : Prop :=
  ∀ offset length t r, Answers (serve (cl.args offset length) t) r ↔ r = d.chunk offset length

theorem chunk_body (d : Document) (offset length : Nat) :
    body (d.chunk offset length) = (d.text.drop offset).take length := by
  unfold Document.chunk body
  split
  · rename_i h
    rw [List.drop_eq_nil_of_le h, List.take_nil]
    rfl
  · rfl

/-- The last chunk is the one that reaches the end. -/
theorem chunk_isLast (d : Document) (offset length : Nat) :
    IsLast (d.chunk offset length) ↔ d.text.length ≤ offset + length := by
  unfold Document.chunk IsLast
  split
  · rename_i h
    exact iff_of_true rfl (Nat.le_trans h (Nat.le_add_right _ _))
  · split
    · rename_i h
      exact iff_of_true rfl h
    · rename_i h
      exact iff_of_false (by simp) h

theorem transfer_ends (hs : Serves d serve cl) (i : Nat) (got : List UInt8) :
    ∃ rs, Transfer serve cl stale i got rs := by
  induction hn : d.text.length - got.length using Nat.strongRecOn generalizing i got with
  | ind n ih =>
    have hr := (hs got.length (cl.ask i) (stale i) _).mpr rfl
    by_cases hlast : IsLast (d.chunk got.length (cl.ask i))
    · exact ⟨_, .last hr hlast⟩
    · have hshort : ¬ d.text.length ≤ got.length + cl.ask i :=
        fun h => hlast ((chunk_isLast d _ _).mpr h)
      have hpos := cl.pos i
      have hgot : (got ++ body (d.chunk got.length (cl.ask i))).length = got.length + cl.ask i := by
        rw [chunk_body, List.length_append, List.length_take, List.length_drop]
        omega
      obtain ⟨rs, hrs⟩ := ih (d.text.length - (got ++ body (d.chunk got.length (cl.ask i))).length)
        (by omega) (i + 1) _ rfl
      exact ⟨_, .more hr hlast hrs⟩

/-- What is received is a part of the document from its start on, and in the end all of it. -/
theorem Transfer.whole (hs : Serves d serve cl) {i : Nat} {got : List UInt8}
    {rs : List (List UInt8)} (h : Transfer serve cl stale i got rs) (hgot : got <+: d.text) :
    got ++ rs.flatMap body = d.text := by
  obtain ⟨rest, hrest⟩ := hgot
  have hdrop : d.text.drop got.length = rest := by
    rw [← hrest, List.drop_left]
  have hlen : d.text.length = got.length + rest.length := by
    rw [← hrest, List.length_append]
  induction h generalizing rest with
  | @last i got r hr hlast =>
    obtain rfl := (hs _ _ _ _).mp hr
    rw [chunk_isLast] at hlast
    rw [List.flatMap_singleton, chunk_body, hdrop, List.take_of_length_le (by omega), hrest]
  | @more i got r rs hr hlast h ih =>
    obtain rfl := (hs _ _ _ _).mp hr
    have hbody : body (d.chunk got.length (cl.ask i)) = rest.take (cl.ask i) := by
      rw [chunk_body, hdrop]
    rw [hbody] at ih
    have hsplit : got ++ rest.take (cl.ask i) ++ rest.drop (cl.ask i) = d.text := by
      rw [List.append_assoc, List.take_append_drop, hrest]
    have := ih (rest.drop (cl.ask i)) hsplit (by rw [← hsplit, List.drop_left])
      (by rw [← hsplit, List.length_append])
    rw [List.flatMap_cons, hbody, ← List.append_assoc]
    exact this

theorem Transfer.marks {i : Nat} {got : List UInt8} {rs : List (List UInt8)}
    (h : Transfer serve cl stale i got rs) : ∀ r ∈ rs.dropLast, ¬ IsLast r := by
  induction h with
  | last hr hlast => simp
  | @more i got r rs hr hlast h ih =>
    have hne : rs ≠ [] := by
      rintro rfl
      cases h
    rw [List.dropLast_cons_of_ne_nil hne]
    exact List.forall_mem_cons.mpr ⟨hlast, ih⟩

theorem Transfer.bounded (hs : Serves d serve cl) {i : Nat} {got : List UInt8}
    {rs : List (List UInt8)} (h : Transfer serve cl stale i got rs) (k : Nat) (r : List UInt8)
    (hk : rs[k]? = some r) : (body r).length ≤ cl.ask (i + k) := by
  have hchunk : ∀ offset length, (body (d.chunk offset length)).length ≤ length := by
    intro offset length
    rw [chunk_body, List.length_take]
    exact Nat.min_le_left _ _
  induction h generalizing k with
  | last hr hlast =>
    obtain rfl := (hs _ _ _ _).mp hr
    cases k with
    | zero =>
      cases hk
      exact hchunk _ _
    | succ k => cases hk
  | @more i got r' rs hr hlast h ih =>
    obtain rfl := (hs _ _ _ _).mp hr
    cases k with
    | zero =>
      cases hk
      exact hchunk _ _
    | succ k =>
      have := ih k hk
      rwa [Nat.add_right_comm, Nat.add_assoc] at this

theorem Serves.reassembles (hs : Serves d serve cl) (stale : Nat → List UInt8) :
    Reassembles d serve cl stale where
  ends := transfer_ends hs 0 []
  whole := fun rs h => h.whole hs List.nil_prefix
  marks := fun rs h => h.marks
  bounded := fun rs h i r hi => by simpa using h.bounded hs i r hi
  past := fun offset length t h => (hs _ _ _ _).mpr (if_pos h).symm

end transfer

/-! ## The stub -/

theorem answers_putPacket {α : Type} (data r : List UInt8) (a : α) :
    Answers (putPacket data >>= fun _ => (return a : StubProg α)) r ↔ r = data := by
  rw [Answers, wp_bind, wp_putPacket_replying]
  simp [eq_comm]

/-- Whatever document it is, and whatever lengths the client asks for. -/
theorem qxfer_reassembly (d : Document) (cl : Client) (stale : Nat → List UInt8) :
    Reassembles d (fun args t => qxferReply d.text (args ++ 0 :: t)) cl stale := by
  apply Serves.reassembles
  intro offset length t r
  rw [← chunk_at d cl offset length t]
  unfold Answers qxferReply
  rw [wp_putPacket_replying]
  simp [eq_comm]

/-- Line by line, as evaluating the whole text at once takes far longer. -/
theorem memmap_text : (0 : UInt8) ∉ MEMMAP ∧ MEMMAP.length < 2 ^ 64 := by
  constructor
  · simp only [MEMMAP, bytes_append, List.mem_append, not_or]
    decide +kernel
  · simp only [MEMMAP, bytes_append, List.length_append]
    decide +kernel

/-- The memory map is a document. -/
def memoryMap : Document := ⟨MEMMAP, memmap_text.1, memmap_text.2⟩

theorem strrchr_last {c : UInt8} (hc : c ≠ 0) (s : List UInt8) (hs : (0 : UInt8) ∉ s)
    {t : List UInt8} (ht : c ∉ t) (h0 : (0 : UInt8) ∉ t) (rest : List UInt8) :
    strrchr c (s ++ c :: t ++ 0 :: rest) = some (c :: t ++ 0 :: rest) := by
  have hnone : strrchr c (t ++ 0 :: rest) = none := by
    induction t with
    | nil => simp [strrchr]
    | cons b t ih =>
      simp only [List.mem_cons, not_or] at ht h0
      simp [strrchr, ih ht.2 h0.2, Ne.symm h0.1, Ne.symm ht.1]
  induction s with
  | nil => simp [strrchr, hnone, hc]
  | cons b s ih =>
    simp only [List.mem_cons, not_or] at hs
    have := ih hs.2
    simp only [List.cons_append, List.append_assoc] at this ⊢
    simp [strrchr, this, Ne.symm hs.1]

/-- A request for the memory map, whatever its annex. -/
theorem handle_q_memmap (s : Stub) {annex args : List UInt8} (hannex : (0 : UInt8) ∉ annex)
    (hargs : 58 ∉ args) (h0 : (0 : UInt8) ∉ args) (stale : List UInt8) :
    handle_q s (bytes "qXfer:memory-map:read:" ++ annex ++ 58 :: args ++ 0 :: stale) =
      qxferReply MEMMAP (args ++ 0 :: stale) := by
  have hclean : (0 : UInt8) ∉ bytes "qXfer:memory-map:read:" ++ annex := by
    rw [List.mem_append]
    exact fun h => h.elim (by decide) hannex
  have hlast := strrchr_last (c := 58) (by decide) _ hclean hargs h0 stale
  have hstart : strncmpEq (bytes "qXfer:memory-map:read:" ++ annex ++ 58 :: args ++ 0 :: stale)
      (bytes "qXfer:memory-map:read:") = true := by
    simp [strncmpEq, List.append_assoc]
  have hother : strncmpEq (bytes "qXfer:memory-map:read:" ++ annex ++ 58 :: args ++ 0 :: stale)
      (bytes "qSupported") = false := by
    rfl
  rw [handle_q, hother, if_neg Bool.false_ne_true, if_pos hstart, hlast]
  rfl

theorem args_clean (cl : Client) (offset length : Nat) :
    58 ∉ cl.args offset length ∧ (0 : UInt8) ∉ cl.args offset length := by
  have hnumber : ∀ n, 58 ∉ cl.number n ∧ (0 : UInt8) ∉ cl.number n :=
    fun n => ⟨(cl.hex n).not_mem (by decide), (cl.hex n).not_mem (by decide)⟩
  simp [Client.args, hnumber]

theorem memoryMap_text : memoryMap.text = MEMMAP := by
  rw [memoryMap]

theorem dispatch_q (polls : Nat) (s : Stub) (p : List UInt8) (n : Int) (h : p.getD 0 0 = 113) :
    dispatch polls s p n = (handle_q s p >>= fun _ => return some s) := by
  simp only [dispatch, h]
  rfl

/-- The packet that asks for a part of the memory map. -/
def mapRequest (annex args : List UInt8) : List UInt8 :=
  bytes "qXfer:memory-map:read:" ++ annex ++ 58 :: args

theorem memory_map_reassembly (polls : Nat) (s : Stub) {annex : List UInt8}
    (hannex : (0 : UInt8) ∉ annex) (cl : Client) (stale : Nat → List UInt8) :
    Reassembles memoryMap (fun args t => dispatchPacket polls s ⟨mapRequest annex args, t⟩) cl
      stale := by
  apply Serves.reassembles
  intro offset length t r
  obtain ⟨hcolon, hzero⟩ := args_clean cl offset length
  have hq := handle_q_memmap s hannex hcolon hzero t
  rw [← memoryMap_text, qxferReply, chunk_at] at hq
  have hdispatch : dispatchPacket polls s ⟨mapRequest annex (cl.args offset length), t⟩ =
      (putPacket (memoryMap.chunk offset length) >>= fun _ => return some s) := by
    rw [dispatchPacket, dispatch_q polls s _ _ rfl]
    exact congrArg (· >>= fun _ => return some s) hq
  beta_reduce
  rw [hdispatch]
  exact answers_putPacket _ r (some s)

/-- In chunks of 16 bytes, with no annex. -/
example (polls : Nat) (s : Stub) :
    Reassembles memoryMap (fun args t => dispatchPacket polls s ⟨mapRequest [] args, t⟩)
      (steady 16 (by decide)) fun _ => [] :=
  memory_map_reassembly polls s (by simp) _ _

end OpenTricore.Qxfer
