import OpenTricore.Replies
import OpenTricore.RspFrames

/-! The way of a reply over the wire. `rsp_put_packet` escapes nothing, so a reply gets
through only if it has none of the four characters that mean something to the decoder.
No reply has one (`Reply.clean`), and a decoder that is given what a call of
`rsp_put_packet` writes then reads the reply (`Clean.survives`), for every packet and
every state of stub and target (`replies_survive`). -/

namespace OpenTricore
open Lib Lib.Prog Rsp

/-! ## The buffer of `rsp_put_packet` -/

/-- `p[k++] = b`. -/
def putByte (x : List UInt8 × Nat) (b : UInt8) : List UInt8 × Nat := (x.1.set x.2 b, x.2 + 1)

/-- The packet put into `p`, and the number of its bytes. -/
def fillPacket (p : List UInt8) (data : List UInt8) : List UInt8 × Nat :=
  let x := putByte (p, 0) 36
  let (x, sum) := data.foldl (fun y b => (putByte y.1 b, y.2 + b)) (x, (0 : UInt8))
  let x := putByte x 35
  let x := putByte x (hexd (sum >>> 4).toNat)
  putByte x (hexd (sum &&& 0xF).toNat)

/-- `stackbuf` if the packet fits it, and memory of its size from `malloc` otherwise. -/
def packetBuffer (stackbuf heap data : List UInt8) : List UInt8 :=
  if data.length + 4 ≤ 512 then stackbuf else heap

/-- The rounds of `rsp_put_packet` in its buffer `p`, filled anew for each of them. -/
def putFilledLoop (data : List UInt8) : Nat → List UInt8 → Conn → Int × Conn
  | 0, _, c => (-1, c)
  | n + 1, p, c =>
    let (p, k) := fillPacket p data
    match writeAll (p.take k) c with
    | (false, c) => (-1, c)
    | (true, c) =>
      match readByte c with
      | (none, c) => (-1, c)
      | (some ack, c) =>
        if ack = 45 then putFilledLoop data n p (c.note (.resent data)) else (0, c)

/-- `rspPutPacket` with the bytes of its buffers, of which nothing is known. -/
def putFilled (stackbuf heap data : List UInt8) (c : Conn) : Int × Conn :=
  putFilledLoop data (c.inp.length + 1) (packetBuffer stackbuf heap data) (c.note (.sent data))

theorem foldl_putByte (bs : List UInt8) (p : List UInt8) (k : Nat) (h : k + bs.length ≤ p.length) :
    (bs.foldl putByte (p, k)).2 = k + bs.length ∧
      (bs.foldl putByte (p, k)).1.take (k + bs.length) = p.take k ++ bs := by
  induction bs generalizing p k with
  | nil => simp
  | cons b bs ih =>
    rw [List.length_cons] at h
    have hk : k < p.length := by omega
    obtain ⟨hlen, htake⟩ := ih (p.set k b) (k + 1) (by rw [List.length_set]; omega)
    have hset : (p.set k b).take (k + 1) = p.take k ++ [b] := by
      rw [List.take_add_one, List.take_set_of_le (Nat.le_refl _)]
      simp [hk]
    rw [List.length_cons, ← Nat.add_assoc, Nat.add_right_comm]
    refine ⟨hlen, htake.trans ?_⟩
    rw [hset, List.append_assoc]
    rfl

theorem foldl_sum (data : List UInt8) (x : List UInt8 × Nat) (sum : UInt8) :
    data.foldl (fun y b => (putByte y.1 b, y.2 + b)) (x, sum) =
      (data.foldl putByte x, data.foldl (· + ·) sum) := by
  induction data generalizing x sum with
  | nil => rfl
  | cons b data ih => exact ih (putByte x b) (sum + b)

theorem frame_length (data : List UInt8) : (frame data).length = data.length + 4 := by
  simp [frame]

theorem fillPacket_eq (p data : List UInt8) :
    fillPacket p data = (frame data).foldl putByte (p, 0) := by
  simp only [fillPacket, foldl_sum, frame, List.cons_append, List.foldl_cons, List.foldl_append,
    List.foldl_nil]

theorem foldl_putByte_length (bs : List UInt8) (x : List UInt8 × Nat) :
    (bs.foldl putByte x).1.length = x.1.length := by
  induction bs generalizing x with
  | nil => rfl
  | cons b bs ih => exact (ih (putByte x b)).trans List.length_set

/-- In a buffer of at least `len + 4` bytes, whatever it held, the frame is put together. -/
theorem fillPacket_frame (p data : List UInt8) (h : data.length + 4 ≤ p.length) :
    (fillPacket p data).1.take (fillPacket p data).2 = frame data := by
  obtain ⟨hlen, htake⟩ := foldl_putByte (frame data) p 0 (by rw [frame_length]; omega)
  rw [fillPacket_eq, hlen, htake, List.take_zero, List.nil_append]

theorem packetBuffer_room {stackbuf heap data : List UInt8} (hstack : stackbuf.length = 512)
    (hheap : heap.length = data.length + 4) :
    data.length + 4 ≤ (packetBuffer stackbuf heap data).length := by
  rw [packetBuffer]
  split
  · omega
  · omega

/-- What the buffer held before makes no difference in any round. -/
theorem putFilledLoop_eq (data : List UInt8) (n : Nat) (p : List UInt8) (c : Conn)
    (h : data.length + 4 ≤ p.length) : putFilledLoop data n p c = putPacketLoop data n c := by
  induction n generalizing p c with
  | zero => rfl
  | succ n ih =>
    have hlen := foldl_putByte_length (frame data) (p, 0)
    rw [← fillPacket_eq] at hlen
    have hframe := fillPacket_frame p data h
    rw [putFilledLoop, putPacketLoop]
    dsimp only
    rw [hframe]
    cases writeAll (frame data) c with
    | mk sent c' =>
      cases sent with
      | false => rfl
      | true =>
        dsimp only
        cases readByte c' with
        | mk ack c'' =>
          cases ack with
          | none => rfl
          | some ack =>
            dsimp only
            rw [ih _ _ (hlen ▸ h)]

theorem putFilled_eq {stackbuf heap data : List UInt8} (hstack : stackbuf.length = 512)
    (hheap : heap.length = data.length + 4) (c : Conn) :
    putFilled stackbuf heap data c = rspPutPacket data c :=
  putFilledLoop_eq data _ _ _ (packetBuffer_room hstack hheap)

/-! ## What is written -/

theorem writeAll_out {p : List UInt8} {c c' : Conn} {b : Bool} (h : writeAll p c = (b, c')) :
    c'.out = c.out ++ if b then p else [] := by
  rw [writeAll] at h
  split at h
  · cases h
    exact (List.append_nil _).symm
  · cases h
    rfl

theorem readByte_out {c c' : Conn} {b : Option UInt8} (h : readByte c = (b, c')) :
    c'.out = c.out := by
  rw [readByte] at h
  split at h <;> cases h <;> rfl

/-- The frame `k` times. -/
def frames (k : Nat) (data : List UInt8) : List UInt8 := (List.replicate k (frame data)).flatten

theorem frames_succ (k : Nat) (data : List UInt8) :
    frames (k + 1) data = frame data ++ frames k data := by
  rw [frames, List.replicate_succ, List.flatten_cons, frames]

theorem frames_one (data : List UInt8) : frames 1 data = frame data := by
  rw [frames_succ, frames, List.replicate_zero, List.flatten_nil, List.append_nil]

/-- Each transmission writes the frame, and the first one takes place if its write succeeds. -/
theorem putPacketLoop_out (data : List UInt8) (n : Nat) (c : Conn) :
    ∃ k, (putPacketLoop data n c).2.out = c.out ++ frames k data ∧
      (0 < n → c.writes.head? ≠ some false → 0 < k) := by
  induction n generalizing c with
  | zero => exact ⟨0, (List.append_nil _).symm, fun h => absurd h (Nat.lt_irrefl 0)⟩
  | succ n ih =>
    rw [putPacketLoop]
    split
    · rename_i hw
      refine ⟨0, writeAll_out hw, fun _ hwrite => ?_⟩
      rw [writeAll] at hw
      split at hw
      · rename_i hws
        rw [hws] at hwrite
        exact absurd rfl hwrite
      · cases hw
    · rename_i c' hw
      have hout := writeAll_out hw
      rw [if_pos rfl] at hout
      split
      · rename_i hr
        refine ⟨1, ?_, fun _ _ => Nat.one_pos⟩
        rw [readByte_out hr, hout, frames_one]
      · rename_i c'' hr
        split
        · obtain ⟨k, hk, -⟩ := ih (c''.note (.resent data))
          refine ⟨k + 1, hk.trans ?_, fun _ _ => Nat.succ_pos k⟩
          rw [show (c''.note (.resent data)).out = c''.out from rfl, readByte_out hr, hout,
            List.append_assoc, frames_succ]
        · refine ⟨1, ?_, fun _ _ => Nat.one_pos⟩
          rw [readByte_out hr, hout, frames_one]

/-- What a call of `rsp_put_packet` writes: the frame, once for each transmission. -/
theorem rspPutPacket_out (data : List UInt8) (c : Conn) :
    ∃ k, (rspPutPacket data c).2.out = c.out ++ frames k data ∧
      (c.writes.head? ≠ some false → 0 < k) := by
  obtain ⟨k, hout, hpos⟩ := putPacketLoop_out data (c.inp.length + 1) (c.note (.sent data))
  exact ⟨k, hout, hpos (Nat.succ_pos _)⟩

/-! ## The decoder -/

/-- Escape and run-length expansion: `}` stands before a byte that was changed by `0x20`,
and `*` before a count that asks for more of the byte before it. -/
def expandFrom (last : UInt8) : List UInt8 → List UInt8
  | [] => []
  | b :: t =>
    if b = 125 then
      match t with
      | [] => []
      | e :: t => (e ^^^ 0x20) :: expandFrom (e ^^^ 0x20) t
    else if b = 42 then
      match t with
      | [] => []
      | n :: t => List.replicate (n.toNat - 29) last ++ expandFrom last t
    else b :: expandFrom b t

def expand (payload : List UInt8) : List UInt8 := expandFrom 0 payload

/-- None of the characters with a meaning. -/
def Clean (d : List UInt8) : Prop := ∀ b ∈ d, b ≠ 35 ∧ b ≠ 36 ∧ b ≠ 125 ∧ b ≠ 42

instance (d : List UInt8) : Decidable (Clean d) := List.decidableBAll _ d

theorem expandFrom_plain {b : UInt8} (hescape : b ≠ 125) (hrun : b ≠ 42) (last : UInt8)
    (t : List UInt8) : expandFrom last (b :: t) = b :: expandFrom b t := by
  cases t <;> simp [expandFrom, hescape, hrun]

theorem Clean.expandFrom {d : List UInt8} (h : Clean d) (last : UInt8) : expandFrom last d = d := by
  induction d generalizing last with
  | nil => rfl
  | cons b d ih =>
    obtain ⟨-, -, hescape, hrun⟩ := h b List.mem_cons_self
    rw [expandFrom_plain hescape hrun, ih fun c hc => h c (List.mem_cons_of_mem _ hc)]

/-- Acknowledgements. -/
def Acks (skip : List UInt8) : Prop := ∀ b ∈ skip, b = 43 ∨ b = 45

theorem Acks.skipped {skip : List UInt8} (h : Acks skip) : Skipped skip := by
  constructor
  · intro hmem
    exact absurd (h 36 hmem) (by decide)
  · intro hmem
    exact absurd (h 0x03 hmem) (by decide)

/-- The two digits behind a payload are those of its checksum. -/
theorem frame_acceptable {d : List UInt8} {bufsz : Nat} (h : d.length < bufsz) :
    Acceptable bufsz d (hexd (d.foldl (· + ·) 0 >>> 4).toNat)
      (hexd (d.foldl (· + ·) 0 &&& 0xF).toNat) := by
  have hsum := toNat_sum d 0
  generalize d.foldl (· + ·) 0 = sum at hsum ⊢
  have hlt := sum.toNat_lt
  have hhigh : (sum >>> 4).toNat = sum.toNat / 16 := by
    rw [UInt8.toNat_shiftRight]
    exact Nat.shiftRight_eq_div_pow ..
  have hlow : (sum &&& 0xF).toNat = sum.toNat % 16 := by
    rw [UInt8.toNat_and]
    exact Nat.and_two_pow_sub_one_eq_mod sum.toNat 4
  refine ⟨⟨_, _, hexd_digit (by omega), hexd_digit (by omega), ?_⟩, by omega⟩
  rw [checksum, hhigh, hlow]
  simp only [show (0 : UInt8).toNat = 0 from rfl, Nat.zero_add] at hsum
  omega

theorem frame_frames {d : List UInt8} (hd : Clean d) {skip : List UInt8} (hskip : Acks skip)
    {bufsz : Nat} (h : d.length < bufsz) (rest : List UInt8) :
    Frames bufsz (skip ++ frame d ++ rest) [43] (.packet d) rest := by
  have hbody : 35 ∉ d := fun hmem => (hd 35 hmem).1 rfl
  have := Frames.accept rest hskip.skipped hbody (frame_acceptable h)
  simpa [frame] using this

/-- A reply gets through. The buffer of either kind holds its frame, whatever it held
before, and the call writes what it puts there. The frame and no other byte is written,
once for each transmission, and at least once if the first write succeeds. A decoder that
is given the bytes which a call wrote, behind any acknowledgements, has the reply itself,
with its length, and goes on behind its first frame. -/
structure Survives (d : List UInt8) : Prop where
  clean : Clean d
  filled : ∀ stackbuf heap : List UInt8, stackbuf.length = 512 → heap.length = d.length + 4 →
    (fillPacket (packetBuffer stackbuf heap d) d).1.take
      (fillPacket (packetBuffer stackbuf heap d) d).2 = frame d
  buffered : ∀ stackbuf heap c, stackbuf.length = 512 → heap.length = d.length + 4 →
    putFilled stackbuf heap d c = rspPutPacket d c
  written : ∀ c, ∃ k, (rspPutPacket d c).2.out = c.out ++ frames k d ∧
    (c.writes.head? ≠ some false → 0 < k)
  decoded : ∀ sender wire, (rspPutPacket d sender).2.out = sender.out ++ wire →
    sender.writes.head? ≠ some false → ∀ skip rest buf c bufsz, Acks skip → d.length < bufsz →
    bufsz ≤ buf.length → c.inp = skip ++ wire ++ rest → c.writes.head? ≠ some false →
    ∃ k, wire = frame d ++ frames k d ∧
      Rsp.Answered [43] (.packet d) (frames k d ++ rest) d.length c (rspGetPacket buf bufsz c)
  expanded : expand d = d

theorem Clean.survives {d : List UInt8} (h : Clean d) (hlen : d.length < 2 ^ 31) : Survives d where
  clean := h
  filled _ _ hstack hheap := fillPacket_frame _ _ (packetBuffer_room hstack hheap)
  buffered _ _ c hstack hheap := putFilled_eq hstack hheap c
  written c := rspPutPacket_out d c
  decoded sender wire hwire hsender skip rest buf c bufsz hskip hroom hbuf hinp hwrite := by
    obtain ⟨_ | k, hout, hpos⟩ := rspPutPacket_out d sender
    · exact absurd (hpos hsender) (Nat.lt_irrefl 0)
    have hwire : wire = frame d ++ frames k d := by
      rw [← frames_succ]
      exact List.append_cancel_left (hwire.symm.trans hout)
    have hframes := frame_frames h hskip hroom (frames k d ++ rest)
    rw [show skip ++ frame d ++ (frames k d ++ rest) = c.inp by simp [hinp, hwire]] at hframes
    have hsent : false ∉ c.writes.take [(43 : UInt8)].length := by
      intro hmem
      have := (mem_take_succ hwrite 0).mp hmem
      simp at this
    have hanswer := rspGetPacket_answered (by omega) hbuf hframes hsent
    exact ⟨k, hwire, { hanswer with value := hanswer.value.trans (value_of_lt hlen) }⟩
  expanded := h.expandFrom 0

/-! ## The replies -/

theorem Clean.append {d e : List UInt8} (hd : Clean d) (he : Clean e) : Clean (d ++ e) :=
  fun b hb => (List.mem_append.mp hb).elim (hd b) (he b)

/-- A clean text of at most `n` characters. -/
def CleanUpTo (n : Nat) (d : List UInt8) : Prop := Clean d ∧ d.length ≤ n

instance (n : Nat) (d : List UInt8) : Decidable (CleanUpTo n d) :=
  inferInstanceAs (Decidable (Clean d ∧ d.length ≤ n))

theorem CleanUpTo.append {n m : Nat} {d e : List UInt8} (hd : CleanUpTo n d)
    (he : CleanUpTo m e) : CleanUpTo (n + m) (d ++ e) := by
  refine ⟨hd.1.append he.1, ?_⟩
  rw [List.length_append]
  exact Nat.add_le_add hd.2 he.2

theorem CleanUpTo.mono {n m : Nat} {d : List UInt8} (h : CleanUpTo n d) (hle : n ≤ m) :
    CleanUpTo m d := ⟨h.1, Nat.le_trans h.2 hle⟩

theorem valueChar_clean {b : UInt8} (h : ValueChar b) : b ≠ 35 ∧ b ≠ 36 ∧ b ≠ 125 ∧ b ≠ 42 := by
  rcases h with h | rfl
  · refine ⟨?_, ?_, ?_, ?_⟩ <;> rintro rfl <;> exact h (by decide)
  · decide

/-- The number of a thread, and the list of them. -/
theorem thread_texts : ∀ n : Fin (NCORE + 1),
    CleanUpTo 16 (printHex n) ∧ CleanUpTo 512 (threadList n) := by
  decide +kernel

theorem fixed_clean : ∀ d ∈ fixedReplies, CleanUpTo 64 d := by
  decide +kernel

/-- What stands around the number of a thread. -/
theorem around_clean : CleanUpTo 16 (bytes "T05thread:") ∧ CleanUpTo 16 (bytes ";") ∧
    CleanUpTo 16 (bytes "QC") := by
  decide +kernel

/-- Each line of the map on its own: the whole text is long to evaluate. -/
theorem memmap_clean :
    CleanUpTo (80 + 80 + 80 + 80 + 80 + 80 + 80 + 80 + 80 + 80) MEMMAP := by
  rw [MEMMAP]
  simp only [bytes_append]
  repeat' apply CleanUpTo.append
  all_goals decide +kernel

/-- A letter and a part of the document. -/
theorem qxferChunk_cases (doc args : List UInt8) :
    qxferChunk doc args = bytes "l" ∨
      ∃ b n m, (b = 108 ∨ b = 109) ∧ qxferChunk doc args = b :: (doc.drop n).take m := by
  rw [qxferChunk]
  dsimp only
  split
  · exact .inl rfl
  · exact .inr ⟨_, _, _, ite_eq_or_eq _ _ _, rfl⟩

/-- Every chunk of the map, wherever it is cut. -/
theorem chunk_clean (args : List UInt8) : CleanUpTo 801 (qxferChunk MEMMAP args) := by
  obtain ⟨hclean, hlen⟩ := memmap_clean
  generalize MEMMAP = doc at hclean hlen ⊢
  rcases qxferChunk_cases doc args with hend | ⟨b, n, m, hletter, hchunk⟩
  · rw [hend]
    decide +kernel
  · have hpart : CleanUpTo 800 ((doc.drop n).take m) := by
      refine ⟨fun c hc => hclean c (List.mem_of_mem_drop (List.mem_of_mem_take hc)), ?_⟩
      rw [List.length_take, List.length_drop]
      omega
    have hb : CleanUpTo 1 [b] := by rcases hletter with rfl | rfl <;> decide +kernel
    rw [hchunk]
    exact (hb.append hpart).mono (Nat.le_refl _)

theorem Reply.clean {s : Stub} {d : List UInt8} (h : Reply s d) : CleanUpTo BUFSZ d := by
  have hcur : s.cur + 1 < NCORE + 1 := by
    have := s.cur_lt
    have := s.ncore_le
    omega
  have hcore : s.ncore < NCORE + 1 := Nat.lt_succ_of_le s.ncore_le
  have hnumber : CleanUpTo 16 (printHex (s.cur + 1)) := (thread_texts ⟨s.cur + 1, hcur⟩).1
  obtain ⟨hthread, hend, hQC⟩ := around_clean
  cases h with
  | fixed h => exact (fixed_clean d h).mono (by decide)
  | stop => exact ((hthread.append hnumber).append hend).mono (by decide)
  | current => exact (hQC.append hnumber).mono (by decide)
  | threads => exact (thread_texts ⟨s.ncore, hcore⟩).2.mono (by decide)
  | values h hlen => exact ⟨fun b hb => valueChar_clean (h b hb), hlen⟩
  | chunk args => exact (chunk_clean args).mono (by decide)

theorem Reply.survives {s : Stub} {d : List UInt8} (h : Reply s d) : Survives d :=
  h.clean.1.survives (Nat.lt_of_le_of_lt h.clean.2 (by decide))

/-- Every payload that is sent survives. -/
def SendsWell (o : StubSig.Op) : Prop := ∀ d, o = StubOp.putPacket d → Survives d

theorem may_sendsWell {s : Stub} {o : StubSig.Op} (h : s.May o) : SendsWell o := by
  rintro d rfl
  exact Reply.survives h

/-- Every reply survives the wire: in every session, from every state of the stub, with
whatever packets arrive and whatever the target answers. -/
theorem replies_survive (rounds polls : Nat) (s : Stub) (buf : List UInt8) :
    (serve rounds polls s buf).Asks SendsWell fun _ => True := by
  apply asks_loop (fun _ => True) _ _ _ _ _ trivial
  rintro ⟨s, buf⟩ -
  have hget : SendsWell (.getPacket buf) := by
    rintro d ⟨⟩
  refine asks_stubAsk hget fun (x : Int × List UInt8) => ?_
  dsimp only
  refine asks_ite (fun _ => trivial) fun _ => ?_
  refine asks_ite (fun _ => ?_) fun _ => ?_
  · rw [asks_bind]
    exact (asks_reportStop.widen fun _ => may_sendsWell).mono fun _ _ => trivial
  · rw [asks_bind]
    apply Asks.mono ((dispatch_asks polls s x.2 x.1).widen fun _ => may_sendsWell)
    rintro (_ | s') -
    · trivial
    · trivial

end OpenTricore
