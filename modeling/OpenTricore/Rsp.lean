import OpenTricore.Lib.CString

/-! The RSP transport, `tools/tc-gdbserver/rsp.c`: framing, checksums and
acknowledgements, as functions on the byte stream of one connection. Every
`read` is of one byte, so how the client splits its stream makes no difference.

Proved here: a payload that is accepted stands in the buffer with its
terminator, in front of what earlier packets left, and each call leaves one shape
of log entry (`rspGetPacket_received`, `rspPutPacket_log`). -/

namespace OpenTricore
open Lib

/-! ## The connection -/

/-- What happens on the wire, in order. -/
inductive Wire
  | interrupted                       -- a `0x03` outside a frame
  | accepted (payload : List UInt8)
  | refused                           -- a bad packet, asked for again
  | sent (payload : List UInt8)
  | resent (payload : List UInt8)
  | running                           -- the target was polled, and runs
  deriving DecidableEq, Repr

/-- `inp` is what the client will still send before it disconnects, `writes` are
the outcomes of the coming calls of `write_all` (past its end they succeed), and
`out` is what was written. The log is ours. -/
structure Conn where
  inp : List UInt8
  writes : List Bool
  out : List UInt8
  log : List Wire
  deriving DecidableEq, Repr

def Conn.note (c : Conn) (w : Wire) : Conn := { c with log := c.log ++ [w] }

def readByte (c : Conn) : Option UInt8 × Conn :=
  match c.inp with
  | [] => (none, c)
  | b :: rest => (some b, { c with inp := rest })

/-- True if everything was written. -/
def writeAll (p : List UInt8) (c : Conn) : Bool × Conn :=
  match c.writes with
  | false :: ws => (false, { c with writes := ws })
  | _ => (true, { c with writes := c.writes.tail, out := c.out ++ p })

theorem writeAll_succeeds {c : Conn} (hw : false ∉ c.writes) (p : List UInt8) :
    writeAll p c = (true, { c with writes := c.writes.tail, out := c.out ++ p }) := by
  rw [writeAll]
  split
  · rename_i hws
    rw [hws] at hw
    exact absurd List.mem_cons_self hw
  · rfl

/-! ## Hexadecimal digits -/

def hexd (n : Nat) : UInt8 := (bytes "0123456789abcdef").getD n 0

/-- Both `rsp.c` and `main.c` have it. -/
def hexval (c : UInt8) : Int :=
  if 48 ≤ c ∧ c ≤ 57 then c.toNat - 48
  else if 97 ≤ c ∧ c ≤ 102 then c.toNat - 97 + 10
  else if 65 ≤ c ∧ c ≤ 70 then c.toNat - 65 + 10
  else -1

theorem hexval_some {c : UInt8} {d : Nat} (h : digit16 c = some d) : hexval c = d := by
  simp only [digit16] at h
  simp only [hexval]
  split at h
  · rename_i hc
    rw [if_pos hc]
    simp only [UInt8.le_iff_toNat_le, UInt8.reduceToNat, Option.some.injEq] at hc h
    omega
  · rename_i hc
    rw [if_neg hc]
    split at h
    · rename_i hc
      rw [if_pos hc]
      simp only [UInt8.le_iff_toNat_le, UInt8.reduceToNat, Option.some.injEq] at hc h
      omega
    · rename_i hc
      rw [if_neg hc]
      split at h
      · rename_i hc
        rw [if_pos hc]
        simp only [UInt8.le_iff_toNat_le, UInt8.reduceToNat, Option.some.injEq] at hc h
        omega
      · cases h

theorem hexval_none {c : UInt8} (h : digit16 c = none) : hexval c = -1 := by
  simp only [digit16] at h
  simp only [hexval]
  split at h
  · cases h
  · rename_i hc
    rw [if_neg hc]
    split at h
    · cases h
    · rename_i hc
      rw [if_neg hc]
      split at h
      · cases h
      · rename_i hc
        rw [if_neg hc]

theorem hexval_nonneg_iff (c : UInt8) : hexval c < 0 ↔ digit16 c = none := by
  cases h : digit16 c with
  | none => simp [hexval_none h]
  | some d => simp [hexval_some h]

/-- Two digits, put together as C does. -/
theorem nibbles (b : UInt8) {h l : Nat} (hh : h < 16) (hl : l < 16) (hb : b.toNat = 16 * h + l) :
    (UInt8.ofInt h <<< 4 ||| UInt8.ofInt l) = b := by
  have key : ∀ h l : Fin 16,
      (UInt8.ofInt (h : Nat) <<< 4 ||| UInt8.ofInt (l : Nat)).toNat = 16 * h.val + l.val := by
    decide
  rw [← UInt8.toNat_inj, hb]
  exact key ⟨h, hh⟩ ⟨l, hl⟩

/-! ## Receiving -/

/-- How the search for the start of a packet ends. -/
inductive Start
  | eof
  | interrupt
  | frame

/-- The `do` loop: skip to `$`, honouring an out of band interrupt. -/
def findStart : List UInt8 → Start × List UInt8
  | [] => (.eof, [])
  | c :: inp =>
    if c = 0x03 then (.interrupt, inp)
    else if c = 36 then (.frame, inp)
    else findStart inp

/-- The locals of one round of `rsp_get_packet`. -/
structure Body where
  buf : List UInt8
  len : Nat
  sum : UInt8
  ok : Bool

/-- The loop up to `#`. `none` is a disconnect, with the buffer as it is then. -/
def readBody (bufsz : Nat) : List UInt8 → Body → Body × Option (List UInt8)
  | [], s => (s, none)
  | c :: inp, s =>
    if c = 35 then (s, some inp)
    else if s.len + 1 ≥ bufsz then readBody bufsz inp { s with ok := false }
    else readBody bufsz inp { s with buf := s.buf.set s.len c, len := s.len + 1, sum := s.sum + c }

/-- The outer loop. Each round takes a `$` off the stream. The length is cut to an
`int`. -/
def getPacketLoop (bufsz : Nat) : Nat → List UInt8 → Conn → (Int × List UInt8) × Conn
  | 0, buf, c => ((-1, buf), c)
  | n + 1, buf, c =>
    match findStart c.inp with
    | (.eof, inp) => ((-1, buf), { c with inp := inp })
    | (.interrupt, inp) => ((-2, buf), { c with inp := inp }.note .interrupted)
    | (.frame, inp) =>
      match readBody bufsz inp ⟨buf, 0, 0, true⟩ with
      | (s, none) => ((-1, s.buf), { c with inp := [] })
      | (s, some (h :: l :: inp)) =>
        let hi := hexval h
        let lo := hexval l
        let want := (UInt8.ofInt hi <<< 4) ||| UInt8.ofInt lo
        let c := { c with inp := inp }
        if s.ok ∧ hi ≥ 0 ∧ lo ≥ 0 ∧ want = s.sum then
          match writeAll (bytes "+") c with
          | (false, c) => ((-1, s.buf), c)
          | (true, c) =>
            ((Int.bmod s.len (2 ^ 32), s.buf.set s.len 0), c.note (.accepted (s.buf.take s.len)))
        else
          match writeAll (bytes "-") c with
          | (false, c) => ((-1, s.buf), c)
          | (true, c) => getPacketLoop bufsz n s.buf (c.note .refused)
      | (s, some _) => ((-1, s.buf), { c with inp := [] })

/-- The returned length, or -1 on disconnect and -2 on an interrupt, with the
buffer as it is left. -/
def rspGetPacket (buf : List UInt8) (bufsz : Nat) (c : Conn) : (Int × List UInt8) × Conn :=
  getPacketLoop bufsz (c.inp.length + 1) buf c

/-- What one call of `rsp_get_packet` returns, and what it leaves in the log. -/
inductive Received : Int → List UInt8 → List Wire → Prop
  | disconnect (buf : List UInt8) : Received (-1) buf []
  | interrupt (buf : List UInt8) : Received (-2) buf [.interrupted]
  | packet (payload stale : List UInt8) (hash : 35 ∉ payload) :
      Received payload.length (payload ++ 0 :: stale) [.accepted payload]
  | again {n : Int} {buf : List UInt8} {l : List Wire} (h : Received n buf l) :
      Received n buf (.refused :: l)

/-- What holds in each round of the loop up to `#`. -/
structure Body.Wf (bufsz : Nat) (s : Body) : Prop where
  size : s.buf.length = bufsz
  room : s.len + 1 ≤ bufsz
  hash : 35 ∉ s.buf.take s.len

theorem readBody_wf (bufsz : Nat) (inp : List UInt8) (s : Body) (h : s.Wf bufsz) :
    (readBody bufsz inp s).1.Wf bufsz := by
  induction inp generalizing s with
  | nil => exact h
  | cons c inp ih =>
    rw [readBody]
    split
    · exact h
    · rename_i hc
      split
      · exact ih _ ⟨h.size, h.room, h.hash⟩
      · rename_i hroom
        have hlen : s.len < s.buf.length := by have := h.size; omega
        refine ih _ ⟨by simp [h.size], by dsimp only; omega, ?_⟩
        have hset : (s.buf.set s.len c).take (s.len + 1) = s.buf.take s.len ++ [c] := by
          rw [List.take_add_one, List.take_set_of_le (Nat.le_refl _)]
          simp [hlen]
        rw [hset, List.mem_append, List.mem_singleton]
        exact fun hm => hm.elim h.hash fun heq => hc heq.symm

/-- The accepted bytes, the terminator, and what was there before. -/
theorem Body.Wf.terminated {bufsz : Nat} {s : Body} (h : s.Wf bufsz) :
    s.buf.set s.len 0 = s.buf.take s.len ++ 0 :: s.buf.drop (s.len + 1) ∧
      (s.buf.take s.len).length = s.len := by
  have := h.size
  have := h.room
  have hlen : s.len < s.buf.length := by omega
  exact ⟨List.set_eq_take_append_cons_drop.trans (if_pos hlen), List.length_take_of_le (by omega)⟩

theorem writeAll_log {p : List UInt8} {c c' : Conn} {b : Bool} (h : writeAll p c = (b, c')) :
    c'.log = c.log := by
  rw [writeAll] at h
  split at h <;> cases h <;> rfl

theorem getPacketLoop_received (bufsz n : Nat) (buf : List UInt8) (c : Conn)
    (hbuf : buf.length = bufsz) (h0 : 0 < bufsz) (hint : bufsz ≤ 2 ^ 31) :
    ∃ l, (getPacketLoop bufsz n buf c).2.log = c.log ++ l ∧
      Received (getPacketLoop bufsz n buf c).1.1 (getPacketLoop bufsz n buf c).1.2 l ∧
      (getPacketLoop bufsz n buf c).1.2.length = bufsz := by
  induction n generalizing buf c with
  | zero => exact ⟨[], by simp [getPacketLoop], .disconnect buf, hbuf⟩
  | succ n ih =>
    rw [getPacketLoop]
    split
    · exact ⟨[], by simp, .disconnect buf, hbuf⟩
    · exact ⟨[.interrupted], by simp [Conn.note], .interrupt buf, hbuf⟩
    · rename_i inp _
      have hwf : Body.Wf bufsz ⟨buf, 0, 0, true⟩ := ⟨hbuf, by dsimp only; omega, by simp⟩
      have hs := readBody_wf bufsz inp _ hwf
      split
      · rename_i hr
        rw [hr] at hs
        exact ⟨[], by simp, .disconnect _, hs.size⟩
      · rename_i s h l inp hr
        rw [hr] at hs
        dsimp only
        split
        · split
          · rename_i hw
            have hlog := writeAll_log hw
            exact ⟨[], by simpa using hlog, .disconnect _, hs.size⟩
          · rename_i hw
            have hlog := writeAll_log hw
            obtain ⟨hterm, hlen⟩ := hs.terminated
            refine ⟨[.accepted (s.buf.take s.len)], by simp [Conn.note, hlog], ?_,
              by simp [hs.size]⟩
            have hroom : s.len + 1 ≤ bufsz := hs.room
            have := Received.packet (s.buf.take s.len) (s.buf.drop (s.len + 1)) hs.hash
            rw [Int.bmod_eq_of_le (by omega) (by omega)]
            rwa [← hterm, hlen] at this
        · split
          · rename_i hw
            have hlog := writeAll_log hw
            exact ⟨[], by simpa using hlog, .disconnect _, hs.size⟩
          · rename_i hw
            have hlog := writeAll_log hw
            obtain ⟨l, hl, hr, hsize⟩ := ih s.buf (Conn.note _ .refused) hs.size
            exact ⟨.refused :: l, by rw [hl]; simp [Conn.note, hlog], .again hr, hsize⟩
      · rename_i hr
        rw [hr] at hs
        exact ⟨[], by simp, .disconnect _, hs.size⟩

theorem rspGetPacket_received (bufsz : Nat) (buf : List UInt8) (c : Conn)
    (hbuf : buf.length = bufsz) (h0 : 0 < bufsz) (hint : bufsz ≤ 2 ^ 31) :
    ∃ l, (rspGetPacket buf bufsz c).2.log = c.log ++ l ∧
      Received (rspGetPacket buf bufsz c).1.1 (rspGetPacket buf bufsz c).1.2 l ∧
      (rspGetPacket buf bufsz c).1.2.length = bufsz :=
  getPacketLoop_received bufsz _ buf c hbuf h0 hint

theorem findStart_length (inp : List UInt8) :
    (findStart inp).2.length ≤ inp.length ∧
      ∀ st rest, findStart inp = (st, rest) → st ≠ .eof → rest.length < inp.length := by
  induction inp with
  | nil =>
    refine ⟨Nat.le_refl _, ?_⟩
    rintro st rest ⟨⟩ hne
    exact absurd rfl hne
  | cons c inp ih =>
    rw [findStart]
    split
    · refine ⟨Nat.le_succ _, ?_⟩
      rintro st rest ⟨⟩ _
      exact Nat.lt_succ_self _
    · split
      · refine ⟨Nat.le_succ _, ?_⟩
        rintro st rest ⟨⟩ _
        exact Nat.lt_succ_self _
      · refine ⟨Nat.le_succ_of_le ih.1, fun st rest h hne => ?_⟩
        exact Nat.lt_succ_of_lt (ih.2 st rest h hne)

theorem readBody_length (bufsz : Nat) (inp : List UInt8) (s : Body) (rest : List UInt8)
    (h : (readBody bufsz inp s).2 = some rest) : rest.length < inp.length := by
  induction inp generalizing s with
  | nil => cases h
  | cons c inp ih =>
    rw [readBody] at h
    split at h
    · cases h
      exact Nat.lt_succ_self _
    · split at h
      · exact Nat.lt_succ_of_lt (ih _ h)
      · exact Nat.lt_succ_of_lt (ih _ h)

theorem writeAll_inp {p : List UInt8} {c c' : Conn} {b : Bool} (h : writeAll p c = (b, c')) :
    c'.inp = c.inp := by
  rw [writeAll] at h
  split at h <;> cases h <;> rfl

/-- A call that does not end in a disconnect takes a byte off the stream. -/
theorem getPacketLoop_inp (bufsz n : Nat) (buf : List UInt8) (c : Conn) :
    (getPacketLoop bufsz n buf c).2.inp.length ≤ c.inp.length ∧
      ((getPacketLoop bufsz n buf c).1.1 ≠ -1 →
        (getPacketLoop bufsz n buf c).2.inp.length < c.inp.length) := by
  induction n generalizing buf c with
  | zero => exact ⟨Nat.le_refl _, fun h => absurd rfl h⟩
  | succ n ih =>
    have hstart := findStart_length c.inp
    rw [getPacketLoop]
    split
    · rename_i inp heq
      rw [heq] at hstart
      exact ⟨hstart.1, fun h => absurd rfl h⟩
    · rename_i inp heq
      have hlt := hstart.2 _ _ heq (by simp)
      exact ⟨Nat.le_of_lt hlt, fun _ => hlt⟩
    · rename_i inp heq
      have hlt := hstart.2 _ _ heq (by simp)
      split
      · exact ⟨Nat.zero_le _, fun h => absurd rfl h⟩
      · rename_i s h l inp' heq'
        have hbody := readBody_length bufsz inp _ (h :: l :: inp') (by rw [heq'])
        simp only [List.length_cons] at hbody
        have hrest : inp'.length < c.inp.length := by omega
        dsimp only
        split
        · split
          · rename_i hw
            rw [writeAll_inp hw]
            exact ⟨Nat.le_of_lt hrest, fun _ => hrest⟩
          · rename_i hw
            have hinp := writeAll_inp hw
            simp only [Conn.note, hinp]
            exact ⟨Nat.le_of_lt hrest, fun _ => hrest⟩
        · split
          · rename_i hw
            rw [writeAll_inp hw]
            exact ⟨Nat.le_of_lt hrest, fun _ => hrest⟩
          · rename_i c' hw
            have hinp := writeAll_inp hw
            have hnext := ih s.buf (c'.note .refused)
            have hlength : (c'.note .refused).inp.length = inp'.length :=
              congrArg List.length hinp
            rw [hlength] at hnext
            exact ⟨by omega, fun hne => Nat.lt_trans (hnext.2 hne) hrest⟩
      · exact ⟨Nat.zero_le _, fun h => absurd rfl h⟩

/-- The rounds allowed by `rspGetPacket` are enough: more make no difference. -/
theorem getPacketLoop_fuel (bufsz n k : Nat) (buf : List UInt8) (c : Conn)
    (h : c.inp.length < n) : getPacketLoop bufsz (n + k) buf c = getPacketLoop bufsz n buf c := by
  induction n generalizing buf c with
  | zero => omega
  | succ n ih =>
    rw [Nat.add_right_comm, getPacketLoop, getPacketLoop]
    have hstart := findStart_length c.inp
    cases hs : findStart c.inp with
    | mk st inp =>
      cases st with
      | eof => rfl
      | interrupt => rfl
      | frame =>
        have hlt := hstart.2 _ _ hs (by simp)
        dsimp only
        cases hb : readBody bufsz inp ⟨buf, 0, 0, true⟩ with
        | mk s rest =>
          rcases rest with _ | _ | ⟨h1, _ | ⟨h2, rest⟩⟩
          · rfl
          · rfl
          · rfl
          · have hbody := readBody_length bufsz inp _ (h1 :: h2 :: rest) (by rw [hb])
            simp only [List.length_cons] at hbody
            dsimp only
            split
            · rfl
            · cases hw : writeAll (bytes "-") { c with inp := rest } with
              | mk sent c' =>
                cases sent with
                | false => rfl
                | true =>
                  refine ih s.buf (c'.note .refused) ?_
                  have hinp : (c'.note .refused).inp = rest := writeAll_inp hw
                  rw [hinp]
                  omega

/-! ## Sending -/

/-- `$`, the data, `#` and the checksum. -/
def frame (data : List UInt8) : List UInt8 :=
  let sum := data.foldl (· + ·) 0
  36 :: data ++ [35, hexd (sum >>> 4).toNat, hexd (sum &&& 0xF).toNat]

/-- Transmit, and again for each `-`. Any other byte counts as `+`. -/
def putPacketLoop (data : List UInt8) : Nat → Conn → Int × Conn
  | 0, c => (-1, c)
  | n + 1, c =>
    match writeAll (frame data) c with
    | (false, c) => (-1, c)
    | (true, c) =>
      match readByte c with
      | (none, c) => (-1, c)
      | (some ack, c) =>
        if ack = 45 then putPacketLoop data n (c.note (.resent data)) else (0, c)

/-- A reply counts as sent from the first attempt on. -/
def rspPutPacket (data : List UInt8) (c : Conn) : Int × Conn :=
  putPacketLoop data (c.inp.length + 1) (c.note (.sent data))

theorem readByte_log {c c' : Conn} {b : Option UInt8} (h : readByte c = (b, c')) :
    c'.log = c.log := by
  rw [readByte] at h
  split at h <;> cases h <;> rfl

theorem readByte_inp {c c' : Conn} {b : Option UInt8} (h : readByte c = (b, c')) :
    c'.inp.length ≤ c.inp.length := by
  rw [readByte] at h
  split at h
  · cases h
    exact Nat.le_refl _
  · rename_i hinp
    cases h
    rw [hinp]
    exact Nat.le_succ _

theorem putPacketLoop_log (data : List UInt8) (n : Nat) (c : Conn) :
    ∃ k, (putPacketLoop data n c).2.log = c.log ++ List.replicate k (.resent data) := by
  induction n generalizing c with
  | zero => exact ⟨0, by simp [putPacketLoop]⟩
  | succ n ih =>
    rw [putPacketLoop]
    split
    · rename_i hw
      have hlog := writeAll_log hw
      exact ⟨0, by simpa using hlog⟩
    · rename_i c' hw
      have hlog := writeAll_log hw
      split
      · rename_i hr
        have hlog' := readByte_log hr
        exact ⟨0, by simpa [hlog] using hlog'⟩
      · rename_i hr
        have hlog' := readByte_log hr
        split
        · obtain ⟨k, hk⟩ := ih (Conn.note _ (.resent data))
          exact ⟨k + 1, by rw [hk]; simp [Conn.note, hlog', hlog, List.replicate_succ]⟩
        · exact ⟨0, by simpa [hlog] using hlog'⟩

/-- One reply, and however many retransmissions of it. -/
theorem rspPutPacket_log (data : List UInt8) (c : Conn) :
    ∃ k, (rspPutPacket data c).2.log = c.log ++ .sent data :: List.replicate k (.resent data) := by
  obtain ⟨k, hk⟩ := putPacketLoop_log data (c.inp.length + 1) (c.note (.sent data))
  exact ⟨k, by rw [rspPutPacket, hk]; simp [Conn.note]⟩

theorem putPacketLoop_inp (data : List UInt8) (n : Nat) (c : Conn) :
    (putPacketLoop data n c).2.inp.length ≤ c.inp.length := by
  induction n generalizing c with
  | zero => exact Nat.le_refl _
  | succ n ih =>
    rw [putPacketLoop]
    split
    · rename_i hw
      exact Nat.le_of_eq (congrArg List.length (writeAll_inp hw))
    · rename_i c' hw
      have hinp := writeAll_inp hw
      split
      · rename_i hr
        have hr := readByte_inp hr
        rw [← hinp]
        exact hr
      · rename_i c'' hr
        have hr := readByte_inp hr
        rw [hinp] at hr
        split
        · exact Nat.le_trans (ih (Conn.note c'' _)) hr
        · exact hr

/-! ## The log and the bytes -/

/-- What an event of the log puts on the wire. -/
def Wire.written : Wire → List UInt8
  | .accepted _ => [43]
  | .refused => [45]
  | .sent data => frame data
  | .resent data => frame data
  | .interrupted => []
  | .running => []

/-- No write fails, and what was written is what the log says, event by event. -/
structure Conn.Tied (c : Conn) : Prop where
  writes : false ∉ c.writes
  out : c.out = c.log.flatMap Wire.written

theorem Conn.Tied.note {c : Conn} (h : c.Tied) {w : Wire} (hw : w.written = []) :
    (c.note w).Tied where
  writes := h.writes
  out := by simp [Conn.note, h.out, hw]

/-- The bytes of an event are written, before it is noted or after. -/
theorem Conn.Tied.written {c : Conn} (h : c.Tied) (w : Wire) (inp : List UInt8) :
    Conn.Tied ⟨inp, c.writes.tail, c.out ++ w.written, c.log ++ [w]⟩ where
  writes hmem := h.writes (List.mem_of_mem_tail hmem)
  out := by simp [h.out]

theorem getPacketLoop_tied (bufsz n : Nat) (buf : List UInt8) (c : Conn) (h : c.Tied) :
    (getPacketLoop bufsz n buf c).2.Tied := by
  induction n generalizing buf c with
  | zero => exact h
  | succ n ih =>
    have hread : ∀ inp, Conn.Tied { c with inp := inp } := fun _ => ⟨h.writes, h.out⟩
    rw [getPacketLoop]
    split
    · exact hread _
    · exact (hread _).note rfl
    · split
      · exact hread _
      · rename_i inp _
        dsimp only
        rw [writeAll_succeeds (hread inp).writes, writeAll_succeeds (hread inp).writes]
        split
        · exact h.written (.accepted _) inp
        · exact ih _ _ (h.written .refused inp)
      · exact hread _

/-- The frame is noted before it is written, so the loop is entered with it to be written. -/
theorem putPacketLoop_tied (data : List UInt8) (n : Nat) (c : Conn) (hn : c.inp.length < n)
    (hwrites : false ∉ c.writes) (hout : c.out ++ frame data = c.log.flatMap Wire.written) :
    (putPacketLoop data n c).2.Tied := by
  induction n generalizing c with
  | zero => cases hn
  | succ n ih =>
    have htail : false ∉ c.writes.tail := fun hmem => hwrites (List.mem_of_mem_tail hmem)
    rw [putPacketLoop, writeAll_succeeds hwrites]
    cases hinp : c.inp with
    | nil =>
      simp only [readByte]
      exact ⟨htail, hout⟩
    | cons ack inp =>
      simp only [readByte]
      split
      · rw [hinp, List.length_cons] at hn
        refine ih _ (Nat.lt_of_succ_lt_succ hn) htail ?_
        simp [Conn.note, hout, Wire.written]
      · exact ⟨htail, hout⟩

theorem rspGetPacket_tied (buf : List UInt8) (bufsz : Nat) {c : Conn} (h : c.Tied) :
    (rspGetPacket buf bufsz c).2.Tied := getPacketLoop_tied bufsz _ buf c h

theorem rspPutPacket_tied (data : List UInt8) {c : Conn} (h : c.Tied) :
    (rspPutPacket data c).2.Tied := by
  refine putPacketLoop_tied data _ (c.note (.sent data)) (Nat.lt_succ_self _) h.writes ?_
  simp [Conn.note, h.out, Wire.written]

end OpenTricore
