import Mathlib.Algebra.GroupWithZero.Nat
import OpenTricore.Rsp

/-! The frame grammar of the client stream, and `rsp_get_packet` as its acceptor.
`Frames` says what a stream holds up to the first interrupt, the first acceptable
frame or its end, and which characters are due for it. The function does what the
grammar says, for every stream and every size of the buffer, up to the cast of the
length to `int`. -/

namespace OpenTricore.Rsp
open OpenTricore Lib

/-! ## The grammar -/

/-- Bytes between frames. -/
def Skipped (skip : List UInt8) : Prop := 36 ∉ skip ∧ 0x03 ∉ skip

/-- The sum of the bytes of a body. -/
def checksum (body : List UInt8) : Nat := (body.map UInt8.toNat).sum % 256

/-- The two characters are hex digits of the checksum, and the body fits. -/
def Acceptable (bufsz : Nat) (body : List UInt8) (h l : UInt8) : Prop :=
  (∃ d e, digit16 h = some d ∧ digit16 l = some e ∧ 16 * d + e = checksum body) ∧
    body.length ≤ bufsz - 1

/-- A frame that the stream ends in. -/
def CutOff (tail : List UInt8) : Prop :=
  35 ∉ tail ∨ ∃ body t, tail = body ++ 35 :: t ∧ 35 ∉ body ∧ t.length < 2

inductive Outcome
  | disconnect
  | interrupt
  | packet (body : List UInt8)

/-- `Frames bufsz inp acks out rest`: the stream `inp` is answered by `acks`, ends in
`out`, and `rest` is left of it. -/
inductive Frames (bufsz : Nat) :
    List UInt8 → List UInt8 → Outcome → List UInt8 → Prop
  | eof {skip : List UInt8} (hskip : Skipped skip) : Frames bufsz skip [] .disconnect []
  | interrupt {skip : List UInt8} (rest : List UInt8) (hskip : Skipped skip) :
      Frames bufsz (skip ++ 0x03 :: rest) [] .interrupt rest
  | cut {skip tail : List UInt8} (hskip : Skipped skip) (htail : CutOff tail) :
      Frames bufsz (skip ++ 36 :: tail) [] .disconnect []
  | accept {skip body : List UInt8} {h l : UInt8} (rest : List UInt8) (hskip : Skipped skip)
      (hbody : 35 ∉ body) (hgood : Acceptable bufsz body h l) :
      Frames bufsz (skip ++ 36 :: (body ++ 35 :: h :: l :: rest)) [43] (.packet body) rest
  | reject {skip body rest acks rest' : List UInt8} {h l : UInt8} {out : Outcome}
      (hskip : Skipped skip) (hbody : 35 ∉ body) (hbad : ¬ Acceptable bufsz body h l)
      (hnext : Frames bufsz rest acks out rest') :
      Frames bufsz (skip ++ 36 :: (body ++ 35 :: h :: l :: rest)) (45 :: acks) out rest'

/-- A stream without a byte, or up to the first of them. -/
theorem split_at (p : UInt8 → Prop) [DecidablePred p] (inp : List UInt8) :
    (∀ b ∈ inp, ¬ p b) ∨ ∃ s b t, inp = s ++ b :: t ∧ (∀ b ∈ s, ¬ p b) ∧ p b := by
  induction inp with
  | nil => exact .inl fun _ h => by cases h
  | cons c inp ih =>
    by_cases hc : p c
    · exact .inr ⟨[], c, inp, rfl, (fun _ h => by cases h), hc⟩
    · rcases ih with hall | ⟨s, b, t, rfl, hs, hb⟩
      · refine .inl fun b hb => ?_
        rcases List.mem_cons.mp hb with rfl | hb
        · exact hc
        · exact hall b hb
      · refine .inr ⟨c :: s, b, t, rfl, fun b' hb' => ?_, hb⟩
        rcases List.mem_cons.mp hb' with rfl | hb'
        · exact hc
        · exact hs b' hb'

theorem not_mem_of_forall {c : UInt8} {s : List UInt8} (h : ∀ b ∈ s, ¬ b = c) : c ∉ s :=
  fun hmem => h c hmem rfl

/-- Every stream has a reading. -/
theorem frames_exist (bufsz : Nat) (inp : List UInt8) :
    ∃ acks out rest, Frames bufsz inp acks out rest := by
  induction hn : inp.length using Nat.strongRecOn generalizing inp with
  | ind n ih =>
    rcases split_at (fun b => b = 36 ∨ b = 0x03) inp with hall | ⟨skip, b, tail, rfl, hs, hb⟩
    · exact ⟨[], .disconnect, [], .eof ⟨fun h => hall _ h (.inl rfl), fun h => hall _ h (.inr rfl)⟩⟩
    · have hskip : Skipped skip := ⟨fun h => hs _ h (.inl rfl), fun h => hs _ h (.inr rfl)⟩
      rcases hb with rfl | rfl
      · rcases split_at (fun b => b = 35) tail with hall | ⟨body, _, t, rfl, hbody, rfl⟩
        · exact ⟨[], .disconnect, [], .cut hskip (.inl (not_mem_of_forall hall))⟩
        · have hbody := not_mem_of_forall hbody
          match t, hn with
          | [], _ => exact ⟨[], .disconnect, [], .cut hskip (.inr ⟨body, [], rfl, hbody, by simp⟩)⟩
          | [h], _ =>
            exact ⟨[], .disconnect, [], .cut hskip (.inr ⟨body, [h], rfl, hbody, by simp⟩)⟩
          | h :: l :: rest, hn =>
            by_cases hgood : Acceptable bufsz body h l
            · exact ⟨[43], .packet body, rest, .accept rest hskip hbody hgood⟩
            · have hlt : rest.length < n := by
                rw [← hn]
                simp only [List.length_append, List.length_cons]
                omega
              obtain ⟨acks, out, rest', hnext⟩ := ih rest.length hlt rest rfl
              exact ⟨45 :: acks, out, rest', .reject hskip hbody hgood hnext⟩
      · exact ⟨[], .interrupt, tail, .interrupt tail hskip⟩

/-! ## The loops on a stream that is split -/

theorem findStart_skip {skip : List UInt8} (h : Skipped skip) (inp : List UInt8) :
    findStart (skip ++ inp) = findStart inp := by
  induction skip with
  | nil => rfl
  | cons b skip ih =>
    obtain ⟨h36, h3⟩ := h
    rw [List.mem_cons, not_or] at h36 h3
    rw [List.cons_append, findStart, if_neg (Ne.symm h3.1), if_neg (Ne.symm h36.1)]
    exact ih ⟨h36.2, h3.2⟩

/-- One byte of a body. -/
def takeByte (bufsz : Nat) (s : Body) (c : UInt8) : Body :=
  if s.len + 1 ≥ bufsz then { s with ok := false }
  else { s with buf := s.buf.set s.len c, len := s.len + 1, sum := s.sum + c }

def takeBody (bufsz : Nat) (s : Body) (body : List UInt8) : Body := body.foldl (takeByte bufsz) s

theorem readBody_step (bufsz : Nat) {c : UInt8} (hc : c ≠ 35) (inp : List UInt8) (s : Body) :
    readBody bufsz (c :: inp) s = readBody bufsz inp (takeByte bufsz s c) := by
  rw [readBody, if_neg hc, takeByte]
  split <;> rfl

theorem readBody_append {body : List UInt8} (h : 35 ∉ body) (bufsz : Nat) (inp : List UInt8)
    (s : Body) : readBody bufsz (body ++ inp) s = readBody bufsz inp (takeBody bufsz s body) := by
  induction body generalizing s with
  | nil => rfl
  | cons c body ih =>
    rw [List.mem_cons, not_or] at h
    rw [List.cons_append, readBody_step bufsz (Ne.symm h.1), ih h.2]
    rfl

theorem readBody_frame {body : List UInt8} (h : 35 ∉ body) (bufsz : Nat) (t : List UInt8)
    (s : Body) : readBody bufsz (body ++ 35 :: t) s = (takeBody bufsz s body, some t) := by
  rw [readBody_append h, readBody, if_pos rfl]

theorem readBody_open {tail : List UInt8} (h : 35 ∉ tail) (bufsz : Nat) (s : Body) :
    readBody bufsz tail s = (takeBody bufsz s tail, none) := by
  have happend := readBody_append h bufsz [] s
  rw [List.append_nil] at happend
  rw [happend, readBody]

section
variable {bufsz : Nat}

/-- A body that fits is stored as it is. -/
theorem takeBody_fits (body : List UInt8) (s : Body) (hroom : s.len + body.length + 1 ≤ bufsz)
    (hbuf : bufsz ≤ s.buf.length) :
    takeBody bufsz s body = ⟨s.buf.take s.len ++ body ++ s.buf.drop (s.len + body.length),
      s.len + body.length, body.foldl (· + ·) s.sum, s.ok⟩ := by
  induction body generalizing s with
  | nil => simp [takeBody]
  | cons c body ih =>
    rw [List.length_cons] at hroom
    have hlen : s.len < s.buf.length := by omega
    have hbyte : takeByte bufsz s c =
        { s with buf := s.buf.set s.len c, len := s.len + 1, sum := s.sum + c } := by
      rw [takeByte, if_neg (by omega)]
    have htake : (s.buf.set s.len c).take (s.len + 1) = s.buf.take s.len ++ [c] := by
      rw [List.take_add_one, List.take_set_of_le (Nat.le_refl _)]
      simp [hlen]
    have hdrop : (s.buf.set s.len c).drop (s.len + 1 + body.length) =
        s.buf.drop (s.len + 1 + body.length) := List.drop_set_of_lt (by omega)
    rw [takeBody, List.foldl_cons, hbyte]
    have := ih { s with buf := s.buf.set s.len c, len := s.len + 1, sum := s.sum + c }
      (by dsimp only; omega) (by simpa using hbuf)
    rw [takeBody] at this
    rw [this]
    simp only [htake, hdrop, List.length_cons, List.foldl_cons, Body.mk.injEq]
    refine ⟨?_, by omega, trivial, trivial⟩
    rw [show s.len + 1 + body.length = s.len + (body.length + 1) by omega]
    simp

theorem takeBody_not_ok (body : List UInt8) (s : Body) (h : s.ok = false) :
    (takeBody bufsz s body).ok = false := by
  induction body generalizing s with
  | nil => exact h
  | cons c body ih =>
    apply ih
    rw [takeByte]
    split
    · rfl
    · exact h

/-- A body that does not fit is not delivered. -/
theorem takeBody_overflows (body : List UInt8) (s : Body) (hroom : s.len + 1 ≤ bufsz)
    (hlong : bufsz < s.len + body.length + 1) : (takeBody bufsz s body).ok = false := by
  induction body generalizing s with
  | nil =>
    rw [List.length_nil] at hlong
    omega
  | cons c body ih =>
    rw [List.length_cons] at hlong
    rw [takeBody, List.foldl_cons]
    by_cases hfull : s.len + 1 ≥ bufsz
    · apply takeBody_not_ok
      rw [takeByte, if_pos hfull]
    · rw [takeByte, if_neg hfull]
      exact ih _ (by dsimp only; omega) (by dsimp only; omega)

/-- No byte is stored past the end of the buffer. -/
theorem takeBody_bounded (body : List UInt8) (s : Body) (hroom : s.len + 1 ≤ bufsz) :
    (takeBody bufsz s body).len + 1 ≤ bufsz ∧
      (takeBody bufsz s body).buf.length = s.buf.length ∧
      (takeBody bufsz s body).buf.drop bufsz = s.buf.drop bufsz := by
  induction body generalizing s with
  | nil => exact ⟨hroom, rfl, rfl⟩
  | cons c body ih =>
    rw [takeBody, List.foldl_cons]
    by_cases hfull : s.len + 1 ≥ bufsz
    · rw [takeByte, if_pos hfull]
      exact ih _ hroom
    · rw [takeByte, if_neg hfull]
      obtain ⟨hlen, hsize, hdrop⟩ :=
        ih ⟨s.buf.set s.len c, s.len + 1, s.sum + c, s.ok⟩ (by dsimp only; omega)
      refine ⟨hlen, hsize.trans (List.length_set ..), hdrop.trans ?_⟩
      exact List.drop_set_of_lt (by omega)

/-! ## The test of a frame -/

theorem toNat_sum (body : List UInt8) (x : UInt8) :
    (body.foldl (· + ·) x).toNat = (x.toNat + (body.map UInt8.toNat).sum) % 256 := by
  induction body generalizing x with
  | nil =>
    have := x.toNat_lt
    simp only [List.foldl_nil, List.map_nil, List.sum_nil]
    omega
  | cons c body ih =>
    rw [List.foldl_cons, ih, UInt8.toNat_add, List.map_cons, List.sum_cons]
    omega

/-- The test at the end of a frame. -/
theorem acceptable_iff (buf body : List UInt8) (h l : UInt8) (h0 : 1 ≤ bufsz)
    (hbuf : bufsz ≤ buf.length) :
    ((takeBody bufsz ⟨buf, 0, 0, true⟩ body).ok = true ∧ hexval h ≥ 0 ∧ hexval l ≥ 0 ∧
      ((UInt8.ofInt (hexval h) <<< 4) ||| UInt8.ofInt (hexval l)) =
        (takeBody bufsz ⟨buf, 0, 0, true⟩ body).sum) ↔ Acceptable bufsz body h l := by
  rcases Nat.lt_or_ge (bufsz - 1) body.length with hlong | hfits
  · have hover := takeBody_overflows body ⟨buf, 0, 0, true⟩ (by dsimp only; omega)
      (show bufsz < 0 + body.length + 1 by omega)
    rw [hover]
    constructor
    · rintro ⟨hok, -⟩
      cases hok
    · rintro ⟨-, hle⟩
      omega
  · have hsum := toNat_sum body 0
    rw [takeBody_fits body ⟨buf, 0, 0, true⟩ (show 0 + body.length + 1 ≤ bufsz by omega) hbuf]
    dsimp only
    have hdigits : ∀ d e : Nat, d < 16 → e < 16 →
        ((UInt8.ofInt d <<< 4 ||| UInt8.ofInt e) = body.foldl (· + ·) 0 ↔
          16 * d + e = checksum body) := by
      intro d e hd he
      have hb : (UInt8.ofNat (16 * d + e)).toNat = 16 * d + e := by
        rw [UInt8.toNat_ofNat']
        omega
      rw [nibbles (UInt8.ofNat (16 * d + e)) hd he hb, ← UInt8.toNat_inj, hb, hsum, checksum]
      simp
    constructor
    · rintro ⟨-, hh, hl, hwant⟩
      obtain ⟨d, hd⟩ := Option.ne_none_iff_exists'.mp fun hnone =>
        absurd ((hexval_nonneg_iff h).mpr hnone) (by omega)
      obtain ⟨e, he⟩ := Option.ne_none_iff_exists'.mp fun hnone =>
        absurd ((hexval_nonneg_iff l).mpr hnone) (by omega)
      rw [hexval_some hd, hexval_some he] at hwant
      have hcheck := (hdigits d e (digit16_some hd).1 (digit16_some he).1).mp hwant
      exact ⟨⟨d, e, hd, he, hcheck⟩, hfits⟩
    · rintro ⟨⟨d, e, hd, he, hcheck⟩, -⟩
      rw [hexval_some hd, hexval_some he]
      have hwant := (hdigits d e (digit16_some hd).1 (digit16_some he).1).mpr hcheck
      exact ⟨rfl, by omega, by omega, hwant⟩

/-! ## A round of the outer loop -/

theorem findStart_eof {skip : List UInt8} (h : Skipped skip) : findStart skip = (.eof, []) := by
  have happend := findStart_skip h []
  rw [List.append_nil] at happend
  rw [happend, findStart]

theorem findStart_interrupt {skip : List UInt8} (h : Skipped skip) (rest : List UInt8) :
    findStart (skip ++ 0x03 :: rest) = (.interrupt, rest) := by
  rw [findStart_skip h, findStart, if_pos rfl]

theorem findStart_frame {skip : List UInt8} (h : Skipped skip) (t : List UInt8) :
    findStart (skip ++ 36 :: t) = (.frame, t) := by
  rw [findStart_skip h, findStart, if_neg (by decide), if_pos rfl]

variable (n : Nat) (buf : List UInt8) (c : Conn)

/-- The locals after the body. -/
abbrev bodyRead (bufsz : Nat) (buf body : List UInt8) : Body :=
  takeBody bufsz ⟨buf, 0, 0, true⟩ body

theorem loop_eof {skip : List UInt8} (h : Skipped skip) (hinp : c.inp = skip) :
    getPacketLoop bufsz (n + 1) buf c = ((-1, buf), { c with inp := [] }) := by
  rw [getPacketLoop, hinp, findStart_eof h]

theorem loop_interrupt {skip rest : List UInt8} (h : Skipped skip)
    (hinp : c.inp = skip ++ 0x03 :: rest) :
    getPacketLoop bufsz (n + 1) buf c =
      ((-2, buf), { c with inp := rest }.note .interrupted) := by
  rw [getPacketLoop, hinp, findStart_interrupt h]

theorem loop_cut {skip tail : List UInt8} (h : Skipped skip) (htail : CutOff tail)
    (hinp : c.inp = skip ++ 36 :: tail) :
    ∃ body, getPacketLoop bufsz (n + 1) buf c =
      ((-1, (bodyRead bufsz buf body).buf), { c with inp := [] }) := by
  rw [getPacketLoop, hinp, findStart_frame h]
  dsimp only
  rcases htail with hopen | ⟨body, t, rfl, hbody, ht⟩
  · rw [readBody_open hopen]
    exact ⟨tail, rfl⟩
  · rw [readBody_frame hbody]
    rcases t with _ | ⟨h, _ | ⟨l, t⟩⟩
    · exact ⟨body, rfl⟩
    · exact ⟨body, rfl⟩
    · simp only [List.length_cons] at ht
      omega

section
variable {n buf c} {skip body rest : List UInt8} {h l : UInt8} (hskip : Skipped skip)
  (hbody : 35 ∉ body) (hinp : c.inp = skip ++ 36 :: (body ++ 35 :: h :: l :: rest))
  (h0 : 1 ≤ bufsz) (hbuf : bufsz ≤ buf.length)
include hskip hbody hinp h0 hbuf

theorem loop_accept (hgood : Acceptable bufsz body h l) :
    getPacketLoop bufsz (n + 1) buf c =
      match writeAll [43] { c with inp := rest } with
      | (false, c) => ((-1, (bodyRead bufsz buf body).buf), c)
      | (true, c) =>
        ((Int.bmod (bodyRead bufsz buf body).len (2 ^ 32),
            (bodyRead bufsz buf body).buf.set (bodyRead bufsz buf body).len 0),
          c.note (.accepted
            ((bodyRead bufsz buf body).buf.take (bodyRead bufsz buf body).len))) := by
  have htest := (acceptable_iff buf body h l h0 hbuf).mpr hgood
  rw [getPacketLoop, hinp, findStart_frame hskip]
  dsimp only
  rw [readBody_frame hbody]
  dsimp only
  rw [if_pos htest]
  rfl

theorem loop_reject (hbad : ¬ Acceptable bufsz body h l) :
    getPacketLoop bufsz (n + 1) buf c =
      match writeAll [45] { c with inp := rest } with
      | (false, c) => ((-1, (bodyRead bufsz buf body).buf), c)
      | (true, c) => getPacketLoop bufsz n (bodyRead bufsz buf body).buf (c.note .refused) := by
  have htest := fun hpass => hbad ((acceptable_iff buf body h l h0 hbuf).mp hpass)
  rw [getPacketLoop, hinp, findStart_frame hskip]
  dsimp only
  rw [readBody_frame hbody]
  dsimp only
  rw [if_neg htest]
  rfl

end

/-! ## The whole call -/

/-- The coming write fails, or succeeds. -/
theorem writeAll_cases (p : List UInt8) (c : Conn) :
    (c.writes.head? = some false ∧
      writeAll p c = (false, { c with writes := c.writes.tail })) ∨
    (c.writes.head? ≠ some false ∧
      writeAll p c = (true, { c with writes := c.writes.tail, out := c.out ++ p })) := by
  rw [writeAll]
  split
  · rename_i ws hw
    exact .inl (by rw [hw]; exact ⟨rfl, rfl⟩)
  · rename_i hw
    refine .inr ⟨fun hhead => ?_, rfl⟩
    cases hws : c.writes with
    | nil => simp [hws] at hhead
    | cons b ws =>
      rw [hws, List.head?_cons, Option.some.injEq] at hhead
      exact hw ws (by rw [hws, hhead])

theorem mem_take_succ {ws : List Bool} (h : ws.head? ≠ some false) (k : Nat) :
    false ∈ ws.take (k + 1) ↔ false ∈ ws.tail.take k := by
  cases ws with
  | nil => simp
  | cons b ws =>
    cases b with
    | false => exact absurd rfl h
    | true => simp

theorem mem_take_of_head {ws : List Bool} (h : ws.head? = some false) (k : Nat) :
    false ∈ ws.take (k + 1) := by
  cases ws with
  | nil => simp at h
  | cons b ws =>
    rw [List.head?_cons, Option.some.injEq] at h
    simp [h]

/-- What is to be returned. -/
def Outcome.value : Outcome → Int
  | .disconnect => -1
  | .interrupt => -2
  | .packet body => body.length

/-- What is to stand in the buffer. -/
def Outcome.Stored (buf : List UInt8) : Outcome → Prop
  | .packet body => buf.take (body.length + 1) = body ++ [0]
  | _ => True

/-- The call did what the reading of the stream asks for, and returned `value`. -/
structure Answered (acks : List UInt8) (out : Outcome) (rest : List UInt8) (value : Int)
    (c : Conn) (r : (Int × List UInt8) × Conn) : Prop where
  value : r.1.1 = value
  stored : out.Stored r.1.2
  acks : r.2.out = c.out ++ acks
  rest : r.2.inp = rest

/-- The client was gone before all was acknowledged. -/
structure Unanswered (acks : List UInt8) (c : Conn) (r : (Int × List UInt8) × Conn) : Prop where
  value : r.1.1 = -1
  acks : ∃ j < acks.length, r.2.out = c.out ++ acks.take j

/-- The buffer has the length it had, and from `bufsz` on what it had. -/
def Bounded (bufsz : Nat) (buf buf' : List UInt8) : Prop :=
  buf'.length = buf.length ∧ buf'.drop bufsz = buf.drop bufsz

theorem Bounded.refl (buf : List UInt8) : Bounded bufsz buf buf := ⟨rfl, rfl⟩

theorem Bounded.trans {a b d : List UInt8} (h : Bounded bufsz a b) (h' : Bounded bufsz b d) :
    Bounded bufsz a d :=
  ⟨h'.1.trans h.1, h'.2.trans h.2⟩

theorem bodyRead_bounded (h0 : 1 ≤ bufsz) (buf body : List UInt8) :
    Bounded bufsz buf (bodyRead bufsz buf body).buf :=
  (takeBody_bounded body ⟨buf, 0, 0, true⟩ h0).2

theorem terminated_bounded (h0 : 1 ≤ bufsz) (buf body : List UInt8) :
    Bounded bufsz buf ((bodyRead bufsz buf body).buf.set (bodyRead bufsz buf body).len 0) := by
  have hlen : (bodyRead bufsz buf body).len + 1 ≤ bufsz :=
    (takeBody_bounded body ⟨buf, 0, 0, true⟩ h0).1
  have hset : Bounded bufsz (bodyRead bufsz buf body).buf
      ((bodyRead bufsz buf body).buf.set (bodyRead bufsz buf body).len 0) :=
    ⟨List.length_set .., List.drop_set_of_lt (by omega)⟩
  exact (bodyRead_bounded h0 buf body).trans hset

/-- An accepted body with its terminator. -/
theorem terminated_stored {body : List UInt8} (h0 : 1 ≤ bufsz) (buf : List UInt8)
    (hfits : body.length ≤ bufsz - 1) (hbuf : bufsz ≤ buf.length) :
    (bodyRead bufsz buf body).len = body.length ∧
      (Outcome.packet body).Stored
        ((bodyRead bufsz buf body).buf.set (bodyRead bufsz buf body).len 0) := by
  have hroom : (0 : Nat) + body.length + 1 ≤ bufsz := by omega
  rw [bodyRead, takeBody_fits body ⟨buf, 0, 0, true⟩ hroom hbuf]
  dsimp only
  refine ⟨Nat.zero_add _, ?_⟩
  have hdrop : 0 < (buf.drop body.length).length := by
    rw [List.length_drop]
    omega
  obtain ⟨b, t, ht⟩ := List.exists_cons_of_length_pos hdrop
  rw [Outcome.Stored, Nat.zero_add, List.take_zero, List.nil_append, ht,
    List.set_append_right _ _ (Nat.le_refl _), List.take_length_add_append, Nat.sub_self]
  rfl

theorem loop_bounded {inp acks rest : List UInt8} {out : Outcome}
    (hf : Frames bufsz inp acks out rest) (h0 : 1 ≤ bufsz) :
    ∀ n buf c, c.inp = inp → bufsz ≤ buf.length →
      Bounded bufsz buf (getPacketLoop bufsz n buf c).1.2 := by
  intro n
  induction hf generalizing n with
  | eof hskip =>
    intro buf c hinp _
    cases n with
    | zero => exact .refl buf
    | succ n =>
      rw [loop_eof n buf c hskip hinp]
      exact .refl buf
  | interrupt rest hskip =>
    intro buf c hinp _
    cases n with
    | zero => exact .refl buf
    | succ n =>
      rw [loop_interrupt n buf c hskip hinp]
      exact .refl buf
  | cut hskip htail =>
    intro buf c hinp _
    cases n with
    | zero => exact .refl buf
    | succ n =>
      obtain ⟨body, hloop⟩ := loop_cut n buf c hskip htail hinp
      rw [hloop]
      exact bodyRead_bounded h0 buf body
  | @accept skip body h l rest hskip hbody hgood =>
    intro buf c hinp hbuf
    cases n with
    | zero => exact .refl buf
    | succ n =>
      rw [loop_accept hskip hbody hinp h0 hbuf hgood]
      split
      · exact bodyRead_bounded h0 buf body
      · exact terminated_bounded h0 buf body
  | @reject skip body rest acks rest' h l out hskip hbody hbad hnext ih =>
    intro buf c hinp hbuf
    cases n with
    | zero => exact .refl buf
    | succ n =>
      have hread := bodyRead_bounded h0 buf body
      rw [loop_reject hskip hbody hinp h0 hbuf hbad]
      split
      · exact hread
      · rename_i c' hw
        have hinp' : (c'.note .refused).inp = rest := writeAll_inp hw
        exact hread.trans (ih n _ _ hinp' (by rw [hread.1]; exact hbuf))

/-- The length is cut to an `int`. By induction on the reading: one round for a
constructor. -/
theorem loop_answered {inp acks rest : List UInt8} {out : Outcome}
    (hf : Frames bufsz inp acks out rest) (h0 : 1 ≤ bufsz) :
    ∀ n buf c, c.inp = inp → inp.length < n → bufsz ≤ buf.length →
      false ∉ c.writes.take acks.length →
      Answered acks out rest (Int.bmod out.value (2 ^ 32)) c (getPacketLoop bufsz n buf c) := by
  intro n
  induction hf generalizing n with
  | eof hskip =>
    intro buf c hinp hn _ _
    obtain ⟨n, rfl⟩ := Nat.exists_eq_add_one.mpr (Nat.zero_lt_of_lt hn)
    rw [loop_eof n buf c hskip hinp]
    exact ⟨rfl, trivial, (List.append_nil _).symm, rfl⟩
  | interrupt rest hskip =>
    intro buf c hinp hn _ _
    obtain ⟨n, rfl⟩ := Nat.exists_eq_add_one.mpr (Nat.zero_lt_of_lt hn)
    rw [loop_interrupt n buf c hskip hinp]
    exact ⟨rfl, trivial, (List.append_nil _).symm, rfl⟩
  | cut hskip htail =>
    intro buf c hinp hn _ _
    obtain ⟨n, rfl⟩ := Nat.exists_eq_add_one.mpr (Nat.zero_lt_of_lt hn)
    obtain ⟨body, hloop⟩ := loop_cut n buf c hskip htail hinp
    rw [hloop]
    exact ⟨rfl, trivial, (List.append_nil _).symm, rfl⟩
  | @accept skip body h l rest hskip hbody hgood =>
    intro buf c hinp hn hbuf hw
    obtain ⟨n, rfl⟩ := Nat.exists_eq_add_one.mpr (Nat.zero_lt_of_lt hn)
    obtain ⟨hlen, hstored⟩ := terminated_stored h0 buf hgood.2 hbuf
    rw [loop_accept hskip hbody hinp h0 hbuf hgood]
    rcases writeAll_cases [43] { c with inp := rest } with ⟨hhead, -⟩ | ⟨-, hwrite⟩
    · exact absurd (mem_take_of_head hhead 0) hw
    · rw [hwrite]
      refine ⟨?_, hstored, rfl, rfl⟩
      dsimp only
      rw [hlen, Outcome.value]
  | @reject skip body rest acks rest' h l out hskip hbody hbad hnext ih =>
    intro buf c hinp hn hbuf hw
    obtain ⟨n, rfl⟩ := Nat.exists_eq_add_one.mpr (Nat.zero_lt_of_lt hn)
    simp only [List.length_append, List.length_cons] at hn
    rw [List.length_cons] at hw
    rw [loop_reject hskip hbody hinp h0 hbuf hbad]
    rcases writeAll_cases [45] { c with inp := rest } with ⟨hhead, -⟩ | ⟨hhead, hwrite⟩
    · exact absurd (mem_take_of_head hhead acks.length) hw
    · rw [hwrite]
      have hsize := (bodyRead_bounded h0 buf body).1
      have hnext := ih n (bodyRead bufsz buf body).buf
        (Conn.note { c with inp := rest, writes := c.writes.tail, out := c.out ++ [45] } .refused)
        rfl (by omega) (by rw [hsize]; exact hbuf)
        (fun hmem => hw ((mem_take_succ hhead acks.length).mpr hmem))
      refine ⟨hnext.value, hnext.stored, hnext.acks.trans ?_, hnext.rest⟩
      exact List.append_assoc ..

/-- A failed write ends the call, with the acknowledgements before it sent. -/
theorem loop_unanswered {inp acks rest : List UInt8} {out : Outcome}
    (hf : Frames bufsz inp acks out rest) (h0 : 1 ≤ bufsz) :
    ∀ n buf c, c.inp = inp → inp.length < n → bufsz ≤ buf.length →
      false ∈ c.writes.take acks.length → Unanswered acks c (getPacketLoop bufsz n buf c) := by
  intro n
  induction hf generalizing n with
  | eof hskip =>
    intro buf c _ _ _ hw
    simp at hw
  | interrupt rest hskip =>
    intro buf c _ _ _ hw
    simp at hw
  | cut hskip htail =>
    intro buf c _ _ _ hw
    simp at hw
  | @accept skip body h l rest hskip hbody hgood =>
    intro buf c hinp hn hbuf hw
    obtain ⟨n, rfl⟩ := Nat.exists_eq_add_one.mpr (Nat.zero_lt_of_lt hn)
    rw [loop_accept hskip hbody hinp h0 hbuf hgood]
    rcases writeAll_cases [43] { c with inp := rest } with ⟨-, hwrite⟩ | ⟨hhead, -⟩
    · rw [hwrite]
      exact ⟨rfl, 0, Nat.one_pos, (List.append_nil _).symm⟩
    · have hmem := (mem_take_succ hhead 0).mp hw
      simp at hmem
  | @reject skip body rest acks rest' h l out hskip hbody hbad hnext ih =>
    intro buf c hinp hn hbuf hw
    obtain ⟨n, rfl⟩ := Nat.exists_eq_add_one.mpr (Nat.zero_lt_of_lt hn)
    simp only [List.length_append, List.length_cons] at hn
    rw [List.length_cons] at hw
    rw [loop_reject hskip hbody hinp h0 hbuf hbad]
    rcases writeAll_cases [45] { c with inp := rest } with ⟨-, hwrite⟩ | ⟨hhead, hwrite⟩
    · rw [hwrite]
      exact ⟨rfl, 0, Nat.succ_pos _, (List.append_nil _).symm⟩
    · rw [hwrite]
      have hsize := (bodyRead_bounded h0 buf body).1
      obtain ⟨hvalue, j, hj, hacks⟩ := ih n (bodyRead bufsz buf body).buf
        (Conn.note { c with inp := rest, writes := c.writes.tail, out := c.out ++ [45] } .refused)
        rfl (by omega) (by rw [hsize]; exact hbuf)
        ((mem_take_succ hhead acks.length).mp hw)
      refine ⟨hvalue, j + 1, Nat.succ_lt_succ hj, hacks.trans ?_⟩
      exact List.append_assoc ..

/-! ## Exactness -/

/-- `rsp_get_packet` accepts the frame grammar: the stream has a reading, the call
answers by it unless the client is gone, and stays in the buffer. That holds for each
buffer of at least `bufsz` bytes, so a store past `buf[bufsz-1]` would show. -/
structure Exact (bufsz : Nat) (buf : List UInt8) (c : Conn) : Prop where
  parsed : ∃ acks out rest, Frames bufsz c.inp acks out rest
  answered : ∀ acks out rest, Frames bufsz c.inp acks out rest →
    false ∉ c.writes.take acks.length →
    Answered acks out rest out.value c (rspGetPacket buf bufsz c)
  unanswered : ∀ acks out rest, Frames bufsz c.inp acks out rest →
    false ∈ c.writes.take acks.length → Unanswered acks c (rspGetPacket buf bufsz c)
  bounded : Bounded bufsz buf (rspGetPacket buf bufsz c).1.2

/-- The frame to be delivered has a length that an `int` holds. -/
def Deliverable (bufsz : Nat) (c : Conn) : Prop :=
  ∀ acks body rest, Frames bufsz c.inp acks (.packet body) rest →
    false ∉ c.writes.take acks.length → body.length < 2 ^ 31

theorem rspGetPacket_answered {buf : List UInt8} {c : Conn} {acks rest : List UInt8}
    {out : Outcome} (h0 : 1 ≤ bufsz) (hbuf : bufsz ≤ buf.length)
    (hf : Frames bufsz c.inp acks out rest) (hw : false ∉ c.writes.take acks.length) :
    Answered acks out rest (Int.bmod out.value (2 ^ 32)) c (rspGetPacket buf bufsz c) :=
  loop_answered hf h0 _ buf c rfl (Nat.lt_succ_self _) hbuf hw

theorem value_of_lt {n : Nat} (h : n < 2 ^ 31) : Int.bmod (n : Int) (2 ^ 32) = n :=
  Int.bmod_eq_of_le (by omega) (by omega)

theorem lt_of_value {n : Nat} (h : Int.bmod (n : Int) (2 ^ 32) = n) : n < 2 ^ 31 := by
  have hlt := Int.bmod_lt (x := (n : Int)) (m := 2 ^ 32) (by decide)
  rw [h] at hlt
  omega

theorem exact_of_deliverable (buf : List UInt8) (c : Conn) (h0 : 1 ≤ bufsz)
    (hbuf : bufsz ≤ buf.length) (h : Deliverable bufsz c) : Exact bufsz buf c where
  parsed := frames_exist bufsz c.inp
  answered acks out rest hf hw := by
    have hanswer := rspGetPacket_answered h0 hbuf hf hw
    cases out with
    | disconnect => exact hanswer
    | interrupt => exact hanswer
    | packet body =>
      have hvalue := value_of_lt (h acks body rest hf hw)
      exact { hanswer with value := hanswer.value.trans hvalue }
  unanswered acks out rest hf hw :=
    loop_unanswered hf h0 _ buf c rfl (Nat.lt_succ_self _) hbuf hw
  bounded := by
    obtain ⟨acks, out, rest, hf⟩ := frames_exist bufsz c.inp
    exact loop_bounded hf h0 _ buf c rfl hbuf

theorem deliverable_of_exact (buf : List UInt8) (c : Conn) (h0 : 1 ≤ bufsz)
    (hbuf : bufsz ≤ buf.length) (h : Exact bufsz buf c) : Deliverable bufsz c := by
  intro acks body rest hf hw
  have hcut := (rspGetPacket_answered h0 hbuf hf hw).value
  have htrue := (h.answered acks (.packet body) rest hf hw).value
  exact lt_of_value (hcut.symm.trans htrue)

theorem frames_fit {inp acks rest body : List UInt8} {out : Outcome}
    (hf : Frames bufsz inp acks out rest) (hout : out = .packet body) :
    body.length ≤ bufsz - 1 := by
  induction hf with
  | eof => cases hout
  | interrupt => cases hout
  | cut => cases hout
  | accept rest hskip hbody hgood =>
    cases hout
    exact hgood.2
  | reject hskip hbody hbad hnext ih => exact ih hout

/-- With a buffer of up to 2 GiB there is no exception. -/
theorem exact_of_int (buf : List UInt8) (c : Conn) (h0 : 1 ≤ bufsz) (hint : bufsz ≤ 2 ^ 31)
    (hbuf : bufsz ≤ buf.length) : Exact bufsz buf c := by
  apply exact_of_deliverable buf c h0 hbuf
  intro acks body rest hf hw
  have hfits := frames_fit hf rfl
  omega

/-- The acceptor is exact unless the frame to be delivered is too long for an `int`. -/
theorem rspGetPacket_exact (bufsz : Nat) (buf : List UInt8) (c : Conn) (h0 : 1 ≤ bufsz)
    (hbuf : bufsz ≤ buf.length) : Exact bufsz buf c ↔ Deliverable bufsz c :=
  ⟨deliverable_of_exact buf c h0 hbuf, exact_of_deliverable buf c h0 hbuf⟩

theorem rspGetPacket_exact_short :
    Exact 4 [1, 2, 3, 4] ⟨bytes "$a#61", [], [], []⟩ ↔
      Deliverable 4 ⟨bytes "$a#61", [], [], []⟩ :=
  rspGetPacket_exact 4 [1, 2, 3, 4] ⟨bytes "$a#61", [], [], []⟩ (by decide) (by decide)

/-- A frame of `n` zero bytes. -/
def zeroFrame (n : Nat) : Conn := ⟨36 :: (List.replicate n 0 ++ [35, 48, 48]), [], [], []⟩

theorem zeroFrame_frames (n : Nat) :
    Frames (n + 1) (zeroFrame n).inp [43] (.packet (List.replicate n 0)) [] := by
  have hbody : (35 : UInt8) ∉ List.replicate n 0 := by simp
  have hgood : Acceptable (n + 1) (List.replicate n 0) 48 48 :=
    ⟨⟨0, 0, rfl, rfl, by simp [checksum]⟩, by simp⟩
  have hskip : Skipped ([] : List UInt8) := ⟨by simp, by simp⟩
  exact Frames.accept [] hskip hbody hgood

theorem zeroFrame_negative {n : Nat} (h : 2 ^ 31 ≤ n) :
    ¬ Exact (n + 1) (List.replicate (n + 1) 0) (zeroFrame n) := by
  intro hexact
  have hbuf : n + 1 ≤ (List.replicate (n + 1) (0 : UInt8)).length :=
    Nat.le_of_eq List.length_replicate.symm
  have hlt := deliverable_of_exact _ _ (Nat.le_add_left 1 n) hbuf hexact _ _ _
    (zeroFrame_frames n) (by simp [zeroFrame])
  rw [List.length_replicate] at hlt
  omega

/-- A body of `2 ^ 31` bytes fits the buffer, is acknowledged, and its length comes
back negative. -/
theorem long_frame_negative :
    ¬ Exact (2 ^ 31 + 1) (List.replicate (2 ^ 31 + 1) 0) (zeroFrame (2 ^ 31)) :=
  zeroFrame_negative (Nat.le_refl _)

end

end OpenTricore.Rsp
