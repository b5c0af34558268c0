import OpenTricore.ReplyWire

/-! The delivery of a reply. The client answers each transmission with `-` or `+`, and may
interrupt at any time with `0x03`. Any byte but `-` is taken for an acknowledgement, so an
interrupt that comes before the answer hides it.

* `rspPutPacket_answers`: how a call of `rsp_put_packet` goes on any stream;
* `reply_delivered`: the clients whose answers are all heard. -/

namespace OpenTricore.Delivery
open OpenTricore Lib

/-! ## Any stream -/

/-- The retransmissions that are asked for before any other byte. -/
def minuses (inp : List UInt8) : Nat := (inp.takeWhile (· == 45)).length

theorem minuses_minus (inp : List UInt8) : minuses (45 :: inp) = minuses inp + 1 := by
  simp [minuses]

theorem minuses_other {b : UInt8} (hb : b ≠ 45) (inp : List UInt8) : minuses (b :: inp) = 0 := by
  simp [minuses, hb]

/-- How a call ends: what it returns, what is left unread, and what was sent. -/
structure Ends (data inp : List UInt8) (c : Conn) (r : Int × Conn) : Prop where
  result : r.1 = if minuses inp < inp.length then 0 else -1
  unread : r.2.inp = inp.drop (minuses inp + 1)
  sent : r.2.out = c.out ++ frames (minuses inp + 1) data

theorem putPacketLoop_ends (data : List UInt8) (inp : List UInt8) (n : Nat) (c : Conn)
    (hinp : c.inp = inp) (hw : false ∉ c.writes) (hn : inp.length < n) :
    Ends data inp c (putPacketLoop data n c) := by
  induction inp generalizing n c with
  | nil =>
    cases n with
    | zero => cases hn
    | succ n =>
      rw [putPacketLoop, writeAll_succeeds hw]
      simp only [readByte, hinp]
      exact ⟨rfl, rfl, by simp [frames, minuses]⟩
  | cons b inp ih =>
    cases n with
    | zero => cases hn
    | succ n =>
      rw [putPacketLoop, writeAll_succeeds hw]
      simp only [readByte, hinp]
      split
      · rename_i hb
        subst hb
        obtain ⟨hresult, hunread, hsent⟩ := ih n
          (Conn.note ⟨inp, c.writes.tail, c.out ++ frame data, c.log⟩ (.resent data)) rfl
          (fun h => hw (List.mem_of_mem_tail h)) (Nat.lt_of_succ_lt_succ hn)
        refine ⟨?_, ?_, ?_⟩
        · rw [hresult, minuses_minus]
          simp
        · rw [hunread, minuses_minus, List.drop_succ_cons]
        · rw [hsent, minuses_minus]
          simp [Conn.note, frames, List.replicate_succ]
      · rename_i hb
        refine ⟨?_, ?_, ?_⟩
        · rw [minuses_other hb]
          simp
        · rw [minuses_other hb]
          rfl
        · rw [minuses_other hb]
          simp [frames]

/-- One transmission for each `-` in front of the stream, and one more. The byte behind
them ends the call. -/
theorem rspPutPacket_answers (data : List UInt8) (c : Conn) (hw : false ∉ c.writes) :
    Ends data c.inp c (rspPutPacket data c) := by
  obtain ⟨hresult, hunread, hsent⟩ :=
    putPacketLoop_ends data c.inp (c.inp.length + 1) (c.note (.sent data)) rfl hw
      (Nat.lt_succ_self _)
  exact ⟨hresult, hunread, hsent⟩

/-! ## A client that answers -/

/-- What a client sends about one reply: before each `-` some interrupts, and in the end,
unless it goes away, some interrupts, the `+` and all that it sends later. -/
structure Client where
  minus : List Nat
  plus : Option (Nat × List UInt8)

/-- An answer with the interrupts before it. -/
def answer (interrupts : Nat) (ack : UInt8) : List UInt8 := List.replicate interrupts 0x03 ++ [ack]

def Client.later (cl : Client) : List UInt8 := cl.plus.elim [] fun x => x.2

def Client.ending (cl : Client) : List UInt8 := cl.plus.elim [] fun x => answer x.1 43 ++ x.2

def Client.stream (cl : Client) : List UInt8 := cl.minus.flatMap (answer · 45) ++ cl.ending

/-- Both sides agree on the reply: it was retransmitted once for each `-`, success means
that the `+` was read, and no `-` is left to the next packet. -/
structure Delivered (data : List UInt8) (cl : Client) (c : Conn) (r : Int × Conn) : Prop where
  sent : r.2.out = c.out ++ frames (cl.minus.length + 1) data
  result : r.1 = 0 ↔ ∃ x, cl.plus = some x ∧ r.2.inp = x.2
  unread : ∃ left, r.2.inp = left ++ cl.later ∧ 45 ∉ left

/-- No interrupt comes before the last answer. -/
def Client.Prompt (cl : Client) : Prop :=
  (∀ k ∈ cl.minus, k = 0) ∧ ∀ x, cl.plus = some x → x.1 = 0

section client
variable {cl : Client}

theorem answer_zero (ack : UInt8) : answer 0 ack = [ack] := rfl

theorem answer_succ (k : Nat) (ack : UInt8) : answer (k + 1) ack = 0x03 :: answer k ack := rfl

theorem Client.minuses_ending (cl : Client) : minuses cl.ending = 0 := by
  rw [Client.ending]
  cases cl.plus with
  | none => rfl
  | some x =>
    cases hk : x.1 with
    | zero => simp [hk, answer_zero, minuses_other]
    | succ k => simp [hk, answer_succ, minuses_other]

/-- At most the answers are counted, and all of them if no interrupt comes in between. -/
theorem minuses_answers (ks : List Nat) (tail : List UInt8) (htail : minuses tail = 0) :
    minuses (ks.flatMap (answer · 45) ++ tail) = ks.length ↔ ∀ k ∈ ks, k = 0 := by
  induction ks with
  | nil => simp [htail]
  | cons k ks ih =>
    cases k with
    | zero => simp [answer_zero, minuses_minus, ih]
    | succ k => simp [answer_succ, minuses_other]

theorem answers_prompt {ks : List Nat} (h : ∀ k ∈ ks, k = 0) :
    ks.flatMap (answer · 45) = List.replicate ks.length 45 := by
  induction ks with
  | nil => rfl
  | cons k ks ih =>
    obtain ⟨rfl, hks⟩ := List.forall_mem_cons.mp h
    rw [List.flatMap_cons, ih hks, answer_zero]
    rfl

/-- The number of frames can be read off the text. -/
theorem frames_inj {data : List UInt8} {j k : Nat} (h : frames j data = frames k data) : j = k := by
  have hlen := congrArg List.length h
  simp only [frames, List.length_flatten, List.map_replicate, List.sum_replicate_nat,
    frame_length] at hlen
  exact Nat.eq_of_mul_eq_mul_right (Nat.succ_pos _) hlen

theorem Client.stream_prompt (h : ∀ k ∈ cl.minus, k = 0) :
    cl.stream = List.replicate cl.minus.length 45 ++ cl.ending := by
  rw [Client.stream, answers_prompt h]

theorem Client.minuses_prompt (h : ∀ k ∈ cl.minus, k = 0) :
    minuses cl.stream = cl.minus.length :=
  (minuses_answers cl.minus cl.ending cl.minuses_ending).mpr h

theorem Client.drop_prompt (h : ∀ k ∈ cl.minus, k = 0) :
    cl.stream.drop (cl.minus.length + 1) = cl.ending.drop 1 := by
  rw [Client.stream_prompt h, List.drop_append]
  simp

end client

/-! ## Delivery -/

section delivery
variable {data : List UInt8} {cl : Client} {c : Conn} {r : Int × Conn}

/-- The reply is delivered to a client that does not interrupt its answers. -/
theorem delivered_of_prompt (h : Ends data cl.stream c r) (hp : cl.Prompt) :
    Delivered data cl c r := by
  have hminus := Client.minuses_prompt hp.1
  have hunread : r.2.inp = cl.ending.drop 1 := by
    rw [h.unread, hminus, Client.drop_prompt hp.1]
  have hsent : r.2.out = c.out ++ frames (cl.minus.length + 1) data := by
    rw [h.sent, hminus]
  have hresult := h.result
  rw [hminus, Client.stream_prompt hp.1, List.length_append, List.length_replicate] at hresult
  cases hplus : cl.plus with
  | none =>
    simp only [Client.ending, hplus, Option.elim] at hresult hunread
    refine ⟨hsent, ?_, [], ?_, by simp⟩
    · simp [hresult, hplus]
    · simp [hunread, Client.later, hplus]
  | some x =>
    have hk := hp.2 x hplus
    simp only [Client.ending, hplus, Option.elim, hk, answer_zero] at hresult hunread
    refine ⟨hsent, ?_, [], ?_, by simp⟩
    · simp [hresult, hplus, hunread]
    · simp [hunread, Client.later, hplus]

/-- An interrupt in front of an answer is taken for it. -/
theorem prompt_of_delivered (h : Ends data cl.stream c r) (hd : Delivered data cl c r) :
    cl.Prompt := by
  have hminus : minuses cl.stream = cl.minus.length := by
    have hframes := frames_inj (List.append_cancel_left (h.sent.symm.trans hd.sent))
    exact Nat.succ.inj hframes
  have hzero : ∀ k ∈ cl.minus, k = 0 :=
    (minuses_answers cl.minus cl.ending cl.minuses_ending).mp hminus
  refine ⟨hzero, ?_⟩
  rintro ⟨k, later⟩ hplus
  cases k with
  | zero => rfl
  | succ k =>
    have hunread : r.2.inp = answer k 43 ++ later := by
      rw [h.unread, hminus, Client.drop_prompt hzero]
      simp [Client.ending, hplus, answer_succ]
    have hresult : r.1 = 0 := by
      rw [h.result, hminus, Client.stream_prompt hzero, if_pos]
      simp [Client.ending, hplus, answer_succ]
    obtain ⟨x, hx, hread⟩ := hd.result.mp hresult
    rw [hplus, Option.some.injEq] at hx
    subst hx
    have hlen := congrArg List.length (hunread.symm.trans hread)
    simp only [answer, List.length_append, List.length_replicate, List.length_singleton] at hlen
    omega

/-- Any byte but `-` ends the call, and the reply is delivered exactly to the clients that
send no interrupt between a transmission and its answer. -/
theorem reply_delivered (data : List UInt8) (cl : Client) (c : Conn) (hw : false ∉ c.writes)
    (hinp : c.inp = cl.stream) :
    Ends data cl.stream c (rspPutPacket data c) ∧
      (Delivered data cl c (rspPutPacket data c) ↔ cl.Prompt) := by
  have hends := hinp ▸ rspPutPacket_answers data c hw
  exact ⟨hends, prompt_of_delivered hends, delivered_of_prompt hends⟩

/-- One retransmission, and an interrupt after the reply. -/
theorem reply_delivered_twice :
    Delivered (bytes "OK") ⟨[0], some (0, [3])⟩ ⟨[45, 43, 3], [], [], []⟩
      (rspPutPacket (bytes "OK") ⟨[45, 43, 3], [], [], []⟩) :=
  (reply_delivered (bytes "OK") ⟨[0], some (0, [3])⟩ ⟨[45, 43, 3], [], [], []⟩ (by simp)
    rfl).2.mpr ⟨by simp, by simp⟩

/-- The client interrupts and asks for the reply again, and is not heard. -/
theorem interrupt_hides_minus :
    ¬ ∀ data cl c, false ∉ c.writes → c.inp = cl.stream →
      Delivered data cl c (rspPutPacket data c) := by
  intro h
  obtain ⟨left, hleft, hminus⟩ := (h (bytes "OK") ⟨[1], some (0, [])⟩ ⟨[3, 45, 43], [], [], []⟩
    (by simp) rfl).unread
  have hinp : [45, 43] = left ++ [] := hleft
  rw [List.append_nil] at hinp
  subst hinp
  simp at hminus

end delivery

end OpenTricore.Delivery
