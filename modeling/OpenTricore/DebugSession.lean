import OpenTricore.DebugCommands
import OpenTricore.Turns

/-! The whole stub as a debugger. `serve` runs on the byte stream of a client and on a target
whose accesses succeed, and is a refinement of the target of `Debugger`: the bytes written are
those of the transcript, and the target ends as the commands leave it (`session_refines`). -/

namespace OpenTricore.Debugger
open OpenTricore Lib Lib.Prog Delivery Registers Threads

/-! ## The session -/

/-- The loop is between two commands: `D` is what the target looks like and `inp` is what the
client still sends, after `out` was written. -/
structure Waits (s₀ : Stub) (x₀ : Chip) (D : Debuggee) (inp out : List UInt8) (s : Stub)
    (buf : List UInt8) (y : Conn × Chip) : Prop where
  room : buf.length = BUFSZ
  clear : Clear y.1
  inp : y.1.inp = inp
  out : y.1.out = out
  all : s.all = s₀.all
  ncore : s.ncore = s₀.ncore
  shows : view s y.2 = D
  untouched : Untouched s₀ x₀ y.2

/-- The target as the commands leave it: its memory, the registers that are exposed, and the
others as they were. -/
structure LeftAs (s₀ : Stub) (x₀ : Chip) (D : Debuggee) (x : Chip) : Prop where
  mem : x.mem = D.mem
  regs : (view s₀ x).regs = D.regs
  untouched : Untouched s₀ x₀ x

theorem Waits.leftAs {s₀ s : Stub} {x₀ x : Chip} {D : Debuggee} {inp out buf : List UInt8}
    {c : Conn} (h : Waits s₀ x₀ D inp out s buf (c, x)) : LeftAs s₀ x₀ D x := by
  have hshows : view s x = D := h.shows
  refine ⟨?_, ?_, h.untouched⟩
  · rw [← hshows]
    rfl
  · rw [← hshows]
    simp only [view, h.all, h.ncore]

/-- One packet is received. -/
structure Got (acks : List UInt8) (o : Rsp.Outcome) (rest : List UInt8) (c : Conn) (n : Int)
    (buf : List UInt8) (c' : Conn) : Prop where
  value : n = o.value
  stored : o.Stored buf
  room : buf.length = BUFSZ
  clear : Clear c'
  out : c'.out = c.out ++ acks
  inp : c'.inp = rest

theorem got_packet {acks rest buf : List UInt8} {o : Rsp.Outcome} {c : Conn}
    (hbuf : buf.length = BUFSZ) (hc : Clear c) (h : Rsp.Frames BUFSZ c.inp acks o rest) :
    Got acks o rest c (rspGetPacket buf BUFSZ c).1.1 (rspGetPacket buf BUFSZ c).1.2
      (rspGetPacket buf BUFSZ c).2 := by
  have hsent : false ∉ c.writes.take acks.length := fun hmem => hc (List.mem_of_mem_take hmem)
  have hanswered := Rsp.rspGetPacket_answered (by decide) (Nat.le_of_eq hbuf.symm) h hsent
  obtain ⟨-, -, -, hlen⟩ := getPacketLoop_received BUFSZ (c.inp.length + 1) buf c hbuf (by decide)
    (by decide)
  refine ⟨hanswered.value.trans ?_, hanswered.stored, hlen, getPacketLoop_clear _ _ _ _ hc,
    hanswered.acks, hanswered.rest⟩
  cases o with
  | disconnect => rfl
  | interrupt => rfl
  | packet body =>
    have hfits := Rsp.frames_fit h rfl
    simp only [BUFSZ] at hfits
    exact Rsp.value_of_lt (by omega)

/-- An accepted packet stands in front of its terminator. -/
theorem stored_eq {body buf : List UInt8} (h : (Rsp.Outcome.packet body).Stored buf) :
    buf = body ++ 0 :: buf.drop (body.length + 1) := by
  have hsplit := List.take_append_drop (body.length + 1) buf
  have htake : buf.take (body.length + 1) = body ++ [0] := h
  rw [htake, List.append_assoc] at hsplit
  exact hsplit.symm

section
variable {file : UInt32 → Bool} {s₀ : Stub} {x₀ : Chip}

/-- A command is heard, obeyed and answered, and the loop waits for the next. -/
theorem waits_next {s s' : Stub} {D : Debuggee} {inp out acks rest buf : List UInt8} {cmd : Command}
    {y y' : Conn × Chip} {c : Conn} (hw : Waits s₀ x₀ D inp out s buf y) {buf' : List UInt8}
    (hroom : buf'.length = BUFSZ) (hclear : Clear c) (hout : c.out = y.1.out ++ acks)
    (hinp : c.inp = rest) (h : Obeyed s c y.2 cmd s' y') :
    Waits s₀ x₀ (D.after cmd) (rest.drop (minuses rest + 1))
      (out ++ (acks ++ frames (minuses rest + 1) (D.answer cmd).text)) s' buf' y' := by
  obtain ⟨hresult, hunread, hsent⟩ := rspPutPacket_answers ((view s y.2).answer cmd).text c hclear
  rw [hw.shows] at hresult hunread hsent
  have hconn := h.sent
  rw [hw.shows] at hconn
  refine ⟨hroom, ?_, ?_, ?_, h.all.trans hw.all, h.ncore.trans hw.ncore, ?_, ?_⟩
  · rw [hconn]
    exact putPacketLoop_clear _ _ _ hclear
  · rw [hconn, hunread, hinp]
  · rw [hconn, hsent, hout, hw.out, hinp, List.append_assoc]
  · rw [h.done, hw.shows]
  · intro c' a hother
    have hfirst := h.untouched c' a (by rwa [hw.all, hw.ncore])
    exact hfirst.trans (hw.untouched c' a hother)

/-- One round: what was received is responded to, and the loop goes on or is left. -/
theorem wp_round {rounds polls : Nat} {s : Stub} {buf acks rest inp out : List UInt8}
    {D : Debuggee} {o : Rsp.Outcome} {c : Conn} {x : Chip} {Q : Unit → Conn × Chip → Prop}
    {X : Abort → Conn × Chip → Prop} (hw : Waits s₀ x₀ D inp out s buf (c, x))
    (hframes : Rsp.Frames BUFSZ inp acks o rest)
    (h : ∀ buf' c', Got acks o rest c o.value buf' c' →
      (Turns.respond polls s buf' o.value).wp (wired file) (fun r z => r.elim (Q () z) fun s' =>
        (serve rounds polls s' buf').wp (wired file) Q X z) X (c', x)) :
    (serve (rounds + 1) polls s buf).wp (wired file) Q X (c, x) := by
  have hinp : c.inp = inp := hw.inp
  rw [← hinp] at hframes
  have hgot := got_packet hw.room hw.clear hframes
  rw [serve, loop, Turns.serveRound_eq, bind_bind, wp_bind]
  rintro ⟨n, buf'⟩ ⟨c', x'⟩ ⟨hget, rfl⟩
  have hpair : ((n, buf'), c') = rspGetPacket buf BUFSZ c := hget
  rw [← hpair] at hgot
  obtain rfl : n = o.value := hgot.value
  rw [wp_ret, bind_bind, wp_bind]
  refine wp_mono _ ?_ (fun _ _ hX => hX) (h buf' c' hgot)
  intro r z hz
  cases r with
  | none => exact hz
  | some s' => exact hz

theorem respond_packet (polls : Nat) (s : Stub) (buf body : List UInt8) :
    Turns.respond polls s buf (Rsp.Outcome.packet body).value =
      dispatch polls s buf body.length := by
  have hvalue : (Rsp.Outcome.packet body).value = body.length := rfl
  rw [hvalue, Turns.respond, if_neg (by omega), if_neg (by omega)]

/-- The loop hears out its client, one round for each command and one for the end. -/
theorem serve_hears (hexp : Exposed file s₀.ncore s₀.all) (polls : Nat) {hs : List Heard}
    {inp closing : List UInt8} (h : Hears inp hs closing) :
    ∀ {rounds : Nat} {s : Stub} {buf : List UInt8} {D : Debuggee} {out : List UInt8} {c : Conn}
      {x : Chip}, hs.length ≤ rounds → Waits s₀ x₀ D inp out s buf (c, x) →
      (serve (rounds + 1) polls s buf).wp (wired file)
        (fun _ z => z.1.out = out ++ D.transcript hs ++ closing ∧
          LeftAs s₀ x₀ (D.run (hs.map (·.command))) z.2)
        (fun _ _ => False) (c, x) := by
  induction h with
  | closed hframes =>
    intro rounds s buf D out c x hrounds hw
    refine wp_round hw hframes fun buf' c' hgot => ⟨?_, hw.leftAs⟩
    have hout : c.out = out := hw.out
    simp [hgot.out, hout, Debuggee.transcript]
  | @detached inp acks args rest hframes =>
    intro rounds s buf D out c x hrounds hw
    refine wp_round hw hframes fun buf' c' hgot => ?_
    have hdispatch : dispatch polls s (68 :: args ++ 0 :: buf'.drop ((68 :: args).length + 1))
        (68 :: args).length = (putPacket (bytes "OK") >>= fun _ => return none) := rfl
    have hsent := (rspPutPacket_answers (bytes "OK") c' hgot.clear).sent
    have hout : c.out = out := hw.out
    rw [respond_packet, stored_eq hgot.stored, hdispatch, wp_bind]
    refine wp_putPacket_wired c' x _ ⟨?_, hw.leftAs⟩
    rw [hsent, hgot.out, hgot.inp]
    simp [hout, Debuggee.transcript]
  | @interrupt inp acks rest closing hs hframes _ ih =>
    intro rounds s buf D out c x hrounds hw
    obtain ⟨rounds, rfl⟩ := Nat.exists_eq_add_of_le' (Nat.one_le_of_lt hrounds)
    refine wp_round hw hframes fun buf' c' hgot => ?_
    -- an interrupt is answered as a `?`
    have hobeys : Obeys file s x .why (bytes "?") := obeys_why
    refine wp_mono _ ?_ (fun _ _ h => h) (hobeys polls 0 c' [])
    rintro _ ⟨c'', x'⟩ ⟨s', rfl, hobeyed⟩
    have hnext := waits_next hw hgot.room hgot.clear hgot.out hgot.inp hobeyed
    refine wp_mono _ ?_ (fun _ _ h => h) (ih (Nat.le_of_succ_le_succ hrounds) hnext)
    rintro _ z ⟨hout, hleft⟩
    refine ⟨?_, hleft⟩
    rw [hout]
    simp [Debuggee.transcript]
  | @command inp acks p rest closing cmd hs hframes hspelt _ ih =>
    intro rounds s buf D out c x hrounds hw
    obtain ⟨rounds, rfl⟩ := Nat.exists_eq_add_of_le' (Nat.one_le_of_lt hrounds)
    have hfit : p.length < BUFSZ := by
      have := Rsp.frames_fit hframes rfl
      simp only [BUFSZ] at this ⊢
      omega
    have hall : Exposed file s.ncore s.all := by
      rw [hw.all, hw.ncore]
      exact hexp
    refine wp_round hw hframes fun buf' c' hgot => ?_
    rw [respond_packet, stored_eq hgot.stored]
    refine wp_mono _ ?_ (fun _ _ h => h) (obeys_spelt hall x hspelt hfit polls _ c' _)
    rintro _ ⟨c'', x'⟩ ⟨s', rfl, hobeyed⟩
    have hroom := hgot.room
    rw [stored_eq hgot.stored] at hroom
    have hnext := waits_next hw hroom hgot.clear hgot.out hgot.inp hobeyed
    refine wp_mono _ ?_ (fun _ _ h => h) (ih (Nat.le_of_succ_le_succ hrounds) hnext)
    rintro _ z ⟨hout, hleft⟩
    refine ⟨?_, hleft⟩
    rw [hout]
    simp [Debuggee.transcript]

end

/-- What MCD enumerates for each core. No two registers have one address, the cores are
different cores, and the registers are not in the memory that is read and written. -/
structure Presented (file : UInt32 → Bool) (ncore : Nat) (target : Nat → Target)
    (groups : Nat → List (List RegInfo)) : Prop where
  distinct : ∀ k < ncore, ((groups k).flatten.map (·.addr)).Nodup
  registers : ∀ k < ncore, ∀ ri ∈ (groups k).flatten, file ri.addr.memSpaceId = true
  memory : ∀ k < ncore, file (target k).msid = false
  cores : ∀ j < ncore, ∀ k < ncore, (target j).core = (target k).core → j = k

/-- The stub as `main` sets it up, with a register map for each core. -/
def started (ncore : Nat) (target : Nat → Target) (groups : Nat → List (List RegInfo))
    (hcores : 0 < ncore ∧ ncore ≤ NCORE) : Stub :=
  .start ncore (fun k => buildRegmap (target k) (groups k)) hcores

theorem mapEntry_target (m : CoreMap) (ri : RegInfo) : (mapEntry m ri).target = m.target := by
  unfold mapEntry
  generalize List.finRange NREG = is
  induction is generalizing m with
  | nil => rfl
  | cons i is ih =>
    rw [List.foldl_cons, ih]
    split
    · rfl
    · rfl

theorem buildRegmap_target (target : Target) (groups : List (List RegInfo)) :
    (buildRegmap target groups).target = target := by
  rw [buildRegmap, ← List.foldl_flatten]
  generalize groups.flatten = ris
  suffices h : ∀ m : CoreMap, (ris.foldl mapEntry m).target = m.target from h _
  induction ris with
  | nil => exact fun m => rfl
  | cons ri ris ih =>
    intro m
    rw [List.foldl_cons, ih, mapEntry_target]

theorem Presented.exposed {file : UInt32 → Bool} {ncore : Nat} {target : Nat → Target}
    {groups : Nat → List (List RegInfo)} (h : Presented file ncore target groups) :
    Exposed file ncore fun k => buildRegmap (target k) (groups k) where
  once k hk := build_maps_once _ _ (h.distinct k hk)
  apart j hj k hk hcore := by
    simp only [buildRegmap_target] at hcore
    exact h.cores j hj k hk hcore
  regs k hk i a ha := by
    rw [buildRegmap_reg] at ha
    obtain ⟨ri, hri, rfl⟩ := Option.map_eq_some_iff.mp ha
    exact h.registers k hk ri (List.mem_of_find?_eq_some hri)
  mem k hk := by
    rw [buildRegmap_target]
    exact h.memory k hk

/-- The stub refines the target of `Debugger`. Whatever the client sends, as long as its stream
holds commands, with noise and damaged frames before each of them and `-` behind it, the stub
writes the transcript and ends, and the target is left as if each command had been done once. -/
theorem session_refines (file : UInt32 → Bool) (ncore : Nat) (target : Nat → Target)
    (groups : Nat → List (List RegInfo)) (hcores : 0 < ncore ∧ ncore ≤ NCORE)
    (hmcd : Presented file ncore target groups) (rounds polls : Nat) (buf : List UInt8)
    (hbuf : buf.length = BUFSZ) (c : Conn) (hw : false ∉ c.writes) (x : Chip) (hs : List Heard)
    (closing : List UInt8) (h : Hears c.inp hs closing) (hrounds : hs.length < rounds) :
    (serve rounds polls (started ncore target groups hcores) buf).wp (wired file)
      (fun _ y =>
        y.1.out = c.out ++ (view (started ncore target groups hcores) x).transcript hs ++ closing ∧
        LeftAs (started ncore target groups hcores) x
          ((view (started ncore target groups hcores) x).run (hs.map (·.command))) y.2)
      (fun _ _ => False) (c, x) := by
  obtain ⟨rounds, rfl⟩ := Nat.exists_eq_add_of_le' (Nat.one_le_of_lt hrounds)
  refine serve_hears hmcd.exposed polls h (Nat.le_of_lt_succ hrounds) ?_
  exact ⟨hbuf, hw, rfl, rfl, rfl, rfl, rfl, untouched_refl _ x⟩

/-! ## A short session -/

/-- A read with a wrong checksum, a write, and a read whose answer is asked for twice. -/
def shortStream : List UInt8 :=
  bytes "$m0,1#00" ++ frame (bytes "M70000000,2:aB0f") ++ bytes "+" ++
    (frame (bytes "m70000000,2") ++ bytes "-+")

def shortHeard : List Heard :=
  [⟨bytes "-+", .writeMem 0x70000000 [0xAB, 0x0F], 0⟩, ⟨bytes "+", .readMem 0x70000000 2, 1⟩]

theorem small_presented : Presented (· == 1) 1 (fun k => ⟨k, 0⟩) fun _ => smallGroups where
  distinct := by simp [smallGroups]
  registers := by
    intro k _
    decide
  memory := by simp
  cores := by
    intro j hj k hk _
    omega

theorem short_hears : Hears shortStream shortHeard [] := by
  have hbad : ¬ Rsp.Acceptable BUFSZ (bytes "m0,1") 48 48 := by
    rintro ⟨⟨d, e, hd, he, hsum⟩, -⟩
    cases hd
    cases he
    exact absurd hsum (by decide)
  have hskip : Rsp.Skipped [] := ⟨List.not_mem_nil, List.not_mem_nil⟩
  have hacks : Acks [] := fun _ hb => by cases hb
  have hframe : ∀ d rest, Clean d → d.length < BUFSZ →
      Rsp.Frames BUFSZ ([] ++ frame d ++ rest) [43] (.packet d) rest :=
    fun d rest hd hlen => frame_frames hd hacks hlen rest
  have hwrite := hframe (bytes "M70000000,2:aB0f")
    (bytes "+" ++ (frame (bytes "m70000000,2") ++ bytes "-+")) (by decide) (by decide)
  have hread := hframe (bytes "m70000000,2") (bytes "-+") (by decide) (by decide)
  have hfirst : Command.Spelt (.writeMem 0x70000000 [0xAB, 0x0F]) (bytes "M70000000,2:aB0f") :=
    ⟨bytes "70000000", bytes "2", bytes "aB0f", rfl,
      ⟨by decide, by decide +kernel, by decide⟩, ⟨by decide, by decide, by decide⟩,
      .cons (h := 10) (l := 11) rfl rfl rfl (.cons (h := 0) (l := 15) rfl rfl rfl .nil)⟩
  have hsecond : Command.Spelt (.readMem 0x70000000 2) (bytes "m70000000,2") :=
    ⟨bytes "70000000", bytes "2", rfl, ⟨by decide, by decide +kernel, by decide⟩,
      ⟨by decide, by decide, by decide⟩, by decide⟩
  have hend : Hears [] [] [] := .closed (.eof hskip)
  exact .command (.reject hskip (by decide) hbad hwrite) hfirst (.command hread hsecond hend)

theorem session_refines_short :
    (serve 3 0 (started 1 (fun k => ⟨k, 0⟩) (fun _ => smallGroups) one_core)
      (List.replicate BUFSZ 0)).wp (wired (· == 1))
      (fun _ y => y.1.out = bytes "-+$OK#9a+$ab0f#59$ab0f#59" ∧
        y.2.mem = storeRange (fun _ => 0) 0x70000000 2 fun i => [0xAB, 0x0F].getD i 0)
      (fun _ _ => False) (⟨shortStream, [], [], []⟩, ⟨fun _ => 0, fun _ _ => 0⟩) := by
  refine wp_mono _ ?_ (fun _ _ h => h) (session_refines (· == 1) 1 _ _ one_core small_presented
    3 0 _ List.length_replicate ⟨shortStream, [], [], []⟩ List.not_mem_nil
      ⟨fun _ => 0, fun _ _ => 0⟩
    shortHeard [] short_hears (by decide))
  rintro _ y ⟨hout, hleft⟩
  refine ⟨hout.trans ?_, hleft.mem⟩
  decide +kernel

end OpenTricore.Debugger
