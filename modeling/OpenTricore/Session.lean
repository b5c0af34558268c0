import OpenTricore.Handlers
import OpenTricore.MemoryAccess
import OpenTricore.FlashGuard

/-! Requests and replies. A session of the stub is run against every byte stream of
the client and every behaviour of the target, and what happens on the wire is
logged. Here each log is taken apart into exchanges: one command and its one reply,
one interrupt and its stop reply, or one bad packet.

* `wp_waitAndReport`: a resume ends with one stop reply;
* `dispatch_answered`: what each command packet leaves in the log;
* `session_exchanges`: the log of a whole session;
* `session_tied`: the bytes written are those of the log. -/

namespace OpenTricore
open Lib Lib.Prog

/-! ## The client and the target -/

/-- Packets and bytes come and go on the connection, and a poll that finds the
target running is logged. The target answers anything. -/
def session : Env StubSig Conn
  | c, .getPacket buf, r, c' => (r, c') = rspGetPacket buf BUFSZ c
  | c, .putPacket data, r, c' => (r, c') = rspPutPacket data c
  | c, .readByte, r, c' => (r, c') = readByte c
  | c, .qryState _, r, c' => c' = if r = some .running then c.note .running else c
  | c, _, _, c' => c' = c

/-! ## Exchanges -/

/-- The packet `k`. -/
def Kill (p : List UInt8) : Prop := p.getD 0 0 = 107

/-- A packet that resumes the target: `c`, `s`, or `vCont;` with an action that is
known. -/
def Resumes (p : List UInt8) : Prop :=
  p.getD 0 0 = 99 ∨ p.getD 0 0 = 115 ∨
    (strncmpEq (p ++ [0]) (bytes "vCont;") = true ∧ p.getD 6 0 ∈ [115, 83, 99, 67])

/-- The reply that names the thread that stopped. -/
def IsStop (r : List UInt8) : Prop := bytes "T05thread:" <+: r

/-- The reply `r` suits the command `p` after `n` polls of a running target: a resume
is answered by a stop reply or an error, and the target runs for resumes alone. -/
structure Suits (p : List UInt8) (n : Nat) (r : List UInt8) : Prop where
  resume : Resumes p → IsStop r ∨ r = bytes "E01"
  polled : 0 < n → Resumes p ∧ IsStop r

/-- One reply, after polls of a running target, with its retransmissions. -/
def reply (n : Nat) (r : List UInt8) (k : Nat) : List Wire :=
  List.replicate n .running ++ .sent r :: List.replicate k (.resent r)

/-- What the stub and its client exchange over one packet or interrupt. -/
inductive Exchange : List Wire → Prop
  | refused : Exchange [.refused]
  | interrupt (r : List UInt8) (k : Nat) (hr : IsStop r) : Exchange (.interrupted :: reply 0 r k)
  | command (p : List UInt8) (n : Nat) (r : List UInt8) (k : Nat) (hkill : ¬ Kill p)
      (hr : Suits p n r) : Exchange (.accepted p :: reply n r k)

/-- One exchange after the other. -/
inductive Exchanges : List Wire → Prop
  | nil : Exchanges []
  | snoc {l x : List Wire} (h : Exchanges l) (hx : Exchange x) : Exchanges (l ++ x)

/-! ## Replies -/

/-- From `c` to `c'` one reply was sent, and `P` holds of it and of the polls. -/
def OneReply (c : Conn) (P : Nat → List UInt8 → Prop) (c' : Conn) : Prop :=
  c'.inp.length ≤ c.inp.length ∧ ∃ n r k, P n r ∧ c'.log = c.log ++ reply n r k

/-- The target was polled `n` times and runs, and bytes of the client were read. -/
def Polled (n : Nat) (c c' : Conn) : Prop :=
  c'.inp.length ≤ c.inp.length ∧ c'.log = c.log ++ List.replicate n .running

theorem Polled.refl (c : Conn) : Polled 0 c c := ⟨Nat.le_refl _, (List.append_nil _).symm⟩

theorem Polled.oneReply {n : Nat} {c c' c'' : Conn} (h : Polled n c c') {P : List UInt8 → Prop}
    (h' : OneReply c' (fun m r => m = 0 ∧ P r) c'') {Q : Nat → List UInt8 → Prop}
    (hQ : ∀ r, P r → Q n r) : OneReply c Q c'' := by
  obtain ⟨hinp, m, r, k, ⟨rfl, hr⟩, hlog⟩ := h'
  refine ⟨Nat.le_trans hinp h.1, n, r, k, hQ r hr, ?_⟩
  rw [hlog, h.2, List.append_assoc]
  rfl

theorem OneReply.mono {c c' : Conn} {P Q : Nat → List UInt8 → Prop} (h : OneReply c P c')
    (hPQ : ∀ n r, P n r → Q n r) : OneReply c Q c' := by
  obtain ⟨hinp, n, r, k, hP, hlog⟩ := h
  exact ⟨hinp, n, r, k, hPQ n r hP, hlog⟩

section replies
variable {X : Abort → Conn → Prop}

theorem wp_putPacket_session {Q : Unit → Conn → Prop} (data : List UInt8) (c : Conn)
    (h : ∀ c', OneReply c (fun n r => n = 0 ∧ r = data) c' → Q () c') :
    (putPacket data).wp session Q X c := by
  simp only [putPacket, wp_bind]
  rintro r c' hput
  obtain ⟨k, hk⟩ := rspPutPacket_log data c
  have hinp := putPacketLoop_inp data (c.inp.length + 1) (c.note (.sent data))
  have hc' : c' = (rspPutPacket data c).2 := congrArg Prod.snd hput
  refine h c' ⟨?_, 0, data, k, ⟨rfl, rfl⟩, ?_⟩
  · rw [hc']
    exact hinp
  · rw [hc', hk]
    rfl

/-- Whatever the access layer does, nothing happens on the wire. -/
theorem wp_onBus_session {α : Type} {XB : Abort → Prop} {p : Bus α} (hp : p.FailsIn XB) (c : Conn) :
    (onBus p).wp session (fun _ c' => c' = c) (fun e c' => XB e ∧ c' = c) c := by
  refine wp_mono _ ?_ ?_ (wp_onBus (fun _ c' => c' = c) ?_ rfl hp)
  · rintro a c' ⟨_, hc, -⟩
    exact hc
  · rintro e c' ⟨_, hc, he⟩
    exact ⟨he, hc⟩
  · rintro s c' o r c'' rfl h
    exact ⟨(), trivial, h⟩

theorem wp_pollInterrupt (s : Stub) (c : Conn) :
    (pollInterrupt s).wp session (fun _ c' => Polled 0 c c') X c := by
  simp only [pollInterrupt, wp_bind]
  rintro ready c rfl
  cases ready with
  | false => exact .refl c
  | true =>
    simp only [wp_ret, ↓reduceIte, wp_bind]
    intro b c' hread
    have hpair : readByte c = (b, c') := hread.symm
    have hpolled : Polled 0 c c' := by
      refine ⟨readByte_inp hpair, ?_⟩
      rw [readByte_log hpair]
      exact (List.append_nil _).symm
    cases b with
    | none => exact hpolled
    | some b =>
      simp only [wp_ret]
      split
      · rintro ok _ rfl
        exact hpolled
      · exact hpolled

/-- Waiting ends after some polls of a running target, or goes on through them all. -/
theorem wp_waitLoop (s : Stub) (polls : Nat) (c : Conn) :
    (Prog.loop .unfinished (fun (_ : Unit) => do
      match ← mcdQryState s.active.target.core with
      | some .running => do
        pollInterrupt s
        return .inl ()
      | _ => return (.inr () : Unit ⊕ Unit)) polls ()).wp session
      (fun _ c' => ∃ n, Polled n c c') (fun e c' => e = .unfinished ∧ Polled polls c c') c := by
  induction polls generalizing c with
  | zero => exact ⟨rfl, .refl c⟩
  | succ polls ih =>
    simp only [Prog.loop, wp_bind]
    rintro r _ rfl
    cases r with
    | none => exact ⟨0, .refl c⟩
    | some st =>
      cases st with
      | other => exact ⟨0, .refl c⟩
      | running =>
        simp only [wp_ret, wp_bind]
        refine wp_mono _ ?_ (fun _ _ h => h) (wp_pollInterrupt s _)
        intro _ c' h
        -- one poll, then the rest
        have hone : ∀ n c'', Polled n c' c'' → Polled (n + 1) c c'' := by
          intro n c'' h'
          refine ⟨Nat.le_trans h'.1 h.1, ?_⟩
          rw [h'.2, h.2]
          simp [Conn.note, List.replicate_succ]
        simp only [pure_eq, wp_ret]
        refine wp_mono _ ?_ ?_ (ih c')
        · rintro _ c'' ⟨n, h'⟩
          exact ⟨n + 1, hone n c'' h'⟩
        · rintro e c'' ⟨rfl, h'⟩
          exact ⟨rfl, hone polls c'' h'⟩

/-- A resume: an error, or one stop reply once the target has halted. -/
def Resumed (c : Conn) (c' : Conn) : Prop :=
  OneReply c (fun n r => IsStop r ∨ (n = 0 ∧ r = bytes "E01")) c'

theorem wp_reportStop {Q : Unit → Conn → Prop} (s : Stub) (c : Conn)
    (h : ∀ c', OneReply c (fun n r => n = 0 ∧ IsStop r) c' → Q () c') :
    (reportStop s).wp session Q X c := by
  refine wp_putPacket_session _ c fun c' hc' => h c' (hc'.mono ?_)
  rintro n r ⟨hn, rfl⟩
  refine ⟨hn, ?_⟩
  rw [stopReply, List.append_assoc]
  exact List.prefix_append _ _

theorem wp_waitAndReport (polls : Nat) (s : Stub) (c : Conn) :
    (waitAndReport polls s).wp session (fun _ c' => Resumed c c')
      (fun e c' => e = .unfinished ∧ Polled polls c c') c := by
  rw [waitAndReport, wp_bind]
  refine wp_mono _ ?_ (fun _ _ h => h) (wp_waitLoop s polls c)
  rintro _ c' ⟨n, hpolled⟩
  exact wp_reportStop s c' fun c'' h => hpolled.oneReply h fun r hr => .inl hr

theorem wp_resume (ask : StubProg Bool) (polls : Nat) (s : Stub) (c : Conn)
    (hask : ask.wp session (fun _ c' => c' = c) (fun _ _ => False) c) :
    (ask >>= fun ok => if ok then waitAndReport polls s else putPacket (bytes "E01")).wp session
      (fun _ c' => Resumed c c') (fun e c' => e = .unfinished ∧ Polled polls c c') c := by
  rw [wp_bind]
  refine wp_mono _ ?_ (fun _ _ h => h.elim) hask
  rintro ok _ rfl
  cases ok with
  | true => exact wp_waitAndReport polls s _
  | false => exact wp_putPacket_session _ _ fun c' h => h.mono fun n r hr => .inr hr

theorem wp_doContinue (polls : Nat) (s : Stub) (c : Conn) :
    (doContinue polls s).wp session (fun _ c' => Resumed c c')
      (fun e c' => e = .unfinished ∧ Polled polls c c') c :=
  wp_resume _ polls s c fun _ _ h => h

theorem wp_doStep (polls : Nat) (s : Stub) (c : Conn) :
    (doStep polls s).wp session (fun _ c' => Resumed c c')
      (fun e c' => e = .unfinished ∧ Polled polls c c') c :=
  wp_resume _ polls s c fun _ _ h => h

end replies

/-! ## Handlers that do not resume -/

/-- One reply at once, whatever it says. -/
abbrev Prompt (c c' : Conn) : Prop := OneReply c (fun n _ => n = 0) c'

section handlers
variable {X : Abort → Conn → Prop}

theorem wp_putPacket_prompt {Q : Unit → Conn → Prop} (data : List UInt8) (c : Conn)
    (h : ∀ c', Prompt c c' → Q () c') : (putPacket data).wp session Q X c :=
  wp_putPacket_session data c fun c' hc' => h c' (hc'.mono fun _ _ hr => hr.1)

theorem wp_handle_q (s : Stub) (p : List UInt8) (c : Conn) :
    (handle_q s p).wp session (fun _ c' => Prompt c c') X c := by
  have hput : ∀ data, (putPacket data).wp session (fun _ c' => Prompt c c') X c :=
    fun data => wp_putPacket_prompt data c fun _ h => h
  unfold handle_q
  split
  · exact hput _
  · split
    · split <;> exact hput _
    · repeat' split
      all_goals exact hput _

theorem wp_getReg (s : Stub) (a : McdAddr) (c : Conn) :
    (getReg s a).wp session (fun _ c' => c' = c) X c := by
  unfold getReg
  rintro v c rfl
  cases v <;> rfl

theorem wp_regTexts (s : Stub) (is : List (Fin NREG)) (c : Conn) :
    (regTexts s is).wp session (fun _ c' => c' = c) X c := by
  induction is with
  | nil => rfl
  | cons i is ih =>
    have htext : (regText s i).wp session (fun _ c' => c' = c) X c := by
      unfold regText
      split
      · rw [wp_bind]
        exact wp_mono _ (fun _ _ h => h) (fun _ _ h => h) (wp_getReg s _ c)
      · rfl
    simp only [regTexts, wp_bind]
    refine wp_mono _ ?_ (fun _ _ h => h) htext
    rintro text _ rfl
    rw [wp_bind]
    exact wp_mono _ (fun _ _ h => h) (fun _ _ h => h) ih

theorem wp_handle_g (s : Stub) (c : Conn) :
    (handle_g s).wp session (fun _ c' => Prompt c c') X c := by
  rw [handle_g, wp_bind]
  refine wp_mono _ ?_ (fun _ _ h => h) (wp_regTexts s regIndices c)
  rintro text _ rfl
  exact wp_putPacket_prompt text _ fun _ h => h

/-- A fatal error of the MCD library ends the stub. -/
abbrev Dies (c : Conn) (e : Abort) (c' : Conn) : Prop := (∃ what, e = .die what) ∧ c' = c

theorem wp_setReg (s : Stub) (a : McdAddr) (v : UInt32) (c : Conn) :
    (setReg s a v).wp session (fun _ c' => c' = c) (Dies c) c := by
  unfold setReg
  rintro ok c rfl
  cases ok with
  | true => rfl
  | false => exact ⟨⟨_, rfl⟩, rfl⟩

theorem wp_setRegs (s : Stub) (p : List UInt8) (is : List (Fin NREG)) (c : Conn) :
    (setRegs s p is).wp session (fun _ c' => c' = c) (Dies c) c := by
  induction is with
  | nil => rfl
  | cons i is ih =>
    simp only [setRegs]
    split
    · rw [wp_bind]
      refine wp_mono _ ?_ (fun _ _ h => h) (wp_setReg s _ _ c)
      rintro _ _ rfl
      exact ih
    · exact ih

theorem wp_handle_G (s : Stub) (p : List UInt8) (c : Conn) :
    (handle_G s p).wp session (fun _ c' => Prompt c c') (Dies c) c := by
  unfold handle_G
  split
  · exact wp_putPacket_prompt _ c fun _ h => h
  · rw [wp_bind]
    refine wp_mono _ ?_ (fun _ _ h => h) (wp_setRegs s p regIndices c)
    rintro _ _ rfl
    exact wp_putPacket_prompt _ _ fun _ h => h

theorem wp_handle_p (s : Stub) (p : List UInt8) (c : Conn) :
    (handle_p s p).wp session (fun _ c' => Prompt c c') X c := by
  unfold handle_p
  split
  · rw [wp_bind]
    refine wp_mono _ ?_ (fun _ _ h => h) (wp_getReg s _ c)
    rintro v _ rfl
    exact wp_putPacket_prompt _ _ fun _ h => h
  · exact wp_putPacket_prompt _ c fun _ h => h

theorem wp_handle_P (s : Stub) (p : List UInt8) (c : Conn) :
    (handle_P s p).wp session (fun _ c' => Prompt c c') (Dies c) c := by
  unfold handle_P
  split
  · exact wp_putPacket_prompt _ c fun _ h => h
  · split
    · rw [wp_bind]
      refine wp_mono _ ?_ (fun _ _ h => h) (wp_setReg s _ _ c)
      rintro _ _ rfl
      exact wp_putPacket_prompt _ _ fun _ h => h
    · exact wp_putPacket_prompt _ c fun _ h => h

theorem wp_handle_m (s : Stub) (p : List UInt8) (c : Conn) :
    (handle_m s p).wp session (fun _ c' => Prompt c c') (fun _ _ => False) c := by
  unfold handle_m
  dsimp only
  split
  · exact wp_putPacket_prompt _ c fun _ h => h
  · rw [wp_bind]
    rintro garbage _ rfl
    rw [wp_ret, wp_bind]
    refine wp_mono _ ?_ (fun _ _ h => h.1) (wp_onBus_session (tcmcdRead_returns _ _ _ _) _)
    rintro ⟨rc, mb⟩ _ rfl
    exact wp_putPacket_prompt _ _ fun _ h => h

theorem wp_handle_M (s : Stub) (p : List UInt8) (c : Conn) :
    (handle_M s p).wp session (fun _ c' => Prompt c c') (fun _ _ => False) c := by
  unfold handle_M
  split
  · dsimp only
    split
    · exact wp_putPacket_prompt _ c fun _ h => h
    · rw [wp_bind]
      refine wp_mono _ ?_ (fun _ _ h => h.1) (wp_onBus_session (tcmcdWrite_returns _ _ _ _) c)
      rintro rc _ rfl
      exact wp_putPacket_prompt _ _ fun _ h => h
  · exact wp_putPacket_prompt _ c fun _ h => h

theorem wp_trigSet_session (s : Stub) (addr : UInt64) (gtype : Int) (range : UInt32) (c : Conn) :
    (trigSet s addr gtype range).wp session (fun _ c' => c' = c) X c := by
  unfold trigSet
  split
  · rfl
  · split
    · rfl
    · rw [wp_bind]
      rintro id _ rfl
      cases id with
      | none => rfl
      | some id =>
        rw [wp_ret, wp_bind]
        rintro ok _ rfl
        rw [wp_ret]
        split <;> rfl

theorem wp_handle_Z (s : Stub) (p : List UInt8) (c : Conn) :
    (handle_Z s p).wp session (fun _ c' => Prompt c c') X c := by
  unfold handle_Z
  dsimp only
  split
  · rw [wp_bind]
    exact wp_putPacket_prompt _ c fun _ h => h
  · split
    · rw [wp_bind]
      exact wp_putPacket_prompt _ c fun _ h => h
    · rw [wp_bind]
      refine wp_mono _ ?_ (fun _ _ h => h) (wp_trigSet_session s _ _ _ c)
      rintro ⟨rc, s'⟩ _ rfl
      rw [wp_bind]
      exact wp_putPacket_prompt _ _ fun _ h => h

theorem wp_trigClear_session (s : Stub) (addr : UInt64) (gtype : Int) (c : Conn) :
    (trigClear s addr gtype).wp session (fun _ c' => c' = c) X c := by
  unfold trigClear
  split
  · rfl
  · rw [wp_bind]
    rintro ok _ rfl
    rw [wp_ret, wp_bind]
    rintro ok _ rfl
    rfl

theorem wp_handle_z (s : Stub) (p : List UInt8) (c : Conn) :
    (handle_z s p).wp session (fun _ c' => Prompt c c') X c := by
  unfold handle_z
  dsimp only
  split
  · rw [wp_bind]
    exact wp_putPacket_prompt _ c fun _ h => h
  · split
    · rw [wp_bind]
      exact wp_putPacket_prompt _ c fun _ h => h
    · rw [wp_bind]
      refine wp_mono _ ?_ (fun _ _ h => h) (wp_trigClear_session s _ _ c)
      rintro s' _ rfl
      rw [wp_bind]
      exact wp_putPacket_prompt _ _ fun _ h => h

theorem wp_handle_H (s : Stub) (p : List UInt8) (c : Conn) :
    (handle_H s p).wp session (fun _ c' => Prompt c c') X c := by
  unfold handle_H
  dsimp only
  rw [wp_bind]
  exact wp_putPacket_prompt _ c fun _ h => h

end handlers

/-! ## Commands -/

/-- The commands that can loop for ever, over a size that overflows. -/
def FlashCommand (p : List UInt8) : Prop :=
  strncmpEq (p ++ [0]) (bytes "vFlashWrite:") = true ∨
    strcmpEq (p ++ [0]) (bytes "vFlashDone") = true

/-- How a command can end without a reply: by a fatal error of the MCD library, by a
flash command that loops, or because the target ran at every poll. -/
def Stuck (polls : Nat) (p : List UInt8) (c : Conn) (e : Abort) (c' : Conn) : Prop :=
  match e with
  | .die _ => c' = c
  | .hang => FlashCommand p ∧ c' = c
  | .unfinished => Resumes p ∧ Polled polls c c'

section commands
variable {polls : Nat} {p : List UInt8} {c : Conn}

theorem Dies.stuck {e : Abort} {c' : Conn} (h : Dies c e c') : Stuck polls p c e c' := by
  obtain ⟨⟨what, rfl⟩, rfl⟩ := h
  rfl

theorem OneReply.suits_prompt {c' : Conn} (h : Prompt c c') (hp : ¬ Resumes p) :
    OneReply c (Suits p) c' := by
  refine h.mono fun n r hn => ⟨fun hr => absurd hr hp, fun hpos => ?_⟩
  rw [hn] at hpos
  cases hpos

theorem Resumed.suits {c' : Conn} (h : Resumed c c') (hp : Resumes p) :
    OneReply c (Suits p) c' := by
  refine h.mono fun n r hr => ⟨fun _ => hr.imp_right And.right, fun hpos => ⟨hp, ?_⟩⟩
  rcases hr with hr | ⟨rfl, -⟩
  · exact hr
  · cases hpos

theorem resumes_letter (h : Resumes p) : p.getD 0 0 = 99 ∨ p.getD 0 0 = 115 ∨ p.getD 0 0 = 118 := by
  rcases h with h | h | ⟨h, -⟩
  · exact .inl h
  · exact .inr (.inl h)
  · have hv := strncmpEq_getD h 0 (by decide)
    rw [getD_local p [] 0 (Nat.zero_le _)] at hv
    exact .inr (.inr hv)

/-- Of the packets `v` only `vCont;` resumes. -/
theorem Resumes.vCont (h : Resumes p) (hv : p.getD 0 0 = 118) :
    strncmpEq (p ++ [0]) (bytes "vCont;") = true ∧ p.getD 6 0 ∈ [115, 83, 99, 67] := by
  rcases h with h | h | h
  · rw [hv] at h
    cases h
  · rw [hv] at h
    cases h
  · exact h

/-- A text that is something else does not start with `vCont;`. -/
theorem not_resumes_of_differs {stale lit : List UInt8} (hv : p.getD 0 0 = 118)
    (h : strncmpEq (p ++ 0 :: stale) lit = true) (i : Nat) (hi : i < lit.length)
    (hi' : i < (bytes "vCont;").length) (hne : lit.getD i 0 ≠ (bytes "vCont;").getD i 0) :
    ¬ Resumes p := by
  intro hr
  have hcont := (hr.vCont hv).1
  rw [← strncmpEq_local (bytes "vCont;") (by decide) p stale] at hcont
  exact hne ((strncmpEq_getD h i hi).symm.trans (strncmpEq_getD hcont i hi'))

theorem flashDone_failsIn (t : Target) (b : FlashBuf) : (flashDone t b).FailsIn (· = .hang) := by
  unfold flashDone
  split
  · exact failsIn_ret _
  · exact FailsIn.bind (tcmcdFlashProgram_failsIn _ _ _ _) fun rc => failsIn_ret _

theorem wp_vCont (s : Stub) (stale : List UInt8) (hv : p.getD 0 0 = 118)
    (h : strncmpEq (p ++ 0 :: stale) (bytes "vCont;") = true) :
    (vCont polls s (p ++ 0 :: stale)).wp session (fun _ c' => OneReply c (Suits p) c')
      (Stuck polls p c) c := by
  have hlen := strncmpEq_length (bytes "vCont;") (by decide) p stale h
  have hletter : (p ++ 0 :: stale).getD 6 0 = p.getD 6 0 := getD_local p stale 6 hlen
  rw [strncmpEq_local (bytes "vCont;") (by decide) p stale] at h
  simp only [vCont, hletter]
  split
  · rename_i ha
    have hp : Resumes p := .inr (.inr ⟨h, by rcases ha with ha | ha <;> rw [ha] <;> decide⟩)
    refine wp_mono _ (fun _ _ h => h.suits hp) ?_ (wp_doStep polls s c)
    rintro e c' ⟨rfl, hpolled⟩
    exact ⟨hp, hpolled⟩
  · split
    · rename_i ha
      have hp : Resumes p := .inr (.inr ⟨h, by rcases ha with ha | ha <;> rw [ha] <;> decide⟩)
      refine wp_mono _ (fun _ _ h => h.suits hp) ?_ (wp_doContinue polls s c)
      rintro e c' ⟨rfl, hpolled⟩
      exact ⟨hp, hpolled⟩
    · rename_i hstep hcont
      have hp : ¬ Resumes p := by
        intro hr
        have haction := (hr.vCont hv).2
        simp only [List.mem_cons, List.not_mem_nil, or_false] at haction
        simp only [not_or] at hstep hcont
        rcases haction with ha | ha | ha | ha
        · exact hstep.1 ha
        · exact hstep.2 ha
        · exact hcont.1 ha
        · exact hcont.2 ha
      exact wp_putPacket_prompt _ c fun _ h => h.suits_prompt hp

theorem wp_handle_v (s : Stub) (stale : List UInt8) (hv : p.getD 0 0 = 118) :
    (handle_v polls s (p ++ 0 :: stale) p.length).wp session (fun _ c' => OneReply c (Suits p) c')
      (Stuck polls p c) c := by
  unfold handle_v
  split
  · rename_i h
    have hp := not_resumes_of_differs hv h 1 (by decide) (by decide) (by decide)
    rw [wp_bind]
    exact wp_putPacket_prompt _ c fun _ h => h.suits_prompt hp
  split
  · rename_i h
    have hp := not_resumes_of_differs hv h 5 (by decide) (by decide) (by decide)
    rw [wp_bind]
    exact wp_putPacket_prompt _ c fun _ h => h.suits_prompt hp
  split
  · rename_i h
    rw [wp_bind]
    exact wp_mono _ (fun _ _ h => h) (fun _ _ h => h) (wp_vCont s stale hv h)
  -- what is left is not `vCont;`
  rename_i hcont
  rw [strncmpEq_local (bytes "vCont;") (by decide) p stale] at hcont
  have hp : ¬ Resumes p := fun hr => hcont (hr.vCont hv).1
  split
  · rw [vFlashErase, wp_bind, wp_bind]
    refine wp_mono _ ?_ (fun _ _ h => h.1.elim)
      (wp_onBus_session (tcmcdFlashErase_returns _ _ _) c)
    rintro rc _ rfl
    exact wp_putPacket_prompt _ _ fun _ h => h.suits_prompt hp
  split
  · rename_i h
    rw [strncmpEq_local (bytes "vFlashWrite:") (by decide) p stale] at h
    unfold vFlashWrite
    split
    · exact ⟨.inl h, rfl⟩
    · rw [wp_bind]
      exact wp_putPacket_prompt _ c fun _ h => h.suits_prompt hp
  split
  · rename_i h
    rw [strcmpEq_local (bytes "vFlashDone") (by decide) p stale] at h
    rw [vFlashDone, wp_bind]
    refine wp_mono _ ?_ ?_ (wp_onBus_session (flashDone_failsIn _ _) c)
    · rintro ⟨rc, b⟩ _ rfl
      rw [wp_bind]
      exact wp_putPacket_prompt _ _ fun _ h => h.suits_prompt hp
    · rintro e _ ⟨rfl, rfl⟩
      exact ⟨.inr h, rfl⟩
  · rw [wp_bind]
    exact wp_putPacket_prompt _ c fun _ h => h.suits_prompt hp

/-- A handler that replies at once to a packet that is no resume. -/
theorem wp_prompt_then {α : Type} {h : StubProg α} {X : Abort → Conn → Prop}
    (hh : h.wp session (fun _ c' => Prompt c c') X c)
    (hX : ∀ e c', X e c' → Stuck polls p c e c') (hp : ¬ Resumes p ∧ ¬ Kill p)
    (f : α → Option Stub) :
    (h >>= fun a => (return f a : StubProg (Option Stub))).wp session
      (fun r c' => (Kill p ∧ r = none ∧ c' = c) ∨ (¬ Kill p ∧ OneReply c (Suits p) c'))
      (Stuck polls p c) c := by
  rw [wp_bind]
  exact wp_mono _ (fun _ _ h => .inr ⟨hp.2, h.suits_prompt hp.1⟩) hX hh

/-- A handler that resumes the target. -/
theorem wp_resume_then {h : StubProg Unit}
    (hh : h.wp session (fun _ c' => Resumed c c')
      (fun e c' => e = .unfinished ∧ Polled polls c c') c) (hp : Resumes p) (r : Option Stub) :
    (h >>= fun _ => (return r : StubProg (Option Stub))).wp session
      (fun r c' => (Kill p ∧ r = none ∧ c' = c) ∨ (¬ Kill p ∧ OneReply c (Suits p) c'))
      (Stuck polls p c) c := by
  have hkill : ¬ Kill p := by
    intro hk
    rcases resumes_letter hp with h | h | h
    · exact absurd (h.symm.trans hk) (by decide)
    · exact absurd (h.symm.trans hk) (by decide)
    · exact absurd (h.symm.trans hk) (by decide)
  rw [wp_bind]
  refine wp_mono _ (fun _ _ hr => .inr ⟨hkill, hr.suits hp⟩) ?_ hh
  rintro e c' ⟨rfl, hpolled⟩
  exact ⟨hp, hpolled⟩

/-- What a command packet leaves in the log: nothing for `k`, and for every other one
reply that suits it. -/
theorem dispatch_answered (s : Stub) (stale : List UInt8) :
    (dispatch polls s (p ++ 0 :: stale) p.length).wp session
      (fun r c' => (Kill p ∧ r = none ∧ c' = c) ∨ (¬ Kill p ∧ OneReply c (Suits p) c'))
      (Stuck polls p c) c := by
  have hletter : (p ++ 0 :: stale).getD 0 0 = p.getD 0 0 := getD_local p stale 0 (Nat.zero_le _)
  have hput : ∀ data, (putPacket data).wp session (fun _ c' => Prompt c c') (fun _ _ => False) c :=
    fun data => wp_putPacket_prompt data c fun _ h => h
  -- a packet with another letter is neither a resume nor a kill
  have hplain : ∀ b, p.getD 0 0 = b → b ∉ ([99, 107, 115, 118] : List UInt8) →
      ¬ Resumes p ∧ ¬ Kill p := by
    rintro _ rfl hb
    simp only [List.mem_cons, List.not_mem_nil, or_false, not_or] at hb
    refine ⟨fun hr => ?_, hb.2.1⟩
    rcases resumes_letter hr with h | h | h
    · exact hb.1 h
    · exact hb.2.2.1 h
    · exact hb.2.2.2 h
  have hno : ∀ e c', (fun (_ : Abort) (_ : Conn) => False) e c' → Stuck polls p c e c' :=
    fun _ _ h => h.elim
  have hdies : ∀ e c', Dies c e c' → Stuck polls p c e c' := fun _ _ h => h.stuck
  have hstop : (reportStop s).wp session (fun _ c' => Prompt c c') (fun _ _ => False) c :=
    wp_reportStop s c fun _ h => h.mono fun _ _ hr => hr.1
  unfold dispatch
  dsimp only
  rw [hletter]
  refine wp_ite _ (fun h => ?_) fun _ => ?_
  · exact wp_prompt_then hstop hno (hplain _ h (by decide)) _
  refine wp_ite _ (fun h => ?_) fun _ => ?_
  · exact wp_prompt_then (wp_handle_g s c) hno (hplain _ h (by decide)) _
  refine wp_ite _ (fun h => ?_) fun _ => ?_
  · exact wp_prompt_then (wp_handle_G s _ c) hdies (hplain _ h (by decide)) _
  refine wp_ite _ (fun h => ?_) fun _ => ?_
  · exact wp_prompt_then (wp_handle_p s _ c) hno (hplain _ h (by decide)) _
  refine wp_ite _ (fun h => ?_) fun _ => ?_
  · exact wp_prompt_then (wp_handle_P s _ c) hdies (hplain _ h (by decide)) _
  refine wp_ite _ (fun h => ?_) fun _ => ?_
  · exact wp_prompt_then (wp_handle_m s _ c) hno (hplain _ h (by decide)) _
  refine wp_ite _ (fun h => ?_) fun _ => ?_
  · exact wp_prompt_then (wp_handle_M s _ c) hno (hplain _ h (by decide)) _
  refine wp_ite _ (fun h => ?_) fun _ => ?_
  · exact wp_prompt_then (wp_handle_q s _ c) hno (hplain _ h (by decide)) _
  refine wp_ite _ (fun h => ?_) fun hv => ?_
  · have hnot : ¬ Kill p := fun hk => absurd (h.symm.trans hk) (by decide)
    rw [wp_bind]
    exact wp_mono _ (fun _ _ hr => .inr ⟨hnot, hr⟩) (fun _ _ h => h) (wp_handle_v s stale h)
  refine wp_ite _ (fun h => ?_) fun _ => ?_
  · exact wp_prompt_then (wp_handle_Z s _ c) hno (hplain _ h (by decide)) _
  refine wp_ite _ (fun h => ?_) fun _ => ?_
  · exact wp_prompt_then (wp_handle_z s _ c) hno (hplain _ h (by decide)) _
  refine wp_ite _ (fun h => ?_) fun _ => ?_
  · exact wp_prompt_then (wp_handle_H s _ c) hno (hplain _ h (by decide)) _
  refine wp_ite _ (fun h => ?_) fun _ => ?_
  · exact wp_prompt_then (hput _) hno (hplain _ h (by decide)) _
  refine wp_ite _ (fun h => ?_) fun hc => ?_
  · exact wp_resume_then (wp_doContinue polls s c) (.inl h) _
  refine wp_ite _ (fun h => ?_) fun hs => ?_
  · exact wp_resume_then (wp_doStep polls s c) (.inr (.inl h)) _
  refine wp_ite _ (fun h => ?_) fun _ => ?_
  · exact wp_prompt_then (hput _) hno (hplain _ h (by decide)) _
  refine wp_ite _ (fun h => ?_) fun hk => ?_
  · exact .inl ⟨h, rfl, rfl⟩
  refine wp_prompt_then (hput _) hno (hplain _ rfl ?_) _
  simp only [List.mem_cons, List.not_mem_nil, or_false, not_or]
  exact ⟨hc, hk, hs, hv⟩

end commands

/-! ## Sessions -/

theorem Received.exchanges {n : Int} {buf : List UInt8} {l x : List Wire} (h : Received n buf l)
    (hx : Exchanges x) : ∃ x', Exchanges x' ∧
      ((n = -1 ∧ x ++ l = x') ∨ (n = -2 ∧ x ++ l = x' ++ [.interrupted]) ∨
        ∃ payload stale, n = payload.length ∧ buf = payload ++ 0 :: stale ∧
          x ++ l = x' ++ [.accepted payload]) := by
  induction h generalizing x with
  | disconnect buf => exact ⟨x, hx, .inl ⟨rfl, List.append_nil x⟩⟩
  | interrupt buf => exact ⟨x, hx, .inr (.inl ⟨rfl, rfl⟩)⟩
  | packet payload stale hash => exact ⟨x, hx, .inr (.inr ⟨payload, stale, rfl, rfl, rfl⟩)⟩
  | again h ih =>
    obtain ⟨x', hx', hl⟩ := ih (hx.snoc .refused)
    refine ⟨x', hx', ?_⟩
    rw [List.append_assoc] at hl
    exact hl

/-- How a session can end: after whole exchanges, or with a `k`. -/
def Finished (c : Conn) : Prop :=
  ∃ x, Exchanges x ∧ (c.log = x ∨ ∃ p, Kill p ∧ c.log = x ++ [.accepted p])

/-- How a session can be cut off: inside the last command. -/
def CutOff (polls : Nat) (e : Abort) (c : Conn) : Prop :=
  ∃ x p, Exchanges x ∧ match e with
    | .die _ => c.log = x ++ [.accepted p]
    | .hang => FlashCommand p ∧ c.log = x ++ [.accepted p]
    | .unfinished => Resumes p ∧ c.log = x ++ .accepted p :: List.replicate polls .running

theorem wp_serveRound (polls : Nat) (s : Stub) (buf : List UInt8) (hbuf : buf.length = BUFSZ)
    (c : Conn) (hlog : Exchanges c.log) :
    (serveRound polls (s, buf)).wp session (fun x c' => match x with
      | .inl y => (y.2.length = BUFSZ ∧ Exchanges c'.log) ∧ c'.inp.length < c.inp.length
      | .inr _ => Finished c') (CutOff polls) c := by
  unfold serveRound
  dsimp only
  rw [wp_bind]
  rintro ⟨n, buf'⟩ c' hget
  obtain ⟨l, hl, hreceived, hsize⟩ := rspGetPacket_received BUFSZ buf c hbuf (by decide) (by decide)
  have hinp := (getPacketLoop_inp BUFSZ (c.inp.length + 1) buf c).2
  have hpair : rspGetPacket buf BUFSZ c = ((n, buf'), c') := hget.symm
  rw [hpair] at hl hreceived hsize
  rw [rspGetPacket] at hpair
  rw [hpair] at hinp
  obtain ⟨x, hx, hcases⟩ := hreceived.exchanges hlog
  rw [← hl] at hcases
  rw [wp_ret]
  dsimp only
  rcases hcases with ⟨rfl, hlog'⟩ | ⟨rfl, hlog'⟩ | ⟨p, stale, rfl, rfl, hlog'⟩
  · rw [if_pos rfl]
    exact ⟨x, hx, .inl hlog'⟩
  · rw [if_neg (by decide), if_pos rfl, wp_bind]
    refine wp_reportStop s c' ?_
    rintro c'' ⟨hinp', n, r, k, ⟨rfl, hr⟩, hlog''⟩
    refine ⟨⟨hsize, ?_⟩, Nat.lt_of_le_of_lt hinp' (hinp (by simp))⟩
    have hsnoc := hx.snoc (.interrupt r k hr)
    rw [hlog'', hlog', List.append_assoc]
    exact hsnoc
  · rw [if_neg (by omega), if_neg (by omega), wp_bind]
    refine wp_mono _ ?_ ?_ (dispatch_answered (p := p) (c := c') s stale)
    · rintro r c'' (⟨hk, rfl, rfl⟩ | ⟨hk, hinp', n, r', k, hsuits, hlog''⟩)
      · exact ⟨x, hx, .inr ⟨p, hk, hlog'⟩⟩
      · have hsnoc := hx.snoc (.command p n r' k hk hsuits)
        have hfull : c''.log = x ++ .accepted p :: reply n r' k := by
          rw [hlog'', hlog', List.append_assoc]
          rfl
        rw [← hfull] at hsnoc
        cases r with
        | some s' => exact ⟨⟨hsize, hsnoc⟩, Nat.lt_of_le_of_lt hinp' (hinp (by dsimp only; omega))⟩
        | none => exact ⟨_, hsnoc, .inl rfl⟩
    · rintro e c'' hstuck
      refine ⟨x, p, hx, ?_⟩
      cases e with
      | die what =>
        have heq : c'' = c' := hstuck
        rw [heq]
        exact hlog'
      | hang =>
        have heq : c'' = c' := hstuck.2
        rw [heq]
        exact ⟨hstuck.1, hlog'⟩
      | unfinished =>
        refine ⟨hstuck.1, ?_⟩
        rw [hstuck.2.2, hlog', List.append_assoc]
        rfl

/-- Every session is a sequence of exchanges: each accepted command but `k` is
answered by one reply before anything else is read, each interrupt outside a packet
by one stop reply, and nothing else is sent. It ends after whole exchanges, or inside
a command that is never answered: a fatal error, a flash command that loops, or a
resume whose target is found running at every poll. -/
theorem session_exchanges (rounds polls : Nat) (s : Stub) (buf : List UInt8)
    (hbuf : buf.length = BUFSZ) (c : Conn) (hlog : c.log = []) (hrounds : c.inp.length < rounds) :
    (serve rounds polls s buf).wp session (fun _ c' => Finished c') (CutOff polls) c := by
  refine wp_loop_measure session (fun y c' => y.2.length = BUFSZ ∧ Exchanges c'.log)
    (fun _ c' => c'.inp.length) _ _ ?_ rounds (s, buf) c ⟨hbuf, hlog ▸ .nil⟩ hrounds
  rintro ⟨s', buf'⟩ c' ⟨hbuf', hlog'⟩
  refine wp_mono _ ?_ (fun _ _ h => h) (wp_serveRound polls s' buf' hbuf' c' hlog')
  intro x c'' hx
  cases x with
  | inl y => exact hx
  | inr u => exact hx

/-- The packet `?`, acknowledged by the client, and then a disconnect. -/
theorem session_exchanges_query :
    (serve 9 0 .lone (List.replicate BUFSZ 0)).wp session (fun _ c' => Finished c') (CutOff 0)
      ⟨bytes "$?#3f+", [], [], []⟩ :=
  session_exchanges 9 0 .lone _ List.length_replicate _ rfl (by decide)

/-- The exchanges are what the client sees: as long as no write fails, the bytes written
are those of the log, event by event. -/
theorem session_tied (rounds polls : Nat) (s : Stub) (buf : List UInt8) (c : Conn)
    (h : c.Tied) :
    (serve rounds polls s buf).wp session (fun _ c' => c'.Tied) (fun _ c' => c'.Tied) c := by
  have hkeeps : ∀ c o r c', c.Tied → session c o r c' → c'.Tied := by
    intro c o r c' hc ho
    cases o with
    | getPacket buf =>
      have hpair : (r, c') = rspGetPacket buf BUFSZ c := ho
      rw [show c' = _ from congrArg Prod.snd hpair]
      exact rspGetPacket_tied buf BUFSZ hc
    | putPacket data =>
      have hpair : (r, c') = rspPutPacket data c := ho
      rw [show c' = _ from congrArg Prod.snd hpair]
      exact rspPutPacket_tied data hc
    | readByte =>
      have hpair : (r, c') = readByte c := ho
      rw [show c' = _ from congrArg Prod.snd hpair, readByte]
      split
      · exact hc
      · exact ⟨hc.writes, hc.out⟩
    | qryState core =>
      have hpoll : c' = if r = some .running then c.note .running else c := ho
      rw [hpoll]
      split
      · exact hc.note rfl
      · exact hc
    | _ =>
      have heq : c' = c := ho
      exact heq ▸ hc
  have hwp := (asks_anything (serve rounds polls s buf)).invariant (E := session) Conn.Tied
    (fun c o r c' _ => hkeeps c o r c') h
  exact wp_mono _ (fun _ _ hend => hend.2) (fun _ _ hend => hend) hwp

/-! ## Counting -/

def Wire.isSent : Wire → Bool
  | .sent _ => true
  | _ => false

/-- An accepted packet other than `k`. -/
def Wire.isCommand : Wire → Bool
  | .accepted p => p.getD 0 0 != 107
  | _ => false

def Wire.isInterrupted : Wire → Bool
  | .interrupted => true
  | _ => false

theorem countP_reply (f : Wire → Bool) (hrun : f .running = false)
    (hagain : ∀ r, f (.resent r) = false) (n : Nat) (r : List UInt8) (k : Nat) :
    (reply n r k).countP f = if f (.sent r) then 1 else 0 := by
  simp only [reply, List.countP_append, List.countP_cons, List.countP_replicate, hrun, hagain,
    Bool.false_eq_true, ↓reduceIte, Nat.zero_add]

/-- There are as many replies as commands and interrupts. -/
theorem Exchanges.count {l : List Wire} (h : Exchanges l) :
    l.countP Wire.isSent = l.countP Wire.isCommand + l.countP Wire.isInterrupted := by
  induction h with
  | nil => rfl
  | snoc _ hx ih =>
    have hcmd := countP_reply Wire.isCommand rfl fun _ => rfl
    have hint := countP_reply Wire.isInterrupted rfl fun _ => rfl
    have hsent := countP_reply Wire.isSent rfl fun _ => rfl
    simp only [List.countP_append, ih]
    cases hx with
    | refused => simp [Wire.isSent, Wire.isCommand, Wire.isInterrupted]
    | interrupt r k hr =>
      simp only [List.countP_cons, hcmd, hint, hsent, Wire.isSent, Wire.isCommand,
        Wire.isInterrupted, Bool.false_eq_true, ↓reduceIte]
      omega
    | command p n r k hkill hr =>
      have hp : (p.getD 0 0 != 107) = true := bne_iff_ne.mpr hkill
      simp only [List.countP_cons, hcmd, hint, hsent, Wire.isSent, Wire.isCommand,
        Wire.isInterrupted, hp, Bool.false_eq_true, ↓reduceIte]
      omega

/-- A target on which every call succeeds, and that is always halted. -/
def haltedTarget (c : Conn) : (o : StubOp) → StubSig.Res o × Conn
  | .getPacket buf => rspGetPacket buf BUFSZ c
  | .putPacket data => rspPutPacket data c
  | .readByte => readByte c
  | .qryState _ => ((some .other : Option McdCoreState), c)
  | .bus (.read _ _) => (some (0 : UInt32), c)
  | .bus (.write _ _ _) => (true, c)
  | .sockHasByte => (false, c)
  | .stop _ => (true, c)
  | .run _ => (true, c)
  | .step _ => (true, c)
  | .createTrig _ _ => ((some 0 : Option UInt32), c)
  | .activateTrigSet _ => (true, c)
  | .removeTrig _ _ => (true, c)
  | .malloc _ => ((fun _ => 0 : Nat → UInt8), c)

theorem haltedTarget_session (c : Conn) (o : StubOp) :
    session c o (haltedTarget c o).1 (haltedTarget c o).2 := by
  cases o with
  | bus o => cases o <;> rfl
  | _ => rfl

/-- An interrupt byte that arrives while the target is halted: a stop reply is sent
although no command was accepted. -/
theorem halted_interrupt_answered :
    ¬ (serve 2 0 .lone (List.replicate BUFSZ 0)).wp session
      (fun _ c' => c'.log.countP Wire.isSent = c'.log.countP Wire.isCommand) (fun _ _ => True)
      ⟨[0x03], [], [], []⟩ := by
  intro h
  have hr := runs_exec session haltedTarget haltedTarget_session
    (serve 2 0 .lone (List.replicate BUFSZ 0)) ⟨[0x03], [], [], []⟩
  have hexec : (serve 2 0 .lone (List.replicate BUFSZ 0)).exec haltedTarget ⟨[0x03], [], [], []⟩ =
      (.ok (), ⟨[], [], frame (bytes "T05thread:1;"),
        [.interrupted, .sent (bytes "T05thread:1;")]⟩) := rfl
  rw [hexec] at hr
  exact absurd ((hr.sound _ h).1 () rfl) (by decide)

end OpenTricore
