import OpenTricore.Sequencing

/-! A client that goes away. While the target runs the stub polls it, and the connection
for an interrupt. A connection that is closed is always readable and has no byte, and the
poll takes no notice.

* `lost_client_iff`: when the wait for the target ends with the connection;
* `closed_polls_on`: how long the stub polls on a closed one. -/

namespace OpenTricore.Waiting
open OpenTricore Lib Lib.Prog

/-! ## What surrounds an event -/

/-- Wherever `e` is in the trace, `P` holds of what is before it and after it. -/
def Everywhere (e : Event StubSig) (P : List (Event StubSig) → List (Event StubSig) → Prop)
    (tr : List (Event StubSig)) : Prop := ∀ l r, tr = l ++ e :: r → P l r

section everywhere
variable {e : Event StubSig} {P : List (Event StubSig) → List (Event StubSig) → Prop}

@[simp] theorem everywhere_nil : Everywhere e P [] := by
  intro l r h
  simp at h

@[simp] theorem everywhere_cons {a : Event StubSig} {tr : List (Event StubSig)} :
    Everywhere e P (a :: tr) ↔ (a = e → P [] tr) ∧ Everywhere e (fun l => P (a :: l)) tr := by
  constructor
  · intro h
    refine ⟨?_, fun l r htr => h (a :: l) r (by rw [htr, List.cons_append])⟩
    rintro rfl
    exact h [] tr rfl
  · rintro ⟨hhead, htail⟩ l r h
    cases l with
    | nil =>
      obtain ⟨ha, rfl⟩ := List.cons.inj h
      exact hhead ha
    | cons b l =>
      obtain ⟨rfl, htr⟩ := List.cons.inj h
      exact htail l r htr

/-- Two traces one after the other, for a `P` that allows more around what it looks at. -/
theorem Everywhere.append (hP : ∀ a l r b, P l r → P (a ++ l) (r ++ b))
    {tr tr' : List (Event StubSig)} (h : Everywhere e P tr) (h' : Everywhere e P tr') :
    Everywhere e P (tr ++ tr') := by
  intro l r heq
  obtain ⟨b, rfl, htr'⟩ | ⟨b, htr, htr'⟩ := List.append_eq_append_iff.mp heq
  · simpa using hP tr b r [] (h' b r htr')
  · cases b with
    | nil => simpa [htr] using hP tr [] r [] (h' [] r htr'.symm)
    | cons c b =>
      obtain ⟨rfl, rfl⟩ := List.cons.inj htr'
      simpa using hP [] l b tr' (h l b htr)

end everywhere

/-! ## What is asked -/

/-- The connection was readable, and there was no byte. -/
def lost : Event StubSig := ⟨.readByte, (none : Option UInt8)⟩

/-- An interrupt was read. -/
def interrupt : Event StubSig := ⟨.readByte, (some 3 : Option UInt8)⟩

/-- After the connection was lost there are only replies, and the next packet, which is
none: the wait ends, and `serve` returns. -/
def ClosedEnds (x : Except Abort Unit) : List (Event StubSig) → Prop :=
  Everywhere lost fun _ r => (∀ e ∈ r, (∃ data rc, e = ⟨.putPacket data, rc⟩) ∨
    ∃ buf buf', e = ⟨.getPacket buf, ((-1 : Int), buf')⟩) ∧ x = .ok ()

/-- Each interrupt that is read while a core runs is followed by a request to stop it. -/
def StopsAsked : List (Event StubSig) → Prop :=
  Everywhere interrupt fun l r => ∃ l' c ok r',
    l = l' ++ [⟨.qryState c, (some .running : Option McdCoreState)⟩, ⟨.sockHasByte, true⟩] ∧
      r = ⟨.stop c, ok⟩ :: r'

/-! ## What happens -/

/-- The trace goes on with a poll of the target. -/
def Polls (tr : List (Event StubSig)) : Prop := ∃ c state tr', tr = ⟨.qryState c, state⟩ :: tr'

/-- Interrupts are passed on, and the stub polls on whenever the connection was lost. -/
def Settled (tr : List (Event StubSig)) : Prop :=
  StopsAsked tr ∧ Everywhere lost (fun _ r => Polls r) tr

/-- The connection may have been lost just now. -/
def Pending (tr : List (Event StubSig)) : Prop :=
  StopsAsked tr ∧ Everywhere lost (fun _ r => r = [] ∨ Polls r) tr

section traces
variable {tr tr' : List (Event StubSig)}

theorem StopsAsked.append (h : StopsAsked tr) (h' : StopsAsked tr') : StopsAsked (tr ++ tr') := by
  refine Everywhere.append ?_ h h'
  rintro a _ _ b ⟨l', c, ok, r', rfl, rfl⟩
  exact ⟨a ++ l', c, ok, r' ++ b, by simp, rfl⟩

theorem Polls.append (h : Polls tr) (tr' : List (Event StubSig)) : Polls (tr ++ tr') := by
  obtain ⟨c, state, r, rfl⟩ := h
  exact ⟨c, state, r ++ tr', rfl⟩

theorem Settled.append (h : Settled tr) (h' : Settled tr') : Settled (tr ++ tr') :=
  ⟨h.1.append h'.1, Everywhere.append (fun _ _ _ b hr => hr.append b) h.2 h'.2⟩

theorem Settled.pending (h : Settled tr) : Pending tr :=
  ⟨h.1, fun l r htr => .inr (h.2 l r htr)⟩

/-- After a lost connection the next poll begins. -/
theorem Pending.lost_append (h : Pending tr) (hpolls : Polls tr')
    {Q : List (Event StubSig) → Prop} (hQ : ∀ r, Polls r → Q r)
    (h' : Everywhere lost (fun _ => Q) tr') : Everywhere lost (fun _ => Q) (tr ++ tr') := by
  intro l r heq
  obtain ⟨b, rfl, htr'⟩ | ⟨b, htr, htr'⟩ := List.append_eq_append_iff.mp heq
  · exact h' b r htr'
  · cases b with
    | nil => exact h' [] r htr'.symm
    | cons c b =>
      obtain ⟨rfl, rfl⟩ := List.cons.inj htr'
      apply hQ
      obtain rfl | hb := h.2 l b htr
      · exact hpolls
      · exact hb.append tr'

theorem Pending.append (h : Pending tr) (hpolls : Polls tr') (h' : Pending tr') :
    Pending (tr ++ tr') :=
  ⟨h.1.append h'.1, h.lost_append hpolls (fun _ hr => .inr hr) h'.2⟩

theorem Pending.settled (h : Pending tr) (hpolls : Polls tr') (h' : Settled tr') :
    Settled (tr ++ tr') :=
  ⟨h.1.append h'.1, h.lost_append hpolls (fun _ hr => hr) h'.2⟩

/-- Any question but for a byte of the connection. -/
theorem settled_event (o : StubOp) (r : StubSig.Res o) (ho : o ≠ .readByte) : Settled [⟨o, r⟩] := by
  have hne : ∀ byte : Option UInt8, (⟨o, r⟩ : Event StubSig) ≠ ⟨.readByte, byte⟩ := by
    intro byte heq
    exact ho (congrArg Sigma.fst heq)
  exact ⟨by simp [StopsAsked, interrupt, hne], by simp [lost, hne]⟩

end traces

/-! ## The wait for the target -/

/-- The core runs. -/
def running (core : Core) : Event StubSig :=
  ⟨.qryState core, (some .running : Option McdCoreState)⟩

/-- One poll that finds the core running, and then looks at the connection. -/
inductive Look (core : Core) : List (Event StubSig) → Prop
  | quiet : Look core [running core, ⟨.sockHasByte, false⟩]
  | closed : Look core [running core, ⟨.sockHasByte, true⟩, lost]
  | noise (b : UInt8) (hb : b ≠ 3) :
      Look core [running core, ⟨.sockHasByte, true⟩, ⟨.readByte, (some b : Option UInt8)⟩]
  | interrupted (ok : Bool) :
      Look core [running core, ⟨.sockHasByte, true⟩, interrupt, ⟨.stop core, ok⟩]

section wait
variable {core : Core} {look : List (Event StubSig)} {tr : List (Event StubSig)}

theorem Look.polls (h : Look core look) : Polls look := by
  cases h <;> exact ⟨_, _, _, rfl⟩

theorem Look.pending (h : Look core look) : Pending look := by
  cases h with
  | quiet => simp [Pending, StopsAsked, running, interrupt, lost]
  | closed => simp [Pending, StopsAsked, running, interrupt, lost]
  | noise b hb => simp [Pending, StopsAsked, running, interrupt, lost, hb]
  | interrupted ok =>
    have hstop : StopsAsked [running core, ⟨.sockHasByte, true⟩, interrupt, ⟨.stop core, ok⟩] := by
      simp [StopsAsked, running, interrupt]
      exact ⟨[], core, rfl, by cases ok <;> simp⟩
    exact ⟨hstop, by simp [running, interrupt, lost]⟩

theorem wp_pollInterrupt_look (s : Stub) :
    (pollInterrupt s).wp anything
      (fun _ tr' => ∃ look, tr' = tr ++ look ∧ Look s.active.target.core look)
      (fun _ _ => False) (tr ++ [running s.active.target.core]) := by
  simp only [pollInterrupt, wp_bind]
  rintro ready _ rfl
  cases ready with
  | false => exact ⟨_, List.append_assoc _ _ _, .quiet⟩
  | true =>
    simp only [wp_ret, ↓reduceIte, wp_bind]
    rintro byte _ rfl
    cases byte with
    | none => exact ⟨_, by simp [lost], .closed⟩
    | some b =>
      simp only [wp_ret]
      split
      · rename_i hb
        subst hb
        rintro ok _ rfl
        exact ⟨_, by simp [interrupt], .interrupted ok⟩
      · rename_i hb
        exact ⟨_, by simp, .noise b hb⟩

/-- The wait passes on each interrupt, and polls on when the connection is lost. -/
theorem wp_waitAndReport_settled (polls : Nat) (s : Stub) (h : Settled tr) :
    (waitAndReport polls s).wp anything (fun _ => Settled) (fun _ => StopsAsked) tr := by
  rw [waitAndReport, wp_bind]
  refine wp_mono anything ?_ (fun _ _ h => h) <| wp_loop_partial anything (fun _ => Pending)
    (Q := fun _ => Settled) (X := fun _ => StopsAsked) _ _ ?_ (fun _ _ h => h.1) polls
      () tr h.pending
  · rintro _ tr' h' r _ rfl
    exact h'.append (settled_event (.putPacket _) r (by simp))
  · rintro _ tr h
    rw [wp_bind]
    rintro state _ rfl
    have hhalted : Settled (tr ++ [⟨.qryState s.active.target.core, state⟩]) :=
      h.settled ⟨_, state, _, rfl⟩ (settled_event (.qryState _) state (by simp))
    cases state with
    | none => exact hhalted
    | some state =>
      cases state with
      | other => exact hhalted
      | running =>
        simp only [wp_ret, wp_bind]
        refine wp_mono anything ?_ (fun _ _ h => h.elim) (wp_pollInterrupt_look s)
        rintro _ _ ⟨look, rfl, hlook⟩
        exact h.append hlook.polls hlook.pending

end wait

/-! ## The command loop -/

theorem sequential_settled : Sequential (S := StubSig)
    (fun _ (p : StubProg _) => ∀ tr, Settled tr →
      p.wp anything (fun _ => Settled) (fun _ => StopsAsked) tr)
    (fun o => o ≠ StubOp.readByte) (fun _ => True) := by
  refine sequential_invariant anything Settled (fun _ => StopsAsked) ?_ (fun _ _ _ h => h.1)
  rintro tr o r _ ho htr rfl
  exact htr.append (settled_event o r ho)

theorem kept_settled : Kept fun _ p => ∀ tr, Settled tr →
    p.wp anything (fun _ => Settled) (fun _ => StopsAsked) tr :=
  { sequential_settled with fail := fun e _ => sequential_settled.fail e trivial }

theorem serve_settled (rounds polls : Nat) (s : Stub) (buf : List UInt8) :
    (serve rounds polls s buf).wp anything (fun _ => Settled) (fun _ => StopsAsked) [] := by
  refine sequential_settled.loop .unfinished trivial (serveRound polls) ?_ rounds (s, buf) [] ?_
  · rintro ⟨s, buf⟩
    refine kept_settled.bind (kept_settled.asks (.getPacket _) (by simp)) ?_
    rintro ⟨n, buf⟩
    refine kept_settled.ite (kept_settled.ret _) (kept_settled.ite ?_ ?_)
    · exact kept_settled.returning (kept_settled.putPacket _) _
    · refine kept_settled.bind (kept_settled.dispatch ?_ ?_ buf n) fun r => ?_
      · exact fun tr h => wp_waitAndReport_settled polls s h
      · exact fun msg => sequential_settled.fail _ trivial
      · cases r <;> exact kept_settled.ret _
  · simp [Settled, StopsAsked]

/-- The wait ends with the connection if and only if the connection is not lost in it. -/
theorem lost_client_iff {rounds polls : Nat} {s : Stub} {buf : List UInt8} {x : Except Abort Unit}
    {tr : List (Event StubSig)} (hr : Runs anything (serve rounds polls s buf) [] x tr) :
    ClosedEnds x tr ∧ StopsAsked tr ↔ lost ∉ tr := by
  obtain ⟨hok, herror⟩ := hr.sound anything (serve_settled rounds polls s buf)
  constructor
  · rintro ⟨hends, -⟩ hlost
    obtain ⟨l, r, htr⟩ := List.append_of_mem hlost
    obtain ⟨hquiet, rfl⟩ := hends l r htr
    obtain ⟨c, state, r', rfl⟩ := (hok () rfl).2 l r htr
    obtain ⟨data, rc, heq⟩ | ⟨buf, buf', heq⟩ := hquiet _ (List.mem_cons_self ..)
    · cases congrArg Sigma.fst heq
    · cases congrArg Sigma.fst heq
  · intro hlost
    refine ⟨fun l r htr => absurd ?_ hlost, ?_⟩
    · rw [htr]
      simp
    · cases x with
      | ok _ => exact (hok () rfl).1
      | error e => exact herror e rfl

/-- The client resumes a core that does not stop by itself, and each read of the
connection answers `byte`. -/
def client (byte : Option UInt8) : (o : StubOp) → StubSig.Res o
  | .bus (.read _ _) => (none : Option UInt32)
  | .bus (.write _ _ _) => false
  | .getPacket _ => ((1 : Int), bytes "c" ++ [0])
  | .putPacket _ => (0 : Int)
  | .sockHasByte => true
  | .readByte => byte
  | .qryState _ => (some .running : Option McdCoreState)
  | .stop _ => true
  | .run _ => true
  | .step _ => true
  | .createTrig _ _ => (none : Option UInt32)
  | .activateTrigSet _ => true
  | .removeTrig _ _ => true
  | .malloc _ => (fun _ => 0 : Nat → UInt8)

theorem runs_client (byte : Option UInt8) (polls : Nat) :
    Runs anything (serve 1 polls Stub.lone []) []
      ((serve 1 polls Stub.lone []).execAnswering (client byte)).1
      ((serve 1 polls Stub.lone []).execAnswering (client byte)).2 :=
  runs_anything_of_answering (runs_answering _ _)

/-- Two polls, each with an interrupt and a request to stop. -/
theorem lost_client_interrupted :
    lost ∉ ((serve 1 2 Stub.lone []).execAnswering (client (some 3))).2 ∧
      StopsAsked ((serve 1 2 Stub.lone []).execAnswering (client (some 3))).2 := by
  have htrace : ((serve 1 2 Stub.lone []).execAnswering (client (some 3))).2 =
      [⟨.getPacket [], ((1 : Int), bytes "c" ++ [0])⟩, ⟨.run 0, true⟩, running 0,
        ⟨.sockHasByte, true⟩, interrupt, ⟨.stop 0, true⟩, running 0, ⟨.sockHasByte, true⟩,
        interrupt, ⟨.stop 0, true⟩] := rfl
  have hkept : lost ∉ ((serve 1 2 Stub.lone []).execAnswering (client (some 3))).2 := by
    rw [htrace]
    simp [lost, running, interrupt]
  exact ⟨hkept, ((lost_client_iff (runs_client (some 3) 2)).mpr hkept).2⟩

/-- A connection that is closed does not end the wait: the target is polled again. -/
theorem closed_connection_ignored :
    ¬ ∀ rounds polls s buf x tr, Runs anything (serve rounds polls s buf) [] x tr →
      ClosedEnds x tr ∧ StopsAsked tr := by
  intro h
  have hends := (h _ _ _ _ _ _ (runs_client none 2)).1
  obtain ⟨hquiet, -⟩ := hends [⟨.getPacket [], ((1 : Int), bytes "c" ++ [0])⟩, ⟨.run 0, true⟩,
    running 0, ⟨.sockHasByte, true⟩] [running 0, ⟨.sockHasByte, true⟩, lost] rfl
  obtain ⟨data, rc, heq⟩ | ⟨buf, buf', heq⟩ := hquiet _ (List.mem_cons_self ..)
  · cases congrArg Sigma.fst heq
  · cases congrArg Sigma.fst heq

/-- On a closed connection a running target is polled for ever. -/
theorem closed_polls_on (polls : Nat) (s : Stub) (tr : List (Event StubSig)) :
    (waitAndReport polls s).exec (fun tr o => (client none o, tr ++ [⟨o, client none o⟩])) tr =
      (.error .unfinished, tr ++ (List.replicate polls
        [running s.active.target.core, ⟨.sockHasByte, true⟩, lost]).flatten) := by
  induction polls generalizing tr with
  | zero => exact congrArg _ (List.append_nil tr).symm
  | succ polls ih =>
    refine (ih (tr ++ [running s.active.target.core] ++ [⟨.sockHasByte, true⟩] ++ [lost])).trans ?_
    rw [List.replicate_succ, List.flatten_cons]
    simp

end OpenTricore.Waiting
