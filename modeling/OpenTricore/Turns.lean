import OpenTricore.Sequencing

/-! The command loop round by round. A session is a list of rounds, each with the packet
that was received, the accesses it made and the replies it sent; the stub goes on from
where the round before left it.

* `serve_session`: every run of `serve` is such a list;
* `Turn.ends`: the rounds that leave the loop, and the packets that `die`. -/

namespace OpenTricore.Turns
open OpenTricore Lib Lib.Prog

/-! ## Handlers that do not die -/

/-- The stub does not call `die`. -/
def Lives : Abort → Prop
  | .die _ => False
  | .hang => True
  | .unfinished => True

theorem kept_lives : Kept fun _ p => p.FailsIn Lives where
  ret := failsIn_ret
  bind := FailsIn.bind
  perform := fun o _ => failsIn_perform o
  fail := by
    rintro _ _ rfl
    trivial

theorem lives_pollInterrupt (s : Stub) : (pollInterrupt s).FailsIn Lives := by
  refine FailsIn.bind (failsIn_perform _) fun ready => ?_
  split
  · refine FailsIn.bind (failsIn_perform _) fun byte => ?_
    split
    · split
      · exact FailsIn.bind (failsIn_perform _) fun _ => failsIn_ret _
      · exact failsIn_ret _
    · exact failsIn_ret _
  · exact failsIn_ret _

theorem lives_waitAndReport (polls : Nat) (s : Stub) : (waitAndReport polls s).FailsIn Lives := by
  refine FailsIn.bind (failsIn_loop _ trivial _ (fun _ => ?_) _ _) fun _ => kept_lives.putPacket _
  refine FailsIn.bind (failsIn_perform _) fun state => ?_
  split
  · exact FailsIn.bind (lives_pollInterrupt s) fun _ => failsIn_ret _
  · exact failsIn_ret _

/-! ## Rounds -/

/-- What one round of `serve` does with what it received. -/
def respond (polls : Nat) (s : Stub) (buf : List UInt8) (n : Int) : StubProg (Option Stub) :=
  if n = -1 then return none
  else if n = -2 then do reportStop s; return some s
  else dispatch polls s buf n

/-- The stub goes on with the buffer as it is, or leaves the loop. -/
def goOn (buf : List UInt8) : Option Stub → (Stub × List UInt8) ⊕ Unit
  | some s => .inl (s, buf)
  | none => .inr ()

theorem serveRound_eq (polls : Nat) (s : Stub) (buf : List UInt8) :
    serveRound polls (s, buf) = (ask (.getPacket buf) >>= fun x =>
      respond polls s x.2 x.1 >>= fun r => return goOn x.2 r) := by
  simp only [serveRound]
  congr 1
  funext ⟨n, buf⟩
  simp only [respond]
  split
  · rfl
  · split
    · rw [bind_bind]
      rfl
    · congr 1
      funext r
      cases r <;> rfl

/-- One round of the loop. -/
structure Turn where
  stub : Stub
  n : Int
  buf : List UInt8
  result : Except Abort (Option Stub)
  accesses : List (Event BusSig)
  replies : List (List UInt8)

/-- The round can go this way. -/
def Turn.Occurs (polls : Nat) (t : Turn) : Prop :=
  Runs (replying anything) (respond polls t.stub t.buf t.n) ([], []) t.result
    (t.accesses, t.replies)

/-- The rounds of the loop, started with the stub `s`, and how it ends. -/
inductive Session (polls : Nat) : Stub → List Turn → Except Abort Unit → Prop
  | unfinished (s : Stub) : Session polls s [] (.error .unfinished)
  | left (t : Turn) (ht : t.Occurs polls) (hr : t.result = .ok none) :
      Session polls t.stub [t] (.ok ())
  | aborted (t : Turn) (e : Abort) (ht : t.Occurs polls) (hr : t.result = .error e) :
      Session polls t.stub [t] (.error e)
  | next (t : Turn) (s : Stub) (log : List Turn) (x : Except Abort Unit) (ht : t.Occurs polls)
      (hr : t.result = .ok (some s)) (h : Session polls s log x) : Session polls t.stub (t :: log) x

/-- From `x` to `y` the accesses and the replies of the log were added. -/
def Logged (polls : Nat) (s : Stub) (r : Except Abort Unit)
    (x y : List (Event BusSig) × List (List UInt8)) : Prop :=
  ∃ log, Session polls s log r ∧
    y = (x.1 ++ log.flatMap (·.accesses), x.2 ++ log.flatMap (·.replies))

/-- A handler does not look at what was recorded before it. -/
theorem replying_shift {α : Type} {p : StubProg α}
    {Q : α → List (Event BusSig) × List (List UInt8) → Prop}
    {X : Abort → List (Event BusSig) × List (List UInt8) → Prop}
    (h : p.wp (replying anything) Q X ([], [])) (x : List (Event BusSig) × List (List UInt8)) :
    p.wp (replying anything) (fun a z => ∃ y, z = (x.1 ++ y.1, x.2 ++ y.2) ∧ Q a y)
      (fun e z => ∃ y, z = (x.1 ++ y.1, x.2 ++ y.2) ∧ X e y) x := by
  refine wp_sim (fun y z => z = (x.1 ++ y.1, x.2 ++ y.2)) ?_ ?_ h
  · rintro ⟨tr, out⟩ _ o r ⟨tr', out'⟩ rfl ho
    cases o with
    | bus o =>
      obtain ⟨htr, hout⟩ := ho
      refine ⟨(tr ++ [(⟨o, r⟩ : Event BusSig)], out), ⟨rfl, rfl⟩, Prod.ext ?_ hout⟩
      exact htr.trans (List.append_assoc _ _ _)
    | putPacket data =>
      refine ⟨(tr, out ++ [data]), rfl, ?_⟩
      rw [show (tr', out') = (x.1 ++ tr, x.2 ++ out ++ [data]) from ho, List.append_assoc]
    | _ => exact ⟨(tr, out), rfl, ho⟩
  · simp

theorem wp_respond (polls : Nat) (s : Stub) (buf : List UInt8) (n : Int) :
    (respond polls s buf n).wp (replying anything)
      (fun r y => (Turn.mk s n buf (.ok r) y.1 y.2).Occurs polls)
      (fun e y => (Turn.mk s n buf (.error e) y.1 y.2).Occurs polls) ([], []) :=
  (wp_iff_runs _ _ _).mpr ⟨fun _ _ h => h, fun _ _ h => h⟩

theorem Logged.cons {polls : Nat} {s s' : Stub} {n : Int} {buf : List UInt8}
    {r : Except Abort Unit} {x y z : List (Event BusSig) × List (List UInt8)}
    (ht : (Turn.mk s n buf (.ok (some s')) y.1 y.2).Occurs polls)
    (h : Logged polls s' r (x.1 ++ y.1, x.2 ++ y.2) z) : Logged polls s r x z := by
  obtain ⟨log, hlog, rfl⟩ := h
  refine ⟨_, .next _ s' log r ht rfl hlog, ?_⟩
  simp

/-- Every run of the loop is a session. -/
theorem serve_session (rounds polls : Nat) (s : Stub) (buf : List UInt8)
    (x : List (Event BusSig) × List (List UInt8)) :
    (serve rounds polls s buf).wp (replying anything) (fun _ => Logged polls s (.ok ()) x)
      (fun e => Logged polls s (.error e) x) x := by
  induction rounds generalizing s buf x with
  | zero => exact ⟨[], .unfinished s, by simp⟩
  | succ rounds ih =>
    rw [serve, loop, serveRound_eq, bind_bind, wp_bind]
    rintro ⟨n, buf⟩ x rfl
    rw [wp_ret, bind_bind, wp_bind]
    refine wp_mono _ ?_ ?_ (replying_shift (wp_respond polls s buf n) x)
    · rintro r _ ⟨y, rfl, ht⟩
      cases r with
      | none => exact ⟨_, .left _ ht rfl, by simp⟩
      | some s' =>
        exact wp_mono _ (fun _ _ h => h.cons ht) (fun _ _ h => h.cons ht) (ih s' buf _)
    · rintro e _ ⟨y, rfl, ht⟩
      exact ⟨_, .aborted _ e ht rfl, by simp⟩

/-! ## How the loop is left -/

theorem stays_or {α : Type} {σ : Type} {E : Env StubSig σ} {y : σ} {C D : Prop} {h : StubProg α}
    (hh : h.FailsIn Lives) (f : α → Stub) :
    (h >>= fun a => (return some (f a) : StubProg (Option Stub))).wp E (fun r _ => r = none → C)
      (fun e _ => Lives e ∨ D) y := by
  rw [wp_bind]
  refine wp_mono E (fun a _ _ h => ?_) (fun e _ h => .inl h) (hh.wp E y)
  cases h

/-- The loop goes on after every packet but `D` and `k`, and only `G` and `P` can `die`. -/
theorem dispatch_ends {σ : Type} {E : Env StubSig σ} {y : σ} (polls : Nat) (s : Stub)
    (buf : List UInt8) (n : Int) :
    (dispatch polls s buf n).wp E (fun r _ => r = none → buf.getD 0 0 = 68 ∨ buf.getD 0 0 = 107)
      (fun e _ => Lives e ∨ buf.getD 0 0 = 71 ∨ buf.getD 0 0 = 80) y := by
  have hstay : ∀ {h : StubProg Unit}, h.FailsIn Lives →
      (h >>= fun _ => (return some s : StubProg (Option Stub))).wp E
        (fun r _ => r = none → buf.getD 0 0 = 68 ∨ buf.getD 0 0 = 107)
        (fun e _ => Lives e ∨ buf.getD 0 0 = 71 ∨ buf.getD 0 0 = 80) y :=
    fun hh => stays_or hh fun _ => s
  have hdie : (buf.getD 0 0 = 71 ∨ buf.getD 0 0 = 80) → ∀ h : StubProg Unit,
      (h >>= fun _ => (return some s : StubProg (Option Stub))).wp E
        (fun r _ => r = none → buf.getD 0 0 = 68 ∨ buf.getD 0 0 = 107)
        (fun e _ => Lives e ∨ buf.getD 0 0 = 71 ∨ buf.getD 0 0 = 80) y := by
    intro hw h
    rw [wp_bind]
    refine (wp_iff_runs E _ _).mpr ⟨fun _ _ _ hnone => ?_, fun _ _ _ => .inr hw⟩
    cases hnone
  have hwait := lives_waitAndReport polls s
  refine wp_ite _ (fun _ => hstay (kept_lives.putPacket _)) fun _ => ?_
  refine wp_ite _ (fun _ => hstay kept_lives.handle_g) fun _ => ?_
  refine wp_ite _ (fun h => hdie (.inl h) _) fun _ => ?_
  refine wp_ite _ (fun _ => hstay (kept_lives.handle_p _)) fun _ => ?_
  refine wp_ite _ (fun h => hdie (.inr h) _) fun _ => ?_
  refine wp_ite _ (fun _ => hstay (kept_lives.handle_m _)) fun _ => ?_
  refine wp_ite _ (fun _ => hstay (kept_lives.handle_M _)) fun _ => ?_
  refine wp_ite _ (fun _ => hstay (kept_lives.handle_q _)) fun _ => ?_
  refine wp_ite _ (fun _ => stays_or (kept_lives.handle_v hwait _ n) id) fun _ => ?_
  refine wp_ite _ (fun _ => stays_or (kept_lives.handle_Z _) id) fun _ => ?_
  refine wp_ite _ (fun _ => stays_or (kept_lives.handle_z _) id) fun _ => ?_
  refine wp_ite _ (fun _ => stays_or (kept_lives.handle_H _) id) fun _ => ?_
  refine wp_ite _ (fun _ => hstay (kept_lives.putPacket _)) fun _ => ?_
  refine wp_ite _ (fun _ => hstay (kept_lives.doContinue hwait)) fun _ => ?_
  refine wp_ite _ (fun _ => hstay (kept_lives.doStep hwait)) fun _ => ?_
  refine wp_ite _ (fun h => ?_) fun _ => ?_
  · rw [wp_bind]
    exact wp_mono E (fun _ _ _ _ => .inl h) (fun _ _ h => .inl h) ((kept_lives.putPacket _).wp E y)
  exact wp_ite _ (fun h _ => .inr h) fun _ => hstay (kept_lives.putPacket _)

/-- A command packet was received, not an interrupt and not the end of the connection. -/
def Turn.Command (t : Turn) : Prop := t.n ≠ -1 ∧ t.n ≠ -2

theorem Turn.Occurs.command {polls : Nat} {t : Turn} (h : t.Occurs polls) (hc : t.Command) :
    Runs (replying anything) (dispatch polls t.stub t.buf t.n) ([], []) t.result
      (t.accesses, t.replies) := by
  rwa [Turn.Occurs, respond, if_neg hc.1, if_neg hc.2] at h

/-- The connection was closed, or the client sent `D` or `k`. -/
def Turn.Farewell (t : Turn) : Prop := t.n = -1 ∨ t.buf.getD 0 0 = 68 ∨ t.buf.getD 0 0 = 107

theorem Turn.Occurs.farewell {polls : Nat} {t : Turn} (h : t.Occurs polls)
    (hr : t.result = .ok none) : t.Farewell := by
  by_cases h1 : t.n = -1
  · exact .inl h1
  · refine .inr ?_
    rw [Turn.Occurs, respond, if_neg h1, hr] at h
    split at h
    · cases (h.sound _ (stays_or (C := False) (D := False) (kept_lives.putPacket (stopReply t.stub))
        fun _ => t.stub)).1 none rfl rfl
    · exact (h.sound _ (dispatch_ends polls t.stub t.buf t.n)).1 none rfl rfl

theorem Turn.Occurs.died {polls : Nat} {t : Turn} {msg : String} (h : t.Occurs polls)
    (hr : t.result = .error (.die msg)) :
    t.Command ∧ (t.buf.getD 0 0 = 71 ∨ t.buf.getD 0 0 = 80) := by
  have hends : (respond polls t.stub t.buf t.n).wp (replying anything) (fun _ _ => True)
      (fun e _ => Lives e ∨ t.Command ∧ (t.buf.getD 0 0 = 71 ∨ t.buf.getD 0 0 = 80))
      ([], []) := by
    refine wp_ite _ (fun _ => trivial) fun h1 => wp_ite _ (fun _ => ?_) fun h2 => ?_
    · have hlives :=
        kept_lives.returning (kept_lives.putPacket (stopReply t.stub)) fun _ => some t.stub
      exact wp_mono _ (fun _ _ _ => trivial) (fun _ _ h => .inl h) (hlives.wp _ _)
    · refine wp_mono _ (fun _ _ _ => trivial) ?_ (dispatch_ends polls t.stub t.buf t.n)
      exact fun _ _ h => h.imp_right fun hw => ⟨⟨h1, h2⟩, hw⟩
  rw [Turn.Occurs, hr] at h
  exact ((h.sound _ hends).2 _ rfl).resolve_left id

section
variable {polls : Nat} {s : Stub} {log : List Turn} {x : Except Abort Unit}

theorem Session.occurs (h : Session polls s log x) : ∀ t ∈ log, t.Occurs polls := by
  induction h with
  | unfinished s => simp
  | left t ht hr => simpa using ht
  | aborted t e ht hr => simpa using ht
  | next t s log x ht hr h ih => exact List.forall_mem_cons.mpr ⟨ht, ih⟩

/-- Each round but the last keeps the loop going, and the last ends it. -/
theorem Session.last (h : Session polls s log x) : x = .error .unfinished ∨
    ∃ t, log.getLast? = some t ∧ ((t.result = .ok none ∧ x = .ok ()) ∨
      ∃ e, t.result = .error e ∧ x = .error e) := by
  induction h with
  | unfinished s => exact .inl rfl
  | left t ht hr => exact .inr ⟨t, rfl, .inl ⟨hr, rfl⟩⟩
  | aborted t e ht hr => exact .inr ⟨t, rfl, .inr ⟨e, hr, rfl⟩⟩
  | next t s log x ht hr h ih =>
    refine ih.imp_right ?_
    rintro ⟨u, hu, hlast⟩
    refine ⟨u, ?_, hlast⟩
    rw [List.getLast?_cons, hu]
    rfl

/-- The loop is left on `D`, `k` or the end of the connection. -/
theorem Session.farewell (h : Session polls s log (.ok ())) :
    ∃ t, log.getLast? = some t ∧ t.Farewell := by
  obtain hx | ⟨t, ht, ⟨hr, -⟩ | ⟨e, -, hx⟩⟩ := h.last
  · cases hx
  · exact ⟨t, ht, (h.occurs t (List.mem_of_getLast? ht)).farewell hr⟩
  · cases hx

/-- The stub dies of a `G` or `P` packet. -/
theorem Session.died {msg : String} (h : Session polls s log (.error (.die msg))) :
    ∃ t ∈ log, t.result = .error (.die msg) ∧ t.Command ∧
      (t.buf.getD 0 0 = 71 ∨ t.buf.getD 0 0 = 80) := by
  obtain hx | ⟨t, ht, ⟨-, hx⟩ | ⟨e, hr, hx⟩⟩ := h.last
  · cases hx
  · cases hx
  · cases hx
    have hmem := List.mem_of_getLast? ht
    exact ⟨t, hmem, hr, (h.occurs t hmem).died hr⟩

end

end OpenTricore.Turns
