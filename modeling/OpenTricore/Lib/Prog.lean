import Mathlib.Logic.Basic

/-! Programs that talk to their surroundings. A program is a finite tree: it
returns, gives up, or asks the surroundings something and goes on with the
answer. What the answers can be is said separately, by an `Env`, so the same
program runs against a device that may fail, a plain memory, or a script.
`Runs` is the meaning of a program in an environment, and `wp` with its rules is
how runs are reasoned about. -/

namespace OpenTricore.Lib

/-- What may be asked, and the type of the answer to each question. -/
structure Sig where
  Op : Type
  Res : Op → Type

inductive Prog (S : Sig) (ε α : Type) : Type
  | ret (a : α)
  | fail (e : ε)
  | ask (o : S.Op) (k : S.Res o → Prog S ε α)

/-- In state `s` the question `o` may be answered by `r`, leaving `s'`. -/
abbrev Env (S : Sig) (σ : Type) := σ → (o : S.Op) → S.Res o → σ → Prop

namespace Prog

variable {S T : Sig} {ε α β γ σ : Type}

/-! ## Sequencing -/

def bind : Prog S ε α → (α → Prog S ε β) → Prog S ε β
  | .ret a, f => f a
  | .fail e, _ => .fail e
  | .ask o k, f => .ask o fun r => (k r).bind f

instance : Monad (Prog S ε) where
  pure := .ret
  bind := Prog.bind

/-- Ask one question and return its answer. -/
def perform (o : S.Op) : Prog S ε (S.Res o) := .ask o .ret

@[simp] theorem pure_eq (a : α) : (pure a : Prog S ε α) = .ret a := rfl
@[simp] theorem ret_bind (a : α) (f : α → Prog S ε β) : (Prog.ret a >>= f) = f a := rfl
@[simp] theorem fail_bind (e : ε) (f : α → Prog S ε β) : (Prog.fail e >>= f) = .fail e := rfl
@[simp] theorem ask_bind (o : S.Op) (k : S.Res o → Prog S ε α) (f : α → Prog S ε β) :
    (Prog.ask o k >>= f) = .ask o fun r => k r >>= f := rfl
@[simp] theorem perform_bind (o : S.Op) (f : S.Res o → Prog S ε β) :
    (perform o >>= f) = .ask o f := rfl

theorem bind_bind (p : Prog S ε α) (f : α → Prog S ε β) (g : β → Prog S ε γ) :
    (p >>= f >>= g) = p >>= fun a => f a >>= g := by
  induction p with
  | ret a => rfl
  | fail e => rfl
  | ask o k ih => simp only [ask_bind, ih]

/-- Iterate `body` until it answers `inr`, at most `n` times. -/
def loop (e : ε) (body : β → Prog S ε (β ⊕ α)) : Nat → β → Prog S ε α
  | 0, _ => .fail e
  | n + 1, b => body b >>= fun
    | .inl b' => loop e body n b'
    | .inr a => .ret a

/-- Embed a program into a larger signature. -/
def lift (f : S.Op → T.Op) (g : ∀ o, T.Res (f o) → S.Res o) : Prog S ε α → Prog T ε α
  | .ret a => .ret a
  | .fail e => .fail e
  | .ask o k => .ask (f o) fun r => (k (g o r)).lift f g

theorem lift_bind (f : S.Op → T.Op) (g : ∀ o, T.Res (f o) → S.Res o) (p : Prog S ε α)
    (q : α → Prog S ε β) : (p >>= q).lift f g = (p.lift f g >>= fun a => (q a).lift f g) := by
  induction p with
  | ret a => rfl
  | fail e => rfl
  | ask o k ih => simp only [ask_bind, lift, ih]

/-- The first question, if there is one. -/
def head : Prog S ε α → Option S.Op
  | .ask o _ => some o
  | _ => none

theorem head_bind {p : Prog S ε α} {o : S.Op} (h : p.head = some o) (f : α → Prog S ε β) :
    (p >>= f).head = some o := by
  cases p with
  | ret a => cases h
  | fail e => cases h
  | ask o' k => exact h

/-! ## Runs -/

/-- `p` started in `s` can end with outcome `x` in state `s'`. -/
inductive Runs (E : Env S σ) : Prog S ε α → σ → Except ε α → σ → Prop
  | ret (a : α) (s : σ) : Runs E (.ret a) s (.ok a) s
  | fail (e : ε) (s : σ) : Runs E (.fail e) s (.error e) s
  | ask {o : S.Op} {k : S.Res o → Prog S ε α} {s s' s'' : σ} {r : S.Res o} {x : Except ε α} :
      E s o r s' → Runs E (k r) s' x s'' → Runs E (.ask o k) s x s''

/-- Run against a deterministic environment. -/
def exec (h : σ → (o : S.Op) → S.Res o × σ) : Prog S ε α → σ → Except ε α × σ
  | .ret a, s => (.ok a, s)
  | .fail e, s => (.error e, s)
  | .ask o k, s => (k (h s o).1).exec h (h s o).2

theorem runs_exec (E : Env S σ) (h : σ → (o : S.Op) → S.Res o × σ)
    (hE : ∀ s o, E s o (h s o).1 (h s o).2) (p : Prog S ε α) (s : σ) :
    Runs E p s (p.exec h s).1 (p.exec h s).2 := by
  induction p generalizing s with
  | ret a => exact .ret a s
  | fail e => exact .fail e s
  | ask o k ih => exact .ask (hE s o) (ih _ _)

/-- A program that cannot fail gets to its end, if each of its requests is answered. -/
theorem runs_ok (E : Env S σ) (h : σ → (o : S.Op) → S.Res o × σ)
    (hE : ∀ s o, E s o (h s o).1 (h s o).2) (p : Prog S Empty α) (s : σ) :
    ∃ a s', Runs E p s (.ok a) s' := by
  have hrun := runs_exec E h hE p s
  generalize p.exec h s = x at hrun
  obtain ⟨e | a, s'⟩ := x
  · exact e.elim
  · exact ⟨a, s', hrun⟩

theorem Runs.mono {E E' : Env S σ} (hE : ∀ s o r s', E s o r s' → E' s o r s')
    {p : Prog S ε α} {s s' : σ} {x : Except ε α} (hr : Runs E p s x s') : Runs E' p s x s' := by
  induction hr with
  | ret a s => exact .ret a s
  | fail e s => exact .fail e s
  | ask ho _ ih => exact .ask (hE _ _ _ _ ho) ih

/-! ## Weakest preconditions -/

/-- Every run of `p` from `s` that returns does so in `Q`, and every run that
gives up does so in `X`. -/
def wp (E : Env S σ) (Q : α → σ → Prop) (X : ε → σ → Prop) : Prog S ε α → σ → Prop
  | .ret a, s => Q a s
  | .fail e, s => X e s
  | .ask o k, s => ∀ r s', E s o r s' → (k r).wp E Q X s'

section rules
variable (E : Env S σ) {Q Q' : α → σ → Prop} {X X' : ε → σ → Prop}

@[simp] theorem wp_ret (a : α) (s : σ) : (Prog.ret a).wp E Q X s ↔ Q a s := Iff.rfl
@[simp] theorem wp_fail (e : ε) (s : σ) : (Prog.fail e : Prog S ε α).wp E Q X s ↔ X e s := Iff.rfl
@[simp] theorem wp_ask (o : S.Op) (k : S.Res o → Prog S ε α) (s : σ) :
    (Prog.ask o k).wp E Q X s ↔ ∀ r s', E s o r s' → (k r).wp E Q X s' := Iff.rfl
@[simp] theorem wp_perform (o : S.Op) {Q : S.Res o → σ → Prop} (s : σ) :
    (perform o).wp E Q X s ↔ ∀ r s', E s o r s' → Q r s' := Iff.rfl

@[simp] theorem wp_bind (p : Prog S ε β) (f : β → Prog S ε α) (s : σ) :
    (p >>= f).wp E Q X s ↔ p.wp E (fun b => (f b).wp E Q X) X s := by
  induction p generalizing s with
  | ret a => rfl
  | fail e => rfl
  | ask o k ih => simp only [ask_bind, wp_ask, ih]

theorem wp_mono {p : Prog S ε α} {s : σ} (hQ : ∀ a s, Q a s → Q' a s)
    (hX : ∀ e s, X e s → X' e s) (h : p.wp E Q X s) : p.wp E Q' X' s := by
  induction p generalizing s with
  | ret a => exact hQ a s h
  | fail e => exact hX e s h
  | ask o k ih => exact fun r s' hr => ih r (h r s' hr)

theorem wp_ite {c : Prop} [Decidable c] {p q : Prog S ε α} {s : σ} (hp : c → p.wp E Q X s)
    (hq : ¬ c → q.wp E Q X s) : (if c then p else q).wp E Q X s := by
  split
  · exact hp ‹_›
  · exact hq ‹_›

theorem wp_and {p : Prog S ε α} {s : σ} (h : p.wp E Q X s) (h' : p.wp E Q' X' s) :
    p.wp E (fun a s => Q a s ∧ Q' a s) (fun e s => X e s ∧ X' e s) s := by
  induction p generalizing s with
  | ret a => exact ⟨h, h'⟩
  | fail e => exact ⟨h, h'⟩
  | ask o k ih => exact fun r s' hr => ih r (h r s' hr) (h' r s' hr)

theorem Runs.sound {p : Prog S ε α} {s s' : σ} {x : Except ε α} (hr : Runs E p s x s')
    (h : p.wp E Q X s) : (∀ a, x = .ok a → Q a s') ∧ ∀ e, x = .error e → X e s' := by
  induction hr with
  | ret a s => exact ⟨by rintro _ ⟨⟩; exact h, by rintro _ ⟨⟩⟩
  | fail e s => exact ⟨by rintro _ ⟨⟩, by rintro _ ⟨⟩; exact h⟩
  | ask ho _ ih => exact ih (h _ _ ho)

/-- `wp` speaks about all runs. -/
theorem wp_iff_runs (p : Prog S ε α) (s : σ) :
    p.wp E Q X s ↔
      (∀ a s', Runs E p s (.ok a) s' → Q a s') ∧ ∀ e s', Runs E p s (.error e) s' → X e s' := by
  constructor
  · exact fun h => ⟨fun a s' hr => (hr.sound E h).1 a rfl, fun e s' hr => (hr.sound E h).2 e rfl⟩
  · rintro ⟨ha, he⟩
    induction p generalizing s with
    | ret a => exact ha a s (.ret a s)
    | fail e => exact he e s (.fail e s)
    | ask o k ih =>
      exact fun r s' hr => ih r s' (fun a s'' h => ha a s'' (.ask hr h))
        (fun e s'' h => he e s'' (.ask hr h))

/-- A loop with an invariant and a variant: the rounds do not run out, and the
loop ends as its last round does. -/
theorem wp_loop_measure (I : β → σ → Prop) (m : β → σ → Nat) (e : ε) (body : β → Prog S ε (β ⊕ α))
    (hbody : ∀ b s, I b s → (body b).wp E (fun x s' => match x with
      | .inl b' => I b' s' ∧ m b' s' < m b s
      | .inr a => Q a s') X s)
    (n : Nat) (b : β) (s : σ) (hI : I b s) (hm : m b s < n) : (loop e body n b).wp E Q X s := by
  induction n generalizing b s with
  | zero => omega
  | succ n ih =>
    simp only [loop, wp_bind]
    refine wp_mono E ?_ (fun _ _ h => h) (hbody b s hI)
    intro x s' hx
    cases x with
    | inl b' => exact ih b' s' hx.1 (by have := hx.2; omega)
    | inr a => exact hx

/-- The same with a variant of the loop variables alone. -/
theorem wp_loop (I : β → σ → Prop) (m : β → Nat) (e : ε) (body : β → Prog S ε (β ⊕ α))
    (hbody : ∀ b s, I b s → (body b).wp E (fun x s' => match x with
      | .inl b' => I b' s' ∧ m b' < m b
      | .inr a => Q a s') X s)
    (n : Nat) (b : β) (s : σ) (hI : I b s) (hm : m b < n) : (loop e body n b).wp E Q X s :=
  wp_loop_measure E I (fun b _ => m b) e body hbody n b s hI hm

/-- A loop with an invariant only: it may also run out of rounds. -/
theorem wp_loop_partial (I : β → σ → Prop) (e : ε) (body : β → Prog S ε (β ⊕ α))
    (hbody : ∀ b s, I b s → (body b).wp E (fun x s' => match x with
      | .inl b' => I b' s'
      | .inr a => Q a s') X s)
    (hend : ∀ b s, I b s → X e s)
    (n : Nat) (b : β) (s : σ) (hI : I b s) : (loop e body n b).wp E Q X s := by
  induction n generalizing b s with
  | zero => exact hend b s hI
  | succ n ih =>
    simp only [loop, wp_bind]
    refine wp_mono E ?_ (fun _ _ h => h) (hbody b s hI)
    intro x s' hx
    cases x with
    | inl b' => exact ih b' s' hx
    | inr a => exact hx

end rules

/-- A lifted program runs as the original does in the restricted environment. -/
theorem wp_lift (E : Env T σ) (f : S.Op → T.Op) (g : ∀ o, T.Res (f o) → S.Res o)
    {Q : α → σ → Prop} {X : ε → σ → Prop} (p : Prog S ε α) (s : σ) :
    (p.lift f g).wp E Q X s ↔
      p.wp (fun s o r s' => ∃ r', g o r' = r ∧ E s (f o) r' s') Q X s := by
  induction p generalizing s with
  | ret a => rfl
  | fail e => rfl
  | ask o k ih =>
    simp only [lift, wp_ask, ih]
    constructor
    · rintro h _ s' ⟨r', rfl, hr⟩
      exact h r' s' hr
    · exact fun h r s' hr => h _ s' ⟨r, rfl, hr⟩

/-- Every question of `p` is in `P`, however it is answered, and what it returns is
in `R`. -/
def Asks (P : S.Op → Prop) (R : α → Prop) : Prog S ε α → Prop
  | .ret a => R a
  | .fail _ => True
  | .ask o k => P o ∧ ∀ r, (k r).Asks P R

section asks
variable {P : S.Op → Prop}

@[simp] theorem asks_ret {R : α → Prop} (a : α) : (Prog.ret a : Prog S ε α).Asks P R ↔ R a :=
  Iff.rfl
@[simp] theorem asks_ask {R : α → Prop} (o : S.Op) (k : S.Res o → Prog S ε α) :
    (Prog.ask o k).Asks P R ↔ P o ∧ ∀ r, (k r).Asks P R := Iff.rfl
@[simp] theorem asks_perform (o : S.Op) {R : S.Res o → Prop} :
    (perform o : Prog S ε (S.Res o)).Asks P R ↔ P o ∧ ∀ r, R r := Iff.rfl

@[simp] theorem asks_bind {R : α → Prop} (p : Prog S ε β) (f : β → Prog S ε α) :
    (p >>= f).Asks P R ↔ p.Asks P fun b => (f b).Asks P R := by
  induction p with
  | ret a => rfl
  | fail e => rfl
  | ask o k ih => simp only [ask_bind, asks_ask, ih]

theorem Asks.mono {R R' : α → Prop} {p : Prog S ε α} (h : p.Asks P R) (hR : ∀ a, R a → R' a) :
    p.Asks P R' := by
  induction p with
  | ret a => exact hR a h
  | fail e => trivial
  | ask o k ih => exact ⟨h.1, fun r => ih r (h.2 r)⟩

theorem Asks.widen {P' : S.Op → Prop} {R : α → Prop} {p : Prog S ε α} (h : p.Asks P R)
    (hP : ∀ o, P o → P' o) : p.Asks P' R := by
  induction p with
  | ret a => exact h
  | fail e => trivial
  | ask o k ih => exact ⟨hP o h.1, fun r => ih r (h.2 r)⟩

theorem asks_ite {c : Prop} [Decidable c] {R : α → Prop} {p q : Prog S ε α}
    (hp : c → p.Asks P R) (hq : ¬ c → q.Asks P R) : (if c then p else q).Asks P R := by
  split
  · exact hp ‹_›
  · exact hq ‹_›

theorem asks_loop {R : α → Prop} (I : β → Prop) (e : ε) (body : β → Prog S ε (β ⊕ α))
    (hbody : ∀ b, I b → (body b).Asks P fun x => match x with
      | .inl b' => I b'
      | .inr a => R a)
    (n : Nat) (b : β) (hI : I b) : (loop e body n b).Asks P R := by
  induction n generalizing b with
  | zero => trivial
  | succ n ih =>
    simp only [loop, asks_bind]
    apply Asks.mono (hbody b hI)
    intro x hx
    cases x with
    | inl b' => exact ih b' hx
    | inr a => exact hx

theorem asks_anything (p : Prog S ε α) : p.Asks (fun _ => True) fun _ => True := by
  induction p with
  | ret a => trivial
  | fail e => trivial
  | ask o k ih => exact ⟨trivial, ih⟩

/-- What all the questions of `P` keep is kept by a program that asks no others. -/
theorem Asks.invariant {E : Env S σ} {R : α → Prop} {p : Prog S ε α} (hp : p.Asks P R)
    (I : σ → Prop) (hI : ∀ s o r s', P o → I s → E s o r s' → I s') {s : σ} (hs : I s) :
    p.wp E (fun a s' => R a ∧ I s') (fun _ s' => I s') s := by
  induction p generalizing s with
  | ret a => exact ⟨hp, hs⟩
  | fail e => exact hs
  | ask o k ih => exact fun r s' hr => ih r (hp.2 r) (hI s o r s' hp.1 hs hr)

theorem Asks.result {E : Env S σ} {R : α → Prop} {p : Prog S ε α} (hp : p.Asks P R) {s s' : σ}
    {a : α} (hr : Runs E p s (.ok a) s') : R a := by
  have hwp := hp.invariant (E := E) (fun _ => True) (fun _ _ _ _ _ _ _ => trivial) (s := s) trivial
  exact ((hr.sound E hwp).1 a rfl).1

theorem Asks.lift {f : S.Op → T.Op} {g : ∀ o, T.Res (f o) → S.Res o} {P : T.Op → Prop}
    {R : α → Prop} {p : Prog S ε α} (h : p.Asks (fun o => P (f o)) R) :
    (Prog.lift f g p).Asks P R := by
  induction p with
  | ret a => exact h
  | fail e => trivial
  | ask o k ih => exact ⟨h.1, fun r => ih (g o r) (h.2 (g o r))⟩

/-- A program may be studied in the environment `E` on the states `σ` and run in
`E'` on the states `τ`, where `E` simulates `E'` on the questions it asks. -/
theorem Asks.sim {τ : Type} {E : Env S σ} {E' : Env S τ} {R : α → Prop} {p : Prog S ε α}
    (hp : p.Asks P R) (Sim : σ → τ → Prop)
    (hSim : ∀ s t o r t', P o → Sim s t → E' t o r t' → ∃ s', E s o r s' ∧ Sim s' t')
    {Q : α → σ → Prop} {X : ε → σ → Prop} {s : σ} {t : τ} (h : Sim s t) (hwp : p.wp E Q X s) :
    p.wp E' (fun a t' => ∃ s', Sim s' t' ∧ Q a s') (fun e t' => ∃ s', Sim s' t' ∧ X e s') t := by
  induction p generalizing s t with
  | ret a => exact ⟨s, h, hwp⟩
  | fail e => exact ⟨s, h, hwp⟩
  | ask o k ih =>
    intro r t' ht
    obtain ⟨s', hs, h'⟩ := hSim s t o r t' hp.1 h ht
    exact ih r (hp.2 r) h' (hwp r s' hs)

end asks

/-- The same, where `E` simulates all of `E'`. -/
theorem wp_sim {τ : Type} {E : Env S σ} {E' : Env S τ} (R : σ → τ → Prop)
    (hR : ∀ s t o r t', R s t → E' t o r t' → ∃ s', E s o r s' ∧ R s' t')
    {Q : α → σ → Prop} {X : ε → σ → Prop} {p : Prog S ε α} {s : σ} {t : τ}
    (h : R s t) (hp : p.wp E Q X s) :
    p.wp E' (fun a t' => ∃ s', R s' t' ∧ Q a s') (fun e t' => ∃ s', R s' t' ∧ X e s') t :=
  (asks_anything p).sim R (fun s t o r t' _ => hR s t o r t') h hp

theorem wp_env_mono {E E' : Env S σ} (hE : ∀ s o r s', E' s o r s' → E s o r s')
    {Q : α → σ → Prop} {X : ε → σ → Prop} {p : Prog S ε α} {s : σ} (hp : p.wp E Q X s) :
    p.wp E' Q X s := by
  refine wp_mono E' ?_ ?_ (wp_sim Eq (fun s t o r t' h ht => ⟨t', h ▸ hE _ _ _ _ ht, rfl⟩) rfl hp)
  · rintro a _ ⟨s', rfl, h⟩
    exact h
  · rintro e _ ⟨s', rfl, h⟩
    exact h

/-! ## Possible runs -/

/-- Some run of `p` from `s` returns, and does so in `Q`. -/
def Can (E : Env S σ) (Q : α → σ → Prop) (p : Prog S ε α) (s : σ) : Prop :=
  ∃ a s', Runs E p s (.ok a) s' ∧ Q a s'

section can
variable {E : Env S σ} {Q : α → σ → Prop}

theorem Runs.bind {p : Prog S ε β} {f : β → Prog S ε α} {s s' s'' : σ} {b : β} {x : Except ε α}
    (hp : Runs E p s (.ok b) s') (hf : Runs E (f b) s' x s'') : Runs E (p >>= f) s x s'' := by
  generalize hok : (Except.ok b : Except ε β) = y at hp
  induction hp with
  | ret a s =>
    cases hok
    exact hf
  | fail e s => cases hok
  | ask ho _ ih => exact .ask ho (ih hf hok)

/-- A run of two programs in sequence is one of the first, and one of the second. -/
theorem Runs.unbind {p : Prog S ε β} {f : β → Prog S ε α} {s s'' : σ} {a : α}
    (h : Runs E (p >>= f) s (.ok a) s'') :
    ∃ b s', Runs E p s (.ok b) s' ∧ Runs E (f b) s' (.ok a) s'' := by
  induction p generalizing s with
  | ret b => exact ⟨b, s, .ret b s, h⟩
  | fail e => cases h
  | ask o k ih =>
    cases h with
    | ask ho hk =>
      obtain ⟨b, s', hp, hf⟩ := ih _ hk
      exact ⟨b, s', .ask ho hp, hf⟩

theorem can_ret {a : α} {s : σ} (h : Q a s) : (Prog.ret a : Prog S ε α).Can E Q s :=
  ⟨a, s, .ret a s, h⟩

theorem can_ask {o : S.Op} {k : S.Res o → Prog S ε α} {s s' : σ} {r : S.Res o} (ho : E s o r s')
    (hk : (k r).Can E Q s') : (Prog.ask o k).Can E Q s := by
  obtain ⟨a, s'', hrun, hQ⟩ := hk
  exact ⟨a, s'', .ask ho hrun, hQ⟩

theorem Can.bind {p : Prog S ε β} {f : β → Prog S ε α} {R : β → σ → Prop} {s : σ}
    (hp : p.Can E R s) (hf : ∀ b s', R b s' → (f b).Can E Q s') : (p >>= f).Can E Q s := by
  obtain ⟨b, s', hrun, hR⟩ := hp
  obtain ⟨a, s'', hrun', hQ⟩ := hf b s' hR
  exact ⟨a, s'', hrun.bind hrun', hQ⟩

/-- A loop whose rounds can each be run and decrease `m`. -/
theorem can_loop (I : β → σ → Prop) (m : β → Nat) (e : ε) (body : β → Prog S ε (β ⊕ α))
    (hbody : ∀ b s, I b s → (body b).Can E (fun x s' => match x with
      | .inl b' => I b' s' ∧ m b' < m b
      | .inr a => Q a s') s)
    (n : Nat) (b : β) (s : σ) (hI : I b s) (hm : m b < n) : (loop e body n b).Can E Q s := by
  induction n generalizing b s with
  | zero => omega
  | succ n ih =>
    apply (hbody b s hI).bind
    intro x s' hx
    cases x with
    | inl b' => exact ih b' s' hx.1 (by have := hx.2; omega)
    | inr a => exact can_ret hx

/-- Where every question of `P` has an answer that keeps `I`, a program that asks no
others has a run, and what holds after all its runs holds after that one. -/
theorem Asks.can_within {P : S.Op → Prop} {R : α → Prop} {p : Prog S ε α} (hp : p.Asks P R)
    (I : σ → Prop) (hE : ∀ s o, P o → I s → ∃ r s', E s o r s' ∧ I s') {s : σ} (hs : I s)
    (hwp : p.wp E Q (fun _ _ => False) s) : p.Can E Q s := by
  induction p generalizing s with
  | ret a => exact can_ret hwp
  | fail e => exact hwp.elim
  | ask o k ih =>
    obtain ⟨r, s', hr, hs'⟩ := hE s o hp.1 hs
    exact can_ask hr (ih r (hp.2 r) hs' (hwp r s' hr))

theorem Asks.can {P : S.Op → Prop} {R : α → Prop} {p : Prog S ε α} (hp : p.Asks P R)
    (hE : ∀ s o, P o → ∃ r s', E s o r s') {s : σ} (hwp : p.wp E Q (fun _ _ => False) s) :
    p.Can E Q s := by
  apply hp.can_within (fun _ => True) ?_ trivial hwp
  intro s o ho _
  obtain ⟨r, s', hr⟩ := hE s o ho
  exact ⟨r, s', hr, trivial⟩

/-- A run of `E` is a run of an environment that can follow it. -/
theorem Asks.can_sim {τ : Type} {E' : Env S τ} {P : S.Op → Prop} {R : α → Prop}
    {p : Prog S ε α} (hp : p.Asks P R) (Sim : σ → τ → Prop)
    (hSim : ∀ s t o r s', P o → Sim s t → E s o r s' → ∃ t', E' t o r t' ∧ Sim s' t')
    {s : σ} {t : τ} (h : Sim s t) (hcan : p.Can E Q s) :
    p.Can E' (fun a t' => ∃ s', Sim s' t' ∧ Q a s') t := by
  obtain ⟨a, s', hrun, hQ⟩ := hcan
  generalize hok : (Except.ok a : Except ε α) = x at hrun
  induction hrun generalizing t with
  | ret b s =>
    cases hok
    exact can_ret ⟨s, h, hQ⟩
  | fail e s => cases hok
  | ask ho _ ih =>
    obtain ⟨t', ht, h'⟩ := hSim _ _ _ _ _ hp.1 h ho
    exact can_ask ht (ih (hp.2 _) h' hQ hok)

end can

/-! ## Programs that return -/

/-- Any answer is possible, and nothing is remembered. -/
def everything : Env S Unit := fun _ _ _ _ => True

/-- However it is answered, `p` gives up only with an error in `X`. -/
def FailsIn (X : ε → Prop) (p : Prog S ε α) : Prop :=
  p.wp everything (fun _ _ => True) (fun e _ => X e) ()

/-- However it is answered, `p` does not give up. -/
abbrev Returns (p : Prog S ε α) : Prop := p.FailsIn fun _ => False

section returns
variable {X : ε → Prop}

theorem FailsIn.wp {p : Prog S ε α} (h : p.FailsIn X) (E : Env S σ) (s : σ) :
    p.wp E (fun _ _ => True) (fun e _ => X e) s := by
  refine wp_mono E (fun _ _ _ => trivial) ?_
    (wp_sim (fun _ _ => True) (fun _ _ _ _ _ _ _ => ⟨(), trivial, trivial⟩) trivial h)
  rintro e _ ⟨_, -, he⟩
  exact he

theorem failsIn_ret (a : α) : (Prog.ret a : Prog S ε α).FailsIn X := trivial

theorem failsIn_perform (o : S.Op) : (perform o : Prog S ε (S.Res o)).FailsIn X :=
  fun _ _ _ => trivial

theorem FailsIn.bind {p : Prog S ε β} {f : β → Prog S ε α} (hp : p.FailsIn X)
    (hf : ∀ b, (f b).FailsIn X) : (p >>= f).FailsIn X := by
  rw [FailsIn, wp_bind]
  exact wp_mono _ (fun b _ _ => hf b) (fun _ _ h => h) hp

theorem FailsIn.mono {Y : ε → Prop} {p : Prog S ε α} (h : p.FailsIn X) (hXY : ∀ e, X e → Y e) :
    p.FailsIn Y := wp_mono _ (fun _ _ h => h) (fun e _ => hXY e) h

/-- A loop whose rounds return and decrease `m`, as long as `I` holds. -/
theorem returns_loop (I : β → Prop) (m : β → Nat) (e : ε) (body : β → Prog S ε (β ⊕ α))
    (hbody : ∀ b, I b → (body b).wp everything (fun x _ => match x with
      | .inl b' => I b' ∧ m b' < m b
      | .inr _ => True) (fun _ _ => False) ())
    (n : Nat) (b : β) (hI : I b) (hm : m b < n) : (loop e body n b).Returns :=
  wp_loop everything (fun b _ => I b) m e body (fun b _ hI => hbody b hI) n b () hI hm

/-- A loop that may also run out of rounds. -/
theorem failsIn_loop (e : ε) (he : X e) (body : β → Prog S ε (β ⊕ α))
    (hbody : ∀ b, (body b).FailsIn X) (n : Nat) (b : β) : (loop e body n b).FailsIn X := by
  refine wp_loop_partial everything (fun _ _ => True) e body ?_ (fun _ _ _ => he) n b () trivial
  intro b s _
  refine wp_mono _ ?_ (fun _ _ h => h) (hbody b)
  intro x _ _
  cases x <;> trivial

end returns

/-! ## What sequencing keeps -/

/-- `K` holds of programs put together from the questions in `P` and the errors in `F`. -/
structure Sequential (K : (α : Type) → Prog S ε α → Prop) (P : S.Op → Prop) (F : ε → Prop) :
    Prop where
  ret : ∀ {α : Type} (a : α), K α (.ret a)
  bind : ∀ {α β : Type} {p : Prog S ε α} {f : α → Prog S ε β}, K α p → (∀ a, K β (f a)) →
    K β (p >>= f)
  perform : ∀ o, P o → K (S.Res o) (perform o)
  fail : ∀ {α : Type} (e : ε), F e → K α (.fail e)

section sequential
variable {K : (α : Type) → Prog S ε α → Prop} {P : S.Op → Prop} {F : ε → Prop}

theorem Sequential.loop (h : Sequential K P F) (e : ε) (he : F e) (body : β → Prog S ε (β ⊕ α))
    (hbody : ∀ b, K _ (body b)) (n : Nat) (b : β) : K α (loop e body n b) := by
  induction n generalizing b with
  | zero => exact h.fail e he
  | succ n ih =>
    refine h.bind (hbody b) fun x => ?_
    cases x with
    | inl b' => exact ih b'
    | inr a => exact h.ret a

/-- A lifted program is put together from its questions, if it may fail as it does. -/
theorem Sequential.lift {f : T.Op → S.Op} {g : ∀ o, S.Res (f o) → T.Res o} (h : Sequential K P F)
    (hf : ∀ o, P (f o)) {p : Prog T ε α} (hp : p.FailsIn F) : K α (p.lift f g) := by
  induction p with
  | ret a => exact h.ret a
  | fail e => exact h.fail e hp
  | ask o k ih => exact h.bind (h.perform (f o) (hf o)) fun r => ih _ (hp _ () trivial)

/-- An invariant of the single steps is kept by programs. -/
theorem sequential_invariant (E : Env S σ) (I : σ → Prop) (X : ε → σ → Prop)
    (hstep : ∀ s o r s', P o → I s → E s o r s' → I s') (hfail : ∀ e s, F e → I s → X e s) :
    Sequential (fun _ (p : Prog S ε _) => ∀ s, I s → p.wp E (fun _ => I) X s) P F where
  ret := fun _ _ hs => hs
  bind := by
    intro α β p f hp hf s hs
    rw [wp_bind]
    exact wp_mono E (fun a s' hs' => hf a s' hs') (fun _ _ h => h) (hp s hs)
  perform := fun o ho s hs r s' hE => hstep s o r s' ho hs hE
  fail := fun e he s hs => hfail e s he hs

end sequential

/-! ## Traces -/

/-- A question with its answer. -/
abbrev Event (S : Sig) := Sigma S.Res

/-- The environment that answers anything, and records what was asked. -/
def anything : Env S (List (Event S)) := fun s o r s' => s' = s ++ [⟨o, r⟩]

/-- `E`, with what is asked and answered on record. -/
def recorded (E : Env S σ) : Env S (σ × List (Event S)) :=
  fun x o r y => E x.1 o r y.1 ∧ y.2 = x.2 ++ [⟨o, r⟩]

theorem Runs.trace {E : Env S σ} {p : Prog S ε α} {s s' : σ × List (Event S)} {x : Except ε α}
    (h : Runs (recorded E) p s x s') : Runs anything p s.2 x s'.2 := by
  induction h with
  | ret a s => exact .ret a s.2
  | fail e s => exact .fail e s.2
  | ask ho _ ih => exact .ask ho.2 ih

theorem Runs.record {E : Env S σ} {p : Prog S ε α} {s s' : σ} {x : Except ε α}
    (h : Runs E p s x s') (tr : List (Event S)) :
    ∃ tr', Runs (recorded E) p (s, tr) x (s', tr') := by
  induction h generalizing tr with
  | ret a s => exact ⟨tr, .ret a _⟩
  | fail e s => exact ⟨tr, .fail e _⟩
  | ask ho _ ih =>
    obtain ⟨tr', h⟩ := ih (tr ++ [⟨_, _⟩])
    exact ⟨tr', .ask ⟨ho, rfl⟩ h⟩

theorem Runs.forget {E : Env S σ} {p : Prog S ε α} {s s' : σ × List (Event S)} {x : Except ε α}
    (h : Runs (recorded E) p s x s') : Runs E p s.1 x s'.1 := by
  induction h with
  | ret a s => exact .ret a s.1
  | fail e s => exact .fail e s.1
  | ask ho _ ih => exact .ask ho.1 ih

theorem Runs.extends {E : Env S σ} {p : Prog S ε α} {s s' : σ × List (Event S)} {x : Except ε α}
    (h : Runs (recorded E) p s x s') : s.2 <+: s'.2 := by
  induction h with
  | ret a s => exact List.prefix_refl _
  | fail e s => exact List.prefix_refl _
  | ask ho _ ih =>
    rw [ho.2] at ih
    exact (List.prefix_append _ _).trans ih

/-- What was asked before makes no difference. -/
theorem wp_anything_append {Q : α → List (Event S) → Prop} {X : ε → List (Event S) → Prop}
    {p : Prog S ε α} {tr : List (Event S)} (h : p.wp anything Q X tr) (before : List (Event S)) :
    p.wp anything (fun a tr' => ∃ mine, tr' = before ++ mine ∧ Q a mine)
      (fun e tr' => ∃ mine, tr' = before ++ mine ∧ X e mine) (before ++ tr) := by
  induction p generalizing tr with
  | ret a => exact ⟨tr, rfl, h⟩
  | fail e => exact ⟨tr, rfl, h⟩
  | ask o k ih =>
    rintro r _ rfl
    rw [List.append_assoc]
    exact ih r (h r _ rfl)

/-- The environment that answers each question in one fixed way. -/
def answering (answer : (o : S.Op) → S.Res o) : Env S (List (Event S)) :=
  fun s o r s' => r = answer o ∧ s' = s ++ [⟨o, r⟩]

/-- The trace of `p` when each question is answered in one fixed way. -/
def execAnswering (answer : (o : S.Op) → S.Res o) (p : Prog S ε α) :
    Except ε α × List (Event S) :=
  p.exec (fun s o => (answer o, s ++ [⟨o, answer o⟩])) []

theorem runs_answering (answer : (o : S.Op) → S.Res o) (p : Prog S ε α) :
    Runs (answering answer) p [] (p.execAnswering answer).1 (p.execAnswering answer).2 :=
  runs_exec (answering answer) _ (fun _ _ => ⟨rfl, rfl⟩) p []

theorem runs_anything_of_answering {answer : (o : S.Op) → S.Res o} {p : Prog S ε α}
    {s s' : List (Event S)} {x : Except ε α} (h : Runs (answering answer) p s x s') :
    Runs anything p s x s' :=
  h.mono fun _ _ _ _ h => h.2

/-- A trace is only ever extended. -/
theorem answering_grows (answer : (o : S.Op) → S.Res o) (p : Prog S ε α) (tr : List (Event S)) :
    p.wp (answering answer) (fun _ tr' => tr <+: tr') (fun _ tr' => tr <+: tr') tr := by
  induction p generalizing tr with
  | ret a => exact List.prefix_refl _
  | fail e => exact List.prefix_refl _
  | ask o k ih =>
    rintro r _ ⟨rfl, rfl⟩
    have hstep : tr <+: tr ++ [⟨o, answer o⟩] := List.prefix_append _ _
    exact wp_mono _ (fun _ _ h => hstep.trans h) (fun _ _ h => hstep.trans h) (ih _ _)

end Prog

end OpenTricore.Lib
