import Mathlib.Logic.Relation
import OpenTricore.Lib.Prog

/-! A program beside another party. The other party moves by steps of its own, as
many as it likes before each question of the program, and what is known of the
state has to survive them. -/

namespace OpenTricore.Lib.Prog

variable {S : Sig} {ε α σ τ : Type} {step : σ → σ → Prop}

/-- Any number of steps of the other party, then the question. -/
def interleave (step : σ → σ → Prop) (E : Env S σ) : Env S σ :=
  fun s o r s' => ∃ s₁, Relation.ReflTransGen step s s₁ ∧ E s₁ o r s'

/-- The other party keeps `I`. -/
def Stable (step : σ → σ → Prop) (I : σ → Prop) : Prop := ∀ s s', I s → step s s' → I s'

theorem Stable.steps {I : σ → Prop} (h : Stable step I) {s s' : σ} (hI : I s)
    (hs : Relation.ReflTransGen step s s') : I s' := by
  induction hs with
  | refl => exact hI
  | tail _ hstep ih => exact h _ _ ih hstep

theorem Stable.and {I J : σ → Prop} (hI : Stable step I) (hJ : Stable step J) :
    Stable step fun s => I s ∧ J s :=
  fun s s' h hs => ⟨hI s s' h.1 hs, hJ s s' h.2 hs⟩

/-- A question asked in a stable situation. -/
theorem interleave_cases {E : Env S σ} {I : σ → Prop} (hI : Stable step I) {s s' : σ} {o : S.Op}
    {r : S.Res o} (hs : I s) (h : interleave step E s o r s') : ∃ s₁, I s₁ ∧ E s₁ o r s' := by
  obtain ⟨s₁, hsteps, hE⟩ := h
  exact ⟨s₁, hI.steps hs hsteps, hE⟩

/-- If each step of the other party is matched by some abstract steps, and each
answer by an abstract answer, then the abstract system simulates the other. -/
theorem interleave_sim {step' : τ → τ → Prop} {E : Env S σ} {E' : Env S τ} {P : S.Op → Prop}
    (Sim : σ → τ → Prop)
    (hstep : ∀ s t t', Sim s t → step' t t' → ∃ s', Relation.ReflTransGen step s s' ∧ Sim s' t')
    (hask : ∀ s t o r t', P o → Sim s t → E' t o r t' → ∃ s', E s o r s' ∧ Sim s' t')
    (s : σ) (t : τ) (o : S.Op) (r : S.Res o) (t' : τ) (ho : P o) (h : Sim s t)
    (ht : interleave step' E' t o r t') : ∃ s', interleave step E s o r s' ∧ Sim s' t' := by
  obtain ⟨t₁, hsteps, hE⟩ := ht
  have hs₁ : ∃ s₁, Relation.ReflTransGen step s s₁ ∧ Sim s₁ t₁ := by
    clear hE
    induction hsteps with
    | refl => exact ⟨s, .refl, h⟩
    | tail _ hlast ih =>
      obtain ⟨s₁, hs, hsim⟩ := ih
      obtain ⟨s₂, hs', hsim'⟩ := hstep _ _ _ hsim hlast
      exact ⟨s₂, hs.trans hs', hsim'⟩
  obtain ⟨s₁, hs, hsim⟩ := hs₁
  obtain ⟨s', hE', hsim'⟩ := hask _ _ _ _ _ ho hsim hE
  exact ⟨s', ⟨s₁, hs, hE'⟩, hsim'⟩

/-- The other party may have come further before the first question. -/
theorem Runs.later {E : Env S σ} {o : S.Op} {k : S.Res o → Prog S ε α} {s s₁ s' : σ}
    {x : Except ε α} (hsteps : Relation.ReflTransGen step s s₁)
    (h : Runs (interleave step E) (.ask o k) s₁ x s') :
      Runs (interleave step E) (.ask o k) s x s' := by
  cases h with
  | ask hE hk =>
    obtain ⟨s₂, hsteps', hE⟩ := hE
    exact .ask ⟨s₂, hsteps.trans hsteps', hE⟩ hk

/-- A party that can always go on, and comes closer each time, arrives. -/
theorem exists_arrival {I Goal : σ → Prop} (m : σ → Nat)
    (h : ∀ s, I s → ¬ Goal s → ∃ s', step s s' ∧ I s' ∧ m s' < m s) (s : σ) (hs : I s) :
    ∃ s', Relation.ReflTransGen step s s' ∧ I s' ∧ Goal s' := by
  induction hn : m s using Nat.strongRecOn generalizing s with
  | ind n ih =>
    by_cases hgoal : Goal s
    · exact ⟨s, .refl, hs, hgoal⟩
    · obtain ⟨s₁, hstep, hI, hlt⟩ := h s hs hgoal
      obtain ⟨s', hsteps, hI', hG⟩ := ih (m s₁) (by omega) s₁ hI rfl
      exact ⟨s', .head hstep hsteps, hI', hG⟩

/-! ## A server beside a program -/

section server
variable {β π : Type}

/-- A step of a server, which runs its body over and over: it asks, or it starts again with
what the body returned. -/
inductive Serves (E : Env S σ) (body : β → Prog S Empty β) :
    σ × Prog S Empty β → σ × Prog S Empty β → Prop
  | ask {s s' : σ} {o : S.Op} {k : S.Res o → Prog S Empty β} {r : S.Res o} :
      E s o r s' → Serves E body (s, .ask o k) (s', k r)
  | again (s : σ) (b : β) : Serves E body (s, .ret b) (s, body b)

/-- The program's questions leave the server where it is. -/
def beside (E : Env S σ) : Env S (σ × τ) := fun s o r s' => E s.1 o r s'.1 ∧ s'.2 = s.2

/-- The program and the server take turns, question by question, on one shared state. -/
def withServer (E : Env S σ) (body : β → Prog S Empty β) : Env S (σ × Prog S Empty β) :=
  interleave (Serves E body) (beside E)

/-- `I` holds, with the server at one of the named places. -/
def AtPlace (code : π → Prog S Empty β) (I : σ → π → Prop) (s : σ × Prog S Empty β) : Prop :=
  ∃ p, s.2 = code p ∧ I s.1 p

theorem AtPlace.mono {code : π → Prog S Empty β} {I J : σ → π → Prop} {s : σ × Prog S Empty β}
    (h : AtPlace code I s) (hIJ : ∀ t p, I t p → J t p) : AtPlace code J s := by
  obtain ⟨p, hp, hI⟩ := h
  exact ⟨p, hp, hIJ _ _ hI⟩

/-- What every step from a named place keeps is stable. -/
theorem stable_atPlace {E : Env S σ} {body : β → Prog S Empty β} {code : π → Prog S Empty β}
    {I : σ → π → Prop}
    (h : ∀ s p s' q, I s p → Serves E body (s, code p) (s', q) → ∃ p', q = code p' ∧ I s' p') :
    Stable (Serves E body) (AtPlace code I) := by
  rintro ⟨s, _⟩ ⟨s', q⟩ ⟨p, rfl, hI⟩ hstep
  exact h s p s' q hI hstep

end server

end OpenTricore.Lib.Prog
