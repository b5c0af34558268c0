import Mathlib.Logic.Function.Basic
import OpenTricore.Lib.Interleave

/-! Many programs on one shared state. In each step one of them, any one, asks its next
question. A program is understood on its own: it relies on what the others may do to
the state, and guarantees what it does to it itself. -/

namespace OpenTricore.Lib.Prog
open Relation

variable {S : Sig} {ε α β σ ι : Type}

/-! ## One program among others -/

/-- While the others change the state as `R` says, each question of `p` changes it as `G`
says, and when `p` has returned, `Q` holds from then on. -/
def among (E : Env S σ) (R G : σ → σ → Prop) (Q : α → σ → Prop) (X : ε → σ → Prop) :
    Prog S ε α → σ → Prop
  | .ret a, s => ∀ s', ReflTransGen R s s' → Q a s'
  | .fail e, s => ∀ s', ReflTransGen R s s' → X e s'
  | .ask o k, s => ∀ s₁, ReflTransGen R s s₁ → ∀ r s₂, E s₁ o r s₂ →
      G s₁ s₂ ∧ (k r).among E R G Q X s₂

section among
variable {E : Env S σ} {R G : σ → σ → Prop} {Q Q' : α → σ → Prop} {X : ε → σ → Prop}

/-- What the others do leaves everything as it was. -/
theorem among_rely {p : Prog S ε α} {s s' : σ} (h : p.among E R G Q X s) (hs : R s s') :
    p.among E R G Q X s' := by
  cases p with
  | ret a => exact fun s'' h' => h s'' (.head hs h')
  | fail e => exact fun s'' h' => h s'' (.head hs h')
  | ask o k => exact fun s₁ h' => h s₁ (.head hs h')

theorem among_mono {p : Prog S ε α} {s : σ} (hQ : ∀ a s, Q a s → Q' a s)
    (h : p.among E R G Q X s) : p.among E R G Q' X s := by
  induction p generalizing s with
  | ret a => exact fun s' hs => hQ a s' (h s' hs)
  | fail e => exact h
  | ask o k ih =>
    intro s₁ hs r s₂ hE
    obtain ⟨hG, hk⟩ := h s₁ hs r s₂ hE
    exact ⟨hG, ih r hk⟩

theorem among_bind (p : Prog S ε β) {f : β → Prog S ε α} {s : σ}
    (h : p.among E R G (fun b s => (f b).among E R G Q X s) X s) :
    (p >>= f).among E R G Q X s := by
  induction p generalizing s with
  | ret b => exact h s .refl
  | fail e => exact h
  | ask o k ih =>
    intro s₁ hs r s₂ hE
    obtain ⟨hG, hk⟩ := h s₁ hs r s₂ hE
    exact ⟨hG, ih r hk⟩

/-- A question in a situation that the others keep. -/
theorem among_ask {I : σ → Prop} (hI : Stable R I) {o : S.Op} {k : S.Res o → Prog S ε α} {s : σ}
    (hs : I s) (h : ∀ s₁, I s₁ → ∀ r s₂, E s₁ o r s₂ → G s₁ s₂ ∧ (k r).among E R G Q X s₂) :
    (Prog.ask o k).among E R G Q X s :=
  fun s₁ hsteps => h s₁ (hI.steps hs hsteps)

/-- A program that is part of a larger signature. -/
theorem among_lift {T : Sig} {E' : Env T σ} {f : S.Op → T.Op} {g : ∀ o, T.Res (f o) → S.Res o}
    (hE : ∀ s o r s', E' s (f o) r s' → E s o (g o r) s') {p : Prog S ε α} {s : σ}
    (h : p.among E R G Q X s) : (p.lift f g).among E' R G Q X s := by
  induction p generalizing s with
  | ret a => exact h
  | fail e => exact h
  | ask o k ih =>
    intro s₁ hs r s₂ hr
    obtain ⟨hG, hk⟩ := h s₁ hs (g o r) s₂ (hE s₁ o r s₂ hr)
    exact ⟨hG, ih (g o r) hk⟩

theorem among_ret {I : σ → Prop} (hI : Stable R I) {a : α} {s : σ} (hs : I s)
    (h : ∀ s, I s → Q a s) : (Prog.ret a : Prog S ε α).among E R G Q X s :=
  fun s' hsteps => h s' (hI.steps hs hsteps)

/-- A run on its own: all steps are guaranteed. -/
theorem Runs.among {p : Prog S ε α} {s s' : σ} {x : Except ε α} (h : Runs E p s x s')
    (hp : p.among E R G Q X s) : ReflTransGen G s s' ∧ ∀ a, x = .ok a → Q a s' := by
  induction h with
  | ret a s =>
    refine ⟨.refl, ?_⟩
    rintro _ ⟨⟩
    exact hp s .refl
  | fail e s => exact ⟨.refl, fun a ha => by cases ha⟩
  | @ask o k s s' s'' r x hE _ ih =>
    obtain ⟨hG, hk⟩ := hp s .refl r s' hE
    obtain ⟨hsteps, hQ⟩ := ih hk
    exact ⟨.head hG hsteps, hQ⟩

theorem Runs.lift {T : Sig} {E' : Env T σ} {f : S.Op → T.Op} {g : ∀ o, T.Res (f o) → S.Res o}
    (hE : ∀ s o r s', E s o r s' → ∃ r', g o r' = r ∧ E' s (f o) r' s') {p : Prog S ε α} {s s' : σ}
    {x : Except ε α} (h : Runs E p s x s') : Runs E' (p.lift f g) s x s' := by
  induction h with
  | ret a s => exact .ret a s
  | fail e s => exact .fail e s
  | ask ho _ ih =>
    obtain ⟨r', rfl, hr⟩ := hE _ _ _ _ ho
    exact .ask hr ih

end among

/-! ## The programs together -/

/-- The party `i` asks its next question. -/
inductive Turn [DecidableEq ι] (E : ι → Env S σ) : σ × (ι → Prog S ε α) →
    σ × (ι → Prog S ε α) → Prop
  | ask {s s' : σ} {ps : ι → Prog S ε α} (i : ι) {o : S.Op} {k : S.Res o → Prog S ε α}
      {r : S.Res o} :
      ps i = .ask o k → E i s o r s' → Turn E (s, ps) (s', Function.update ps i (k r))

variable {E : ι → Env S σ} {R G : ι → σ → σ → Prop} {Q : ι → α → σ → Prop} {X : ι → ε → σ → Prop}

/-- Each party is understood in the state as it is. -/
def Together (E : ι → Env S σ) (R G : ι → σ → σ → Prop) (Q : ι → α → σ → Prop)
    (X : ι → ε → σ → Prop) (c : σ × (ι → Prog S ε α)) : Prop :=
  ∀ i, (c.2 i).among (E i) (R i) (G i) (Q i) (X i) c.1

/-- A party that has returned has done so in its postcondition. -/
theorem Together.returned {c : σ × (ι → Prog S ε α)} (h : Together E R G Q X c) {i : ι} {a : α}
    (hret : c.2 i = .ret a) : Q i a c.1 := by
  have hi := h i
  rw [hret] at hi
  exact hi c.1 .refl

variable [DecidableEq ι]

/-- One turn changes the state as the party whose turn it is guarantees. -/
theorem Together.turn (hfit : ∀ i j, i ≠ j → ∀ s s', G j s s' → R i s s')
    {c c' : σ × (ι → Prog S ε α)} (h : Together E R G Q X c) (hturn : Turn E c c') :
    Together E R G Q X c' ∧ ∃ i, G i c.1 c'.1 := by
  cases hturn with
  | @ask s s' ps i o k r hask hE =>
    have hi : (ps i).among (E i) (R i) (G i) (Q i) (X i) s := h i
    rw [hask] at hi
    obtain ⟨hG, hk⟩ := hi s .refl r s' hE
    refine ⟨fun j => ?_, i, hG⟩
    dsimp only
    by_cases hj : j = i
    · subst hj
      rw [Function.update_self]
      exact hk
    · rw [Function.update_of_ne hj]
      exact among_rely (h j) (hfit j i hj s s' hG)

/-- However the parties take turns, each stays understood, and what all guarantees keep is
kept. -/
theorem Together.turns (hfit : ∀ i j, i ≠ j → ∀ s s', G j s s' → R i s s') {I : σ → Prop}
    (hI : ∀ i, Stable (G i) I) {c c' : σ × (ι → Prog S ε α)} (h : Together E R G Q X c)
    (hs : I c.1) (hturns : ReflTransGen (Turn E) c c') : Together E R G Q X c' ∧ I c'.1 := by
  induction hturns with
  | refl => exact ⟨h, hs⟩
  | tail _ hturn ih =>
    obtain ⟨hnext, i, hG⟩ := ih.1.turn hfit hturn
    exact ⟨hnext, hI i _ _ ih.2 hG⟩

theorem bind_ret (p : Prog S ε α) : (p >>= .ret) = p := by
  induction p with
  | ret a => rfl
  | fail e => rfl
  | ask o k ih => simp only [ask_bind, ih]

/-- One party runs the first part of its program while the others wait. -/
theorem Runs.turns_bind {i : ι} {p : Prog S ε β} {f : β → Prog S ε α} {s s' : σ} {b : β}
    (h : Runs (E i) p s (.ok b) s') (ps : ι → Prog S ε α) (hp : ps i = p >>= f) :
    ReflTransGen (Turn E) (s, ps) (s', Function.update ps i (f b)) := by
  generalize hx : (Except.ok b : Except ε β) = x at h
  induction h generalizing ps with
  | ret c s =>
    cases hx
    have hsame : ps i = f b := hp
    rw [← hsame, Function.update_eq_self]
  | fail e s => cases hx
  | @ask o k s s' s'' r x hE _ ih =>
    have hrest := ih (Function.update ps i (k r >>= f)) (Function.update_self ..) hx
    rw [Function.update_idem] at hrest
    exact .head (.ask i hp hE) hrest

/-- One party runs to its end while the others wait. -/
theorem Runs.turns {i : ι} {p : Prog S ε α} {s s' : σ} {a : α} (h : Runs (E i) p s (.ok a) s')
    (ps : ι → Prog S ε α) (hp : ps i = p) :
    ReflTransGen (Turn E) (s, ps) (s', Function.update ps i (.ret a)) :=
  h.turns_bind ps (hp.trans (bind_ret p).symm)

end OpenTricore.Lib.Prog
