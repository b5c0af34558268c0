import Mathlib.Data.List.Basic

/-! A queue: what is put in comes out in the same order, once. -/

namespace OpenTricore.Lib

inductive QueueOp (α : Type)
  | put (a : α)
  | take

namespace QueueOp
variable {α : Type}

def after (q : List α) : QueueOp α → List α
  | put a => q ++ [a]
  | take => q.tail

def answer (q : List α) : QueueOp α → Option α
  | put _ => none
  | take => q.head?

/-- The answers of a run, from `q` on. -/
def answers (q : List α) : List (QueueOp α) → List (Option α)
  | [] => []
  | o :: os => o.answer q :: answers (o.after q) os

/-- What is left after a run. -/
def rest (q : List α) : List (QueueOp α) → List α
  | [] => q
  | o :: os => rest (o.after q) os

def puts : List (QueueOp α) → List α
  | [] => []
  | put a :: os => a :: puts os
  | take :: os => puts os

/-- The queue never holds more than `n`. -/
def Within (n : Nat) (q : List α) : List (QueueOp α) → Prop
  | [] => q.length ≤ n
  | o :: os => q.length ≤ n ∧ Within n (o.after q) os

instance decidableWithin (n : Nat) : (q : List α) → (os : List (QueueOp α)) →
    Decidable (Within n q os)
  | q, [] => inferInstanceAs (Decidable (q.length ≤ n))
  | q, o :: os =>
    have := decidableWithin n (o.after q) os
    inferInstanceAs (Decidable (q.length ≤ n ∧ Within n (o.after q) os))

theorem Within.start {n : Nat} {q : List α} {os : List (QueueOp α)} (h : Within n q os) :
    q.length ≤ n := by
  cases os with
  | nil => exact h
  | cons o os => exact h.1

/-- Nothing is lost or duplicated, and the order is kept. -/
theorem conserved (q : List α) (os : List (QueueOp α)) :
    q ++ puts os = (answers q os).reduceOption ++ rest q os := by
  induction os generalizing q with
  | nil => exact List.append_nil q
  | cons o os ih =>
    cases o with
    | put a =>
      have h := ih (q ++ [a])
      rw [List.append_assoc] at h
      exact h
    | take =>
      cases q with
      | nil => exact ih []
      | cons a q => exact congrArg (a :: ·) (ih q)

/-- The answer in the middle of a run is that of what is left there. -/
theorem getElem?_answers (q : List α) (before : List (QueueOp α)) (o : QueueOp α)
    (later : List (QueueOp α)) :
    (answers q (before ++ o :: later))[before.length]? = some (o.answer (rest q before)) := by
  induction before generalizing q with
  | nil => rfl
  | cons o' before ih => exact ih (o'.after q)

end QueueOp

end OpenTricore.Lib
