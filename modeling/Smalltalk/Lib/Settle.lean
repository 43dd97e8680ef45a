import Mathlib.Logic.Function.Iterate
import Mathlib.Order.Lattice

/-!
# Iterating a step until it settles

`settle f limit x` runs `f` from `x` for at most `limit` rounds. It stops at a fixed point,
and when a round gives back the value before the current one. Whatever stops it, the meet of
what it ends with is that of the last two of `limit` rounds.
-/

namespace Smalltalk

open Function

/-- How an iteration ended: at a fixed point, or with its last two values
(one only, when it made no round). -/
inductive Outcome (α : Type) where
  | fixed (current : α)
  | open (previous : Option α) (current : α)

section
variable {α : Type} (f : α → α)

def settleFrom [DecidableEq α] : Nat → Option α → α → Outcome α
  | 0, previous, current => .open previous current
  | limit + 1, previous, current =>
    let next := f current
    if next = current then .fixed current
    else if previous = some next then .open previous current
    else settleFrom limit (some current) next

def settle [DecidableEq α] (limit : Nat) (x : α) : Outcome α := settleFrom f limit none x

def SettlesWithin (limit : Nat) (x : α) : Prop := ∃ i < limit, f^[i + 2] x = f^[i] x

variable [SemilatticeInf α] {f} {x : α}

def Outcome.meet : Outcome α → α
  | .fixed current => current
  | .open (some previous) current => current ⊓ previous
  | .open none current => current

theorem meet_iterate_of_period_two (h : f (f x) = x) (n : Nat) :
    f^[n + 1] x ⊓ f^[n] x = f x ⊓ x := by
  induction n with
  | zero => rfl
  | succ n ih =>
    have hn : f^[n + 2] x = f^[n] x := by
      rw [iterate_add_apply]; exact congrArg _ h
    rw [hn, inf_comm, ih]

/-- From the start of a cycle of length one or two on, neighbouring rounds have the same meet. -/
theorem meet_iterate_of_settled {i j : Nat} (h : f^[i + 2] x = f^[i] x) (hi : i ≤ j) :
    f^[j + 1] x ⊓ f^[j] x = f^[i + 1] x ⊓ f^[i] x := by
  have hp : f (f (f^[i] x)) = f^[i] x := by
    rw [← iterate_succ_apply' f, ← iterate_succ_apply' f]; exact h
  have := meet_iterate_of_period_two hp (j - i)
  rw [← iterate_add_apply, ← iterate_add_apply] at this
  rw [show j - i + 1 + i = j + 1 by omega, show j - i + i = j by omega] at this
  rw [this, iterate_succ_apply']

variable [DecidableEq α]

theorem meet_settleFrom (n : Nat) :
    ∀ p : α, (settleFrom f n (some p) (f p)).meet = f^[n + 1] p ⊓ f^[n] p := by
  induction n with
  | zero => intro p; rfl
  | succ n ih =>
    intro p
    rw [settleFrom]
    split
    · rename_i hf
      change f p = f^[n + 1] (f p) ⊓ f^[n] (f p)
      rw [iterate_fixed hf, iterate_fixed hf, inf_idem]
    split
    · rename_i hp
      rw [meet_iterate_of_period_two (Option.some.inj hp).symm, Outcome.meet]
    · exact ih (f p)

/-- However the iteration stopped, its result is the meet of the last two of `n + 1` rounds. -/
theorem meet_settle (n : Nat) (x : α) : (settle f (n + 1) x).meet = f^[n + 1] x ⊓ f^[n] x := by
  rw [settle, settleFrom]
  split
  · rename_i hf
    rw [iterate_fixed hf, iterate_fixed hf, inf_idem, Outcome.meet]
  · rw [if_neg (by simp)]
    exact meet_settleFrom n x

end

end Smalltalk
