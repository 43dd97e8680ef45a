import Mathlib

/-!
# Queued changes of a multiset

A queue of additions and removals that wait to be folded into a multiset. The queue is
sound when folding any beginning of it never removes what is not there.
-/

namespace Smalltalk

open Multiset

structure Change (α : Type*) where
  member : α
  removes : Bool
  deriving DecidableEq

section
variable {α : Type*}

def added (changes : List (Change α)) : Multiset α :=
  ofList ((changes.filter (!·.removes)).map (·.member))

def removed (changes : List (Change α)) : Multiset α :=
  ofList ((changes.filter (·.removes)).map (·.member))

@[simp] theorem added_nil : added ([] : List (Change α)) = 0 := rfl

@[simp] theorem removed_nil : removed ([] : List (Change α)) = 0 := rfl

theorem added_append (f second : List (Change α)) :
    added (f ++ second) = added f + added second := by
  simp [added]

theorem removed_append (f second : List (Change α)) :
    removed (f ++ second) = removed f + removed second := by
  simp [removed]

def signedSum {G : Type*} [AddCommGroup G] (weight : α → G) (changes : List (Change α)) : G :=
  (changes.map fun change => if change.removes then -weight change.member
    else weight change.member).sum

theorem signedSum_cons {G : Type*} [AddCommGroup G] (weight : α → G) (change : Change α)
    (changes : List (Change α)) :
    signedSum weight (change :: changes) =
      (if change.removes then -weight change.member else weight change.member) +
        signedSum weight changes := by
  simp [signedSum]

theorem signedSum_eq {G : Type*} [AddCommGroup G] (weight : α → G) (changes : List (Change α)) :
    signedSum weight changes + ((removed changes).map weight).sum =
      ((added changes).map weight).sum := by
  induction changes with
  | nil => simp [signedSum]
  | cons change changes ih =>
    obtain ⟨a, removes⟩ := change
    cases removes with
    | false =>
      have ha : added (⟨a, false⟩ :: changes) = a ::ₘ added changes := rfl
      have hr : removed (⟨a, false⟩ :: changes) = removed changes := rfl
      rw [ha, hr, map_cons, sum_cons, ← ih, signedSum_cons]
      exact add_assoc _ _ _
    | true =>
      have ha : added (⟨a, true⟩ :: changes) = added changes := rfl
      have hr : removed (⟨a, true⟩ :: changes) = a ::ₘ removed changes := rfl
      rw [ha, hr, map_cons, sum_cons, ← ih, signedSum_cons]
      simp only [if_true]
      abel

def SoundQueue (base : Multiset α) (changes : List (Change α)) : Prop :=
  ∀ n, removed (changes.take n) ≤ base + added (changes.take n)

variable {base : Multiset α} {changes : List (Change α)}

theorem SoundQueue.nil : SoundQueue base [] := fun n => by simp

section
variable (h : SoundQueue base changes)
include h

theorem SoundQueue.le : removed changes ≤ base + added changes := by
  have := h changes.length
  rwa [List.take_length] at this

theorem SoundQueue.snoc {change : Change α}
    (hs : removed (changes ++ [change]) ≤ base + added (changes ++ [change])) :
    SoundQueue base (changes ++ [change]) := by
  intro n
  rcases Nat.lt_or_ge changes.length n with hl | hle
  · rw [List.take_of_length_le (by simpa using hl)]
    exact hs
  · rw [List.take_append_of_le_length hle]
    exact h n

theorem SoundQueue.snoc_add (a : α) : SoundQueue base (changes ++ [⟨a, false⟩]) := by
  refine h.snoc ?_
  rw [added_append, removed_append, ← add_assoc]
  exact le_add_right (by simpa [removed] using h.le)

theorem SoundQueue.snoc_remove {a : α} (ha : removed changes + {a} ≤ base + added changes) :
    SoundQueue base (changes ++ [⟨a, true⟩]) := by
  refine h.snoc ?_
  rw [added_append, removed_append]
  simpa [added, removed] using ha

end

variable [DecidableEq α]

def afterChanges (base : Multiset α) (changes : List (Change α)) : Multiset α :=
  base + added changes - removed changes

theorem SoundQueue.after_add (h : SoundQueue base changes) (n : Nat) :
    afterChanges base (changes.take n) + removed (changes.take n) = base + added (changes.take n) :=
  tsub_add_cancel_of_le (h n)

theorem SoundQueue.drop (h : SoundQueue base changes) (n : Nat) :
    SoundQueue (afterChanges base (changes.take n)) (changes.drop n) := by
  intro m
  have ha := h (n + m)
  rw [List.take_add, added_append, removed_append, ← add_assoc, ← h.after_add n] at ha
  refine le_of_add_le_add_left (a := removed (changes.take n)) (ha.trans (le_of_eq ?_))
  abel

theorem SoundQueue.sum_after {G : Type*} [AddCommGroup G] (weight : α → G)
    (h : SoundQueue base changes) (n : Nat) :
    ((afterChanges base (changes.take n)).map weight).sum =
      (base.map weight).sum + signedSum weight (changes.take n) := by
  have hs := congrArg (fun m => (map weight m).sum) (h.after_add n)
  simp only [map_add, sum_add] at hs
  rw [← signedSum_eq weight (changes.take n), ← add_assoc] at hs
  exact add_right_cancel hs

end

end Smalltalk
