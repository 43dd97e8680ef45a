import Mathlib.Data.List.Induction

/-!
# Logs of events

A log grows at its end. What each event met when it was logged is checked once,
as the event is appended.
-/

namespace Smalltalk

open List

variable {Event : Type*}

def Always (P : List Event → Event → Prop) (log : List Event) : Prop :=
  ∀ before event after, log = before ++ event :: after → P before event

variable {P : List Event → Event → Prop} {log : List Event} {e : Event}

theorem always_nil : Always P [] := by
  intro before e after h
  simp at h

theorem Always.concat (h : Always P log) (he : P log e) : Always P (log ++ [e]) := by
  intro before l after hl
  cases after using List.reverseRecOn with
  | nil =>
    obtain ⟨rfl, hs⟩ := append_inj' hl rfl
    cases hs
    exact he
  | append_singleton after f _ =>
    have hi : log ++ [e] = (before ++ l :: after) ++ [f] := by simp [hl]
    exact h before l after (append_inj' hi rfl).1

def Stretches (Q : List Event → List Event → Prop) (log : List Event) : Prop :=
  ∀ before stretch, before ++ stretch <+: log → Q before stretch

theorem Stretches.concat {Q : List Event → List Event → Prop}
    (h : Stretches Q log) (he : ∀ before s, before ++ s = log ++ [e] → Q before s) :
    Stretches Q (log ++ [e]) := by
  intro before s hs
  rcases prefix_concat_iff.mp hs with heq | hh
  · exact he before s heq
  · exact h before s hh

/-- A stretch up to the end of a longer log either is empty or ends with the new event. -/
theorem append_eq_concat {before s : List Event} (h : before ++ s = log ++ [e]) :
    (before = log ++ [e] ∧ s = []) ∨ ∃ f, s = f ++ [e] ∧ before ++ f = log := by
  cases s using List.reverseRecOn with
  | nil => exact .inl ⟨by simpa using h, rfl⟩
  | append_singleton f l _ =>
    rw [← append_assoc] at h
    obtain ⟨hl, hs⟩ := append_inj' h rfl
    cases hs
    exact .inr ⟨f, rfl, hl⟩

end Smalltalk
