import Mathlib.Data.Option.Basic

/-!
# Labelled machines

A machine's step may be disabled. A run takes the labels of a list in order.
What every enabled step keeps, every run keeps.
-/

namespace Smalltalk

structure Machine (State Label : Type*) where
  step : State → Label → Option State

namespace Machine

variable {State Label : Type*} {m : Machine State Label} {s t : State}

def run (m : Machine State Label) : State → List Label → Option State
  | s, [] => some s
  | s, label :: labels => (m.step s label).bind fun t => m.run t labels

variable {label : Label} {labels : List Label}

theorem run_cons_eq_some :
    m.run s (label :: labels) = some t ↔ ∃ u, m.step s label = some u ∧
    m.run u labels = some t := by
  simp [run, Option.bind_eq_some_iff]

theorem run_singleton : m.run s [label] = m.step s label := by
  simp [run]

theorem run_append_eq_some {f second : List Label} :
    m.run s (f ++ second) = some t ↔ ∃ u, m.run s f = some u ∧ m.run u second = some t := by
  induction f generalizing s with
  | nil => simp [run]
  | cons label labels ih =>
    simp only [List.cons_append, run_cons_eq_some, ih]
    constructor
    · rintro ⟨u, hu, v, hv, ht⟩
      exact ⟨v, ⟨u, hu, hv⟩, ht⟩
    · rintro ⟨v, ⟨u, hu, hv⟩, ht⟩
      exact ⟨u, hu, v, hv, ht⟩

/-- A property that the steps by labels in `allowed` keep. -/
def Keeps (m : Machine State Label) (allowed : Label → Prop) (P : State → Prop) : Prop :=
  ∀ ⦃s label t⦄, allowed label → P s → m.step s label = some t → P t

theorem Keeps.run {a : Label → Prop} {P : State → Prop} (h : m.Keeps a P)
    (hb : ∀ label ∈ labels, a label) (hs : P s) (hr : m.run s labels = some t) : P t := by
  induction labels generalizing s with
  | nil =>
    cases hr
    exact hs
  | cons label labels ih =>
    obtain ⟨u, hu, hr⟩ := run_cons_eq_some.mp hr
    have hP := h (hb label List.mem_cons_self) hs hu
    exact ih (fun l hl => hb l (List.mem_cons_of_mem _ hl)) hP hr

def restrict (m : Machine State Label) (guard : State → Label → Bool) : Machine State Label where
  step s label := if guard s label then m.step s label else none

variable {g : State → Label → Bool}

theorem step_of_restrict
    (h : (m.restrict g).step s label = some t) : g s label = true ∧ m.step s label = some t := by
  unfold restrict at h
  by_cases hg : g s label = true
  · simpa [hg] using h
  · simp [hg] at h

theorem run_of_restrict (h : (m.restrict g).run s labels = some t) : m.run s labels = some t := by
  induction labels generalizing s with
  | nil => exact h
  | cons label labels ih =>
    obtain ⟨u, hu, h⟩ := run_cons_eq_some.mp h
    exact run_cons_eq_some.mpr ⟨u, (step_of_restrict hu).2, ih h⟩

/-- While a run has not reached `G`, its counted steps use up the measure. The measure may depend on
a bound variable that the run carries along. -/
theorem count_le_of_measure {γ : Type*} {counted : Label → Bool} {I : γ → State → Prop}
    {G : State → Prop} {μ : γ → State → Nat} (hG : m.Keeps (fun _ => True) G)
    (hs' : ∀ ⦃c s label t⦄, I c s → ¬ G t → m.step s label = some t →
      ∃ c', I c' t ∧ μ c' t + (if counted label then 1 else 0) ≤ μ c s)
    {c : γ} (hs : I c s) (hr : m.run s labels = some t) (ht : ¬ G t) :
    labels.countP counted ≤ μ c s := by
  induction labels generalizing s c with
  | nil => simp
  | cons label labels ih =>
    obtain ⟨u, hu, hr⟩ := run_cons_eq_some.mp hr
    have hG' : ¬ G u := fun h => ht (hG.run (fun _ _ => trivial) h hr)
    obtain ⟨c', hI, hμ⟩ := hs' hs hG' hu
    have hle := ih hI hr
    rw [List.countP_cons]
    omega

end Machine

end Smalltalk
