import Smalltalk.Store.Admission

/-!
# The passes of one run

Held envelopes get another pass only after one that changed the membership. An
envelope that did so is not held, so the next pass has fewer envelopes to look at.
-/

namespace Smalltalk

open List

section
variable (host : Host) (node : Node)

variable {host node} in
def Label.isAgain : Label host node → Bool
  | .again => true
  | _ => false

/-- What is pending where each further pass begins, until the run ends. -/
def repasses : System → List (Label host node) → List (List Captured)
  | _, [] => []
  | s, label :: labels =>
    match admissionStep host node s label with
    | some ⟨db, some pass⟩ =>
      let further := repasses ⟨db, some pass⟩ labels
      if label.isAgain then pass.pending :: further else further
    | _ => []

end

/-- The pass began with what is held and still pending, and with more once the membership
changed. -/
structure Begun (before : List Captured) (pass : Pass) : Prop where
  sub : pass.held ++ pass.pending <+ before
  changed : pass.membershipChanged = true → (pass.held ++ pass.pending).length < before.length

def Shrinks (before after : List Captured) : Prop := after <+ before ∧ after.length < before.length

variable {host : Host} {node : Node} {label : Label host node} {s t : System} {pass new : Pass}
    {before : List Captured}

theorem Begun.take {membership : Membership} {c : Captured} {rest : List Captured} {db : Db}
    (h : Begun before pass) (hp : pass.pending = c :: rest)
    (ht : (pass.take host membership c rest db).pass = some new) : Begun before new := by
  obtain ⟨hs, hc⟩ := h
  rw [hp] at hs hc
  cases ht
  by_cases hh : (takeEnvelope host pass.retrySubjectReferences membership db c).1 = .held
  · refine ⟨by simpa [hh] using hs, fun hn => ?_⟩
    simpa [hh] using hc (by simpa [hh] using hn)
  · have hr : pass.held ++ rest <+ pass.held ++ c :: rest :=
      (Sublist.refl _).append (sublist_cons_self c rest)
    refine ⟨by simpa [hh] using hr.trans hs, fun _ => ?_⟩
    have := hs.length_le
    simp only [hh, if_false, length_append, length_cons] at this ⊢
    omega

theorem Begun.step (h : Begun before pass) (hs : AdmissionStep host node s label t)
    (hp : s.pass = some pass) (ht : t.pass = some new) :
    if label.isAgain then Begun new.pending new ∧ Shrinks before new.pending
    else Begun before new := by
  cases hs with
  | start => cases hp
  | finish => cases ht
  | take _ _ hd => cases hp; exact h.take hd ht
  | again hd _ hc =>
    cases hp
    cases ht
    have hl := h.changed hc
    have hb := h.sub
    rw [hd, append_nil] at hl hb
    exact ⟨⟨Sublist.refl _, nofun⟩, hb, hl⟩
  | commit | receive | reject =>
    cases hp.symm.trans ht
    exact h
  | _ =>
    cases hp
    cases ht
    exact ⟨h.sub, h.changed⟩

theorem isChain_repasses (labels : List (Label host node)) :
    ∀ {s before pass}, s.pass = some pass → Begun before pass →
    (before :: repasses host node s labels).IsChain Shrinks := by
  induction labels with
  | nil => intros; simp [repasses]
  | cons label rest ih =>
    intro s before pass hp hb
    rw [repasses]
    split
    · rename_i db new hs
      have hn := hb.step (admissionStep_of_step hs) hp rfl
      cases ha : label.isAgain with
      | true =>
        rw [ha, if_pos rfl] at hn
        exact isChain_cons_cons.mpr ⟨hn.2, ih rfl hn.1⟩
      | false =>
        rw [ha, if_neg nofun] at hn
        exact ih rfl hn
    · simp

theorem length_le_of_isChain {l : List (List Captured)} :
    ∀ {before}, (before :: l).IsChain Shrinks → l.length ≤ before.length := by
  induction l with
  | nil => simp
  | cons after l ih =>
    intro before h
    obtain ⟨hs, h⟩ := isChain_cons_cons.mp h
    exact (ih h).trans_lt hs.2

/-- Whatever is committed and received meanwhile, each further pass of a run has fewer envelopes
pending than the one before it, so there are at most as many passes as envelopes at first and one
more. -/
theorem repasses_bounded (db : Db) (labels : List (Label host node)) :
    let passes :=
  (startPass node db).pending :: repasses host node ⟨db, some (startPass node db)⟩ labels
    passes.IsChain Shrinks ∧ passes.length ≤ (startPass node db).pending.length + 1 := by
  have h :=
    isChain_repasses labels (s := ⟨db, some (startPass node db)⟩) rfl ⟨Sublist.refl _, nofun⟩
  exact ⟨h, Nat.succ_le_succ (length_le_of_isChain h)⟩

end Smalltalk
