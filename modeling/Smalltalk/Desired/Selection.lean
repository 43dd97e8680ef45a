import Mathlib

/-!
# The selected declaration of a subject

Replay folds `select_replicated_desired` over a subject's declarations in
canonical order. Descent decides first, then the revision and the claim id.
-/

namespace Smalltalk.Desired

open List Bool

/-! ## Descent -/

/-- The predecessors of each claim: the rows of `claims`, then of `checkpoint_claims`. -/
abbrev Links := List (String × List String)

/-- The loop of `claim_descends_from`. The end of the source's vector is the head of `pending`. -/
def walk (links : Links) (ancestor : String) : Nat → List String → List String → Bool
  | 0, _, _ => false
  | _ + 1, [], _ => false
  | fuel + 1, id :: pending, seen =>
    if id ∈ seen then walk links ancestor fuel pending seen
    else
      match links.lookup id with
      | none => walk links ancestor fuel pending (id :: seen)
      | some predecessors =>
        if ancestor ∈ predecessors then true
        else walk links ancestor fuel (predecessors.reverse ++ pending) (id :: seen)

def unseen (links : Links) (seen : List String) : Nat :=
  ((links.filter (·.1 ∉ seen)).map (·.2.length)).sum

def claimDescendsFrom (links : Links) (descendant ancestor : String) : Bool :=
  descendant = ancestor || walk links ancestor (unseen links [] + 1) [descendant] []

def Link (links : Links) (id predecessor : String) : Prop :=
  ∃ predecessors, links.lookup id = some predecessors ∧ predecessor ∈ predecessors

def Descends (links : Links) : String → String → Prop := Relation.ReflTransGen (Link links)

section
variable {links : Links} {ancestor : String} {seen : List String}

theorem unseen_cons (row : String × List String) (links : Links) (seen : List String) :
    unseen (row :: links) seen = (if row.1 ∈ seen then 0 else row.2.length) +
      unseen links seen := by
  by_cases hr : row.1 ∈ seen <;> simp [unseen, hr]

theorem unseen_le (links : Links) (id : String) :
    unseen links (id :: seen) ≤ unseen links seen := by
  induction links with
  | nil => simp [unseen]
  | cons row links ih =>
    rw [unseen_cons, unseen_cons]
    by_cases hr : row.1 ∈ seen
    · simpa [hr] using ih
    · by_cases hi : row.1 = id <;> simp [hr, hi] <;> omega

theorem unseen_add_le {id : String} {predecessors : List String} (hs : id ∉ seen)
    (hl : links.lookup id = some predecessors) :
    unseen links (id :: seen) + predecessors.length ≤ unseen links seen := by
  induction links with
  | nil => cases hl
  | cons row links ih =>
    obtain ⟨key, found⟩ := row
    rw [unseen_cons, unseen_cons]
    rw [lookup_cons] at hl
    by_cases hi : key = id
    · subst hi
      obtain rfl : found = predecessors := by simpa using hl
      have hle := @unseen_le seen links key
      simp only [mem_cons_self, if_true, hs, if_false]
      omega
    · have hn : (id == key) = false := beq_eq_false_iff_ne.mpr fun h => hi h.symm
      have ht := ih (by simpa [hn] using hl)
      by_cases hk : key ∈ seen <;> simp [hk, hi] <;> omega

theorem walk_sound (n : Nat) (pending seen : List String) (h : walk links ancestor n pending seen) :
    ∃ id ∈ pending, Relation.TransGen (Link links) id ancestor := by
  induction n generalizing pending seen with
  | zero => simp [walk] at h
  | succ n ih =>
    cases pending with
    | nil => simp [walk] at h
    | cons id pending =>
      simp only [walk] at h
      split at h
      · obtain ⟨f, hm, hp⟩ := ih _ _ h
        exact ⟨f, mem_cons_of_mem _ hm, hp⟩
      · split at h
        · obtain ⟨f, hm, hp⟩ := ih _ _ h
          exact ⟨f, mem_cons_of_mem _ hm, hp⟩
        · rename_i predecessors hl
          split at h
          · rename_i hf
            exact ⟨id, mem_cons_self, .single ⟨predecessors, hl, hf⟩⟩
          · obtain ⟨f, hm, hp⟩ := ih _ _ h
            rcases mem_append.mp hm with hm | hm
            · exact ⟨id, mem_cons_self, .head ⟨predecessors, hl, mem_reverse.mp hm⟩ hp⟩
            · exact ⟨f, mem_cons_of_mem _ hm, hp⟩

/-- A walk that finds nothing has seen a set closed under links that never links to the ancestor. -/
theorem walk_complete (f : Nat) (pending seen : List String)
    (hf : pending.length + unseen links seen ≤ f) (h : walk links ancestor f pending seen = false) :
    ∃ closed : Set String, (∀ id ∈ pending, id ∈ closed) ∧ (∀ id ∈ seen, id ∈ closed) ∧
      ∀ id ∈ closed, id ∉ seen → ∀ next, Link links id next → next ≠ ancestor ∧ next ∈ closed := by
  induction f generalizing pending seen with
  | zero =>
    have hn : pending = [] := length_eq_zero_iff.mp (by omega)
    exact ⟨{ id | id ∈ seen }, by simp [hn], fun _ h => h, fun _ h hs => absurd h hs⟩
  | succ f ih =>
    cases pending with
    | nil => exact ⟨{ id | id ∈ seen }, by simp, fun _ h => h, fun _ h hs => absurd h hs⟩
    | cons id pending =>
      simp only [walk] at h
      simp only [length_cons] at hf
      split at h
      · rename_i hs
        obtain ⟨closed, hp, hold, hc⟩ := ih pending seen (by omega) h
        exact ⟨closed, forall_mem_cons.mpr ⟨hold id hs, hp⟩, hold, hc⟩
      · rename_i hs
        have hle := @unseen_le seen links id
        split at h
        · rename_i hk
          obtain ⟨closed, hp, hold, hc⟩ := ih pending (id :: seen) (by omega) h
          obtain ⟨hi, hold⟩ := forall_mem_cons.mp hold
          refine ⟨closed, forall_mem_cons.mpr ⟨hi, hp⟩, hold, fun other ho hu next hl => ?_⟩
          by_cases heq : other = id
          · obtain ⟨_, hm, _⟩ := hl
            rw [heq, hk] at hm
            cases hm
          · exact hc other ho (by simp [heq, hu]) next hl
        · rename_i predecessors hk
          split at h
          · cases h
          · rename_i hnoPredecessors
            have hle' := unseen_add_le hs hk
            obtain ⟨closed, hp, hold, hc⟩ :=
              ih _ (id :: seen) (by simp only [length_append, length_reverse]; omega) h
            obtain ⟨hi, hold⟩ := forall_mem_cons.mp hold
            obtain ⟨hr, hp⟩ := forall_mem_append.mp hp
            refine ⟨closed, forall_mem_cons.mpr ⟨hi, hp⟩, hold, fun other ho hu next hl => ?_⟩
            by_cases heq : other = id
            · obtain ⟨_, hm, hmem⟩ := hl
              rw [heq, hk] at hm
              cases hm
              exact ⟨fun h => hnoPredecessors (h ▸ hmem), hr next (mem_reverse.mpr hmem)⟩
            · exact hc other ho (by simp [heq, hu]) next hl

theorem claimDescendsFrom_iff {d : String} :
    claimDescendsFrom links d ancestor ↔ Descends links d ancestor := by
  rw [Descends, Relation.reflTransGen_iff_eq_or_transGen, claimDescendsFrom, or_eq_true,
    decide_eq_true_eq, eq_comm]
  refine or_congr_right ⟨fun h => ?_, fun hp => ?_⟩
  · obtain ⟨id, hm, hp⟩ := walk_sound _ _ _ h
    rwa [mem_singleton.mp hm] at hp
  · by_contra h
    obtain ⟨closed, hs, -, hc⟩ := walk_complete _ _ _ (by simp [Nat.add_comm]) (eq_false_iff.mpr h)
    have ht : ∀ id, Relation.TransGen (Link links) d id → id ≠ ancestor ∧ id ∈ closed := by
      intro id hp
      induction hp with
      | single hl => exact hc _ (hs _ mem_cons_self) not_mem_nil _ hl
      | tail _ hl ih => exact hc _ ih.2 not_mem_nil _ hl
    exact (ht ancestor hp).1 rfl

end

/-! ## Selection -/

structure Declaration where
  id : String
  revision : String
  deriving DecidableEq

section
variable (links : Links) (validateReplicated : Declaration → Bool)

/-- A descendant of the selected claim takes its place; of two claims that are not related, the
later one in revision and id does. -/
def selects (current : Option Declaration) (claim : Declaration) : Bool :=
  match current with
  | none => true
  | some row =>
    if claim.id = row.id || claimDescendsFrom links claim.id row.id then true
    else if claimDescendsFrom links row.id claim.id then false
    else toLex (row.revision, row.id) < toLex (claim.revision, claim.id)

/-- A claim that `validate_replicated` refuses is quarantined and leaves the row as it was. -/
def selectReplicatedDesired (current : Option Declaration) (claim : Declaration) :
    Option Declaration :=
  if selects links current claim && validateReplicated claim then some claim else current

def replayDesired (claims : List Declaration) : Option Declaration :=
  claims.foldl (selectReplicatedDesired links validateReplicated) none

def SelectsLeaf (claims : List Declaration) (selected : Option Declaration) : Prop :=
  ∃ row, selected = some row ∧ ∀ claim ∈ claims, Descends links claim.id row.id → claim.id = row.id

/-- A declaration that another held one descends from is followed, in canonical order, by a
descendant that `validate_replicated` accepts. -/
def SupersededLater (claims : List Declaration) : Prop :=
  ∀ row after, row :: after <:+ claims →
    (∃ held ∈ claims, held.id ≠ row.id ∧ Descends links held.id row.id) →
      ∃ later ∈ after, validateReplicated later ∧ Descends links later.id row.id

end

section
variable {links : Links} {accepts : Declaration → Bool} {claims : List Declaration}

theorem replayDesired_append (claims : List Declaration) (claim : Declaration) :
    replayDesired links accepts (claims ++ [claim]) =
      selectReplicatedDesired links accepts (replayDesired links accepts claims) claim := by
  simp [replayDesired]

theorem selects_of_descends {row claim : Declaration} (h : Descends links claim.id row.id) :
    selects links (some row) claim = true := by
  simp [selects, claimDescendsFrom_iff.mpr h]

/-- What is selected last was selected at its own turn, and nothing that came after and may be
registered descends from it. -/
theorem replayDesired_eq_some {row : Declaration}
    (h : replayDesired links accepts claims = some row) :
    ∃ after, row :: after <:+ claims ∧
      ∀ later ∈ after, accepts later → ¬ Descends links later.id row.id := by
  -- By induction on the claims from the last: the last one took the selection or left it.
  induction claims using List.reverseRecOn with
  | nil => cases h
  | append_singleton claims claim ih =>
    rw [replayDesired_append, selectReplicatedDesired] at h
    split at h
    · cases h
      exact ⟨[], suffix_append _ _, by simp⟩
    · rename_i hs
      obtain ⟨after, ⟨before, rfl⟩, ha⟩ := ih h
      refine ⟨after ++ [claim], ⟨before, by simp⟩, fun later hl hv hd => ?_⟩
      rcases mem_append.mp hl with hl | hl
      · exact ha later hl hv hd
      · obtain rfl := mem_singleton.mp hl
        rw [h, selects_of_descends hd, hv] at hs
        exact hs rfl

theorem replayDesired_ne_none {claim : Declaration} (hc : claim ∈ claims) (hv : accepts claim) :
    replayDesired links accepts claims ≠ none := by
  induction claims using List.reverseRecOn with
  | nil => cases hc
  | append_singleton claims last ih =>
    rw [replayDesired_append, selectReplicatedDesired]
    split
    · simp
    · rename_i hs
      rcases mem_append.mp hc with hc | hc
      · exact ih hc
      · obtain rfl := mem_singleton.mp hc
        intro hn
        simp [hn, selects, hv] at hs

end

def crossedLinks : Links := [("d", ["w"]), ("e", []), ("w", []), ("z", ["w", "e"])]

instance (links : Links) (d a : String) : Decidable (Descends links d a) :=
  decidable_of_iff _ claimDescendsFrom_iff

end Smalltalk.Desired
