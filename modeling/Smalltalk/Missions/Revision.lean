import Smalltalk.Lib.Table
import Smalltalk.Seats.Selection

/-!
# Steps that a mission revision carries

A revision keeps the steps it leaves as they are, together with everything they depend on in
the new mission. A submission that waits on its gates is kept too when the gates are all that
changed. What tells so compares the steps as JSON, with every key named like the gates left out.
-/

namespace Smalltalk.Missions

open List Table Seats

/-! ## Definitions as JSON -/

/-- Arrays and objects are read up to their `nil`. -/
inductive Json (κ : Type) where
  | null
  | bool (value : Bool)
  | number (value : Int)
  | string (value : String)
  | nil
  | item (value rest : Json κ)
  | member (key : κ) (value rest : Json κ)
  deriving DecidableEq

namespace Json

variable {κ μ : Type}

def map (f : κ → μ) : Json κ → Json μ
  | null => null
  | bool value => bool value
  | number value => number value
  | string value => string value
  | nil => nil
  | item value rest => item (value.map f) (rest.map f)
  | member key value rest => member (f key) (value.map f) (rest.map f)

/-- Leaves out the members of these keys at every depth. -/
def without (drop : κ → Bool) : Json κ → Json κ
  | item value rest => item (value.without drop) (rest.without drop)
  | member key value rest =>
    if drop key then rest.without drop else member key (value.without drop) (rest.without drop)
  | value => value

def keys : Json κ → List κ
  | item value rest => value.keys ++ rest.keys
  | member key value rest => key :: (value.keys ++ rest.keys)
  | _ => []

/-- Dropping after a renaming of the keys drops no more than before it, where no key that is left
would be dropped then. -/
theorem without_map {f : κ → μ} {drop : μ → Bool} {early : κ → Bool}
    (hd : ∀ key, early key = true → drop (f key) = true) (value : Json κ)
    (hk : ∀ key ∈ (value.without early).keys, drop (f key) = false) :
    (value.map f).without drop = (value.without early).map f := by
  induction value with
  | null | bool | number | string | nil => rfl
  | item value rest hv hr =>
    simp only [without, keys, mem_append] at hk
    simp only [map, without, hv fun key h => hk key (.inl h), hr fun key h => hk key (.inr h)]
  | member key value rest hv hr =>
    by_cases he : early key = true
    · simp only [without, if_pos he] at hk
      simp only [map, without, if_pos (hd key he), if_pos he, hr hk]
    · simp only [without, if_neg he, keys, mem_cons, mem_append] at hk
      have hn : drop (f key) ≠ true := by simp [hk key (.inl rfl)]
      simp only [map, without, if_neg hn, if_neg he, hv fun key h => hk key (.inr (.inl h)),
        hr fun key h => hk key (.inr (.inr h))]

end Json

/-- Objects come from structs, whose keys are their fields, and from maps. -/
inductive Key where
  | field (name : String)
  | entry (name : String)
  deriving DecidableEq

def Key.name : Key → String
  | field name | entry name => name

def gateKeys : List String := ["gates", "definition_hash"]

def Key.ofGates : Key → Bool
  | field name => name ∈ gateKeys
  | entry _ => false

inductive DependencySpec where
  | step (target state : String)
  | predicate (gate : Json Key)

def DependencySpec.json : DependencySpec → Json Key
  | .step target state =>
    .member (.field "dependency") (.string "step") <| .member (.field "step") (.string target) <|
      .member (.field "state") (.string state) .nil
  | .predicate gate =>
    .member (.field "dependency") (.string "predicate") <| .member (.field "gate") gate .nil

/-- `gates` and what `fields` hold, the fields no function here reads, are kept as serialized. A
nested mission is its id and its other fields, and `nested` are its steps in display order. -/
structure StepSpec where
  id : String
  path : String
  definitionHash : String
  dependencies : List DependencySpec
  gates : Json Key := .nil
  fields : Json Key := .nil
  nestedMission : Option (String × Json Key) := none
  nested : List StepSpec := []

abbrev MissionSpec := List StepSpec

/-- A step with the JSON of its nested steps, which a map holds by their ids. -/
def StepSpec.object (step : StepSpec) (nested : Json Key) : Json Key :=
  let mission := match step.nestedMission with
    | none => .null
    | some (id, fields) =>
      .member (.field "id") (.string id) (.member (.field "steps") nested fields)
  .member (.field "id") (.string step.id) <| .member (.field "path") (.string step.path) <|
    .member (.field "dependencies")
      (step.dependencies.foldr (fun d rest => .item d.json rest) .nil) <|
      .member (.field "gates") step.gates <| .member (.field "nested_mission") mission <|
        .member (.field "definition_hash") (.string step.definitionHash) step.fields

mutual

def StepSpec.json : StepSpec → Json Key
  | step@⟨_, _, _, _, _, _, _, nested⟩ => step.object (stepsJson nested)

def stepsJson : MissionSpec → Json Key
  | [] => .nil
  | step :: steps => .member (.entry step.id) step.json (stepsJson steps)

end

/-- `strip` after `serde_json::to_value`, which no longer tells a field from an entry. -/
def stepDefinitionWithoutGates (step : StepSpec) : Json String :=
  (step.json.map Key.name).without (· ∈ gateKeys)

/-- The step with the fields of its gates and definition hash left out, and those of the steps,
missions and baselines within it. -/
def StepSpec.ungated (step : StepSpec) : Json String := (step.json.without Key.ofGates).map Key.name

/-- No map within the step has an entry called like the gates or the definition hash. -/
def StepSpec.KeysApart (step : StepSpec) : Prop :=
  ∀ key ∈ (step.json.without Key.ofGates).keys, key.name ∉ gateKeys

theorem stepDefinitionWithoutGates_eq {step : StepSpec} (h : step.KeysApart) :
    stepDefinitionWithoutGates step = step.ungated := by
  refine Json.without_map (fun key he => ?_) _ fun key hk => by simpa using h key hk
  cases key with
  | field name => exact he
  | entry name => simp [Key.ofGates] at he

/-! ## Steps and their dependencies -/

mutual

def StepSpec.flatten : StepSpec → List StepSpec
  | step@⟨_, _, _, _, _, _, _, nested⟩ => step :: flattenMissionStepSpecs nested

def flattenMissionStepSpecs : MissionSpec → List StepSpec
  | [] => []
  | step :: steps => step.flatten ++ flattenMissionStepSpecs steps

end

def StepSpec.targets (step : StepSpec) : List String :=
  step.dependencies.filterMap fun
    | .step target _ => some target
    | .predicate _ => none

mutual

def StepSpec.collectDependencies (scope : String) (parent : Option String) :
    StepSpec → List (String × List String)
  | step@⟨_, path, _, _, _, _, mission, nested⟩ =>
    let id := (mission.map (·.1)).getD ""
    (path, parent.toList ++ step.targets.map fun target =>
        if scope = "" then target else s!"{scope}/{target}") ::
      Missions.collectDependencies s!"{path}/{id}" (some path) nested

def collectDependencies (scope : String) (parent : Option String) :
    MissionSpec → List (String × List String)
  | [] => []
  | step :: steps =>
    step.collectDependencies scope parent ++ Missions.collectDependencies scope parent steps

end

def flattenedDependencies (mission : MissionSpec) : Table String (List String) :=
  putAll ∅ (collectDependencies "" none mission)

def flattenedStepDefinitionHashes (mission : MissionSpec) : Table String String :=
  putAll ∅ ((flattenMissionStepSpecs mission).map fun step => (step.path, step.definitionHash))

def DependsOn (mission : MissionSpec) (path target : String) : Prop :=
  ∃ targets, (flattenedDependencies mission).get? path = some targets ∧ target ∈ targets

/-! ## What is carried -/

def changedPaths {ν : Type} [DecidableEq ν] (old new : Table String ν) : List String :=
  (new.rows.filter fun r => old.get? r.1 ≠ some r.2).map (·.1)

def additions (dependencies : Table String (List String)) (marked : List String) : List String :=
  (dependencies.rows.filter fun r => r.1 ∉ marked ∧ ∃ target ∈ r.2, target ∈ marked).map (·.1)

def spread (dependencies : Table String (List String)) : Nat → List String → List String
  | 0, marked => marked
  | fuel + 1, marked =>
    if additions dependencies marked = [] then marked
    else spread dependencies fuel (marked ++ additions dependencies marked)

def dependents (mission : MissionSpec) (marked : List String) : List String :=
  spread (flattenedDependencies mission) ((flattenedDependencies mission).rows.length + 1) marked

structure StepRunView where
  step : String
  status : Status
  workerReported : Bool

def regatedSubmittedSteps (old new : MissionSpec) (current : List StepRunView) : List String :=
  let oldSteps : Table String StepSpec :=
    putAll ∅ ((flattenMissionStepSpecs old).map fun step => (step.path, step))
  ((flattenMissionStepSpecs new).filter fun step =>
    (current.any fun view =>
      view.step = step.path && view.status = .verifying && view.workerReported) &&
      (oldSteps.get? step.path).any fun before =>
        before.definitionHash ≠ step.definitionHash &&
          stepDefinitionWithoutGates before = stepDefinitionWithoutGates step).map (·.path)

section
variable {κ δ : Type} [DecidableEq δ] (hash : String → κ → δ) (effective : MissionSpec → String → κ)

/-- `effective` is the selector and the constraints that `flatten_steps` gives a step, and `hash`
the digest of a definition hash with them. -/
def stepHashes (mission : MissionSpec) : Table String δ :=
  putAll ∅ ((flattenMissionStepSpecs mission).map fun step =>
    (step.path, hash step.definitionHash (effective mission step.path)))

def incompatible (old new : MissionSpec) : List String :=
  dependents new (changedPaths (stepHashes hash effective old) (stepHashes hash effective new))

def compatibleStepPaths (old new : MissionSpec) : List String :=
  ((stepHashes hash effective new).rows.map (·.1)).filter (· ∉ incompatible hash effective old new)

end

def unstable (old new : MissionSpec) (current : List StepRunView) : List String :=
  dependents new
    ((changedPaths (flattenedStepDefinitionHashes old) (flattenedStepDefinitionHashes new)).filter
    (· ∉ regatedSubmittedSteps old new current))

def carriedRevisionStepPaths (old new : MissionSpec) (current : List StepRunView)
    (compatible : List String) : List String :=
  compatible ++ (current.map (·.step)).filter fun path =>
    ((flattenedStepDefinitionHashes new).get? path).isSome ∧ path ∉ unstable old new current

/-- The step waits in verification with its worker's submission, and the fields of its gates are
all that the revision changes in it. -/
def OnlyRegated (old new : MissionSpec) (current : List StepRunView) (path : String) : Prop :=
  ∃ before ∈ flattenMissionStepSpecs old, ∃ step ∈ flattenMissionStepSpecs new,
    before.path = path ∧ step.path = path ∧ before.ungated = step.ungated ∧
      ∃ view ∈ current, view.step = path ∧ view.status = .verifying ∧ view.workerReported = true

def KeysApart (old new : MissionSpec) (current : List StepRunView) : Prop :=
  ∀ view ∈ current, view.status = .verifying → view.workerReported = true →
    ∀ step ∈ flattenMissionStepSpecs old ++ flattenMissionStepSpecs new, step.path = view.step →
    step.KeysApart

/-! ## Closure -/

section
variable {dependents : Table String (List String)} {p t : String} {targets : List String}

theorem subset_spread (f : Nat) (marked : List String) : marked ⊆ spread dependents f marked := by
  induction f generalizing marked with
  | zero => exact Subset.refl _
  | succ f ih =>
    unfold spread
    split
    · exact Subset.refl _
    · exact fun p hp => ih _ (mem_append_left _ hp)

/-- With a turn for each row the loop ends, and what depends on a marked path is marked. -/
theorem spread_closed (f : Nat) (marked : List String)
    (hf : (dependents.rows.filter (·.1 ∉ marked)).length < f)
    (hg : dependents.get? p = some targets) (ht : t ∈ targets)
    (h : t ∈ spread dependents f marked) : p ∈ spread dependents f marked := by
  induction f generalizing marked with
  | zero => omega
  | succ f ih =>
    unfold spread at h ⊢
    split
    · rename_i hn
      rw [if_pos hn] at h
      by_contra hp
      have ha : p ∈ additions dependents marked :=
        mem_map.mpr ⟨(p, targets),
          mem_filter.mpr ⟨mem_rows.mpr hg, by simpa using ⟨hp, t, ht, h⟩⟩, rfl⟩
      rw [hn] at ha
      cases ha
    · rename_i hs
      rw [if_neg hs] at h
      refine ih _ ?_ h
      -- a row that was added is no longer among those left
      obtain ⟨added, ha⟩ := exists_mem_of_ne_nil _ hs
      obtain ⟨r, hr, rfl⟩ := mem_map.mp ha
      obtain ⟨hw, hnew⟩ := mem_filter.mp hr
      have hl : dependents.rows.filter (·.1 ∉ marked ++ additions dependents marked) =
          (dependents.rows.filter (·.1 ∉ marked)).filter (·.1 ∉ additions dependents marked) := by
        simp [filter_filter, Bool.and_comm]
      have hm : r ∈ dependents.rows.filter (·.1 ∉ marked) :=
        mem_filter.mpr ⟨hw, by simpa using (of_decide_eq_true hnew).1⟩
      have hlt := @length_filter_lt_length_iff_exists _ (·.1 ∉ additions dependents marked) _ |>.mpr
        ⟨r, hm, by simpa using ha⟩
      rw [hl]
      omega

end

section
variable {old new : MissionSpec} {marked : List String} {path t : String}

theorem not_mem_dependents (hp : path ∉ dependents new marked)
    (h : Relation.ReflTransGen (DependsOn new) path t) : t ∉ marked := by
  have hnoDependents : t ∉ dependents new marked := by
    induction h with
    | refl => exact hp
    | tail _ hs ih =>
      obtain ⟨targets, hg, ht⟩ := hs
      exact fun h => ih (spread_closed _ _ (Nat.lt_succ_of_le (length_filter_le _ _)) hg ht h)
  exact fun hm => hnoDependents (subset_spread _ _ hm)

theorem not_mem_changedPaths {ν : Type} [DecidableEq ν] {old new : Table String ν} {value : ν}
    (hg : new.get? path = some value) (h : path ∉ changedPaths old new) :
    old.get? path = some value := by
  by_contra hn
  exact h (mem_map.mpr ⟨(path, value), mem_filter.mpr ⟨mem_rows.mpr hg, by simpa using hn⟩, rfl⟩)

theorem get?_stepTable {ν : Type} (f : StepSpec → ν) (m : MissionSpec) (path : String) :
    (putAll ∅ ((flattenMissionStepSpecs m).map fun step => (step.path, f step)) : Table String
      ν).get? path = ((flattenMissionStepSpecs m).reverse.find? (·.path = path)).map f := by
  rw [get?_putAll, ← map_reverse, find?_map]
  cases hf : (flattenMissionStepSpecs m).reverse.find? (·.path = path) with
  | none =>
    simp [hf]
    rfl
  | some step => simp [hf]

theorem stepHashes_get? {κ δ : Type} (hash : String → κ → δ) (effective : MissionSpec → String → κ)
    (m : MissionSpec) (path : String) :
    (stepHashes hash effective m).get? path =
      ((flattenedStepDefinitionHashes m).get? path).map
        fun definition => hash definition (effective m path) := by
  rw [stepHashes, flattenedStepDefinitionHashes, get?_stepTable, get?_stepTable]
  cases hf : (flattenMissionStepSpecs m).reverse.find? (·.path = path) with
  | none => rfl
  | some step =>
    have hp : step.path = path := by simpa using find?_some hf
    simp [hp]

theorem onlyRegated_of_mem {current : List StepRunView} (hk : KeysApart old new current)
    (h : path ∈ regatedSubmittedSteps old new current) : OnlyRegated old new current path := by
  obtain ⟨step, hs, rfl⟩ := mem_map.mp h
  simp only [mem_filter, Bool.and_eq_true, any_eq_true, Option.any_eq_true, decide_eq_true_eq] at hs
  obtain ⟨hm, ⟨view, hv, ⟨ha, hr⟩, hp⟩, before, hb, -, hu⟩ := hs
  have hb := (get?_stepTable (fun step => step) old step.path).symm.trans hb
  obtain ⟨f, hf, rfl⟩ := Option.map_eq_some_iff.mp hb
  have hspecs := mem_reverse.mp (mem_of_find?_eq_some hf)
  have hpath : f.path = step.path := by simpa using find?_some hf
  have hapart := hk view hv hr hp
  rw [stepDefinitionWithoutGates_eq (hapart f (mem_append_left _ hspecs) (hpath.trans ha.symm)),
    stepDefinitionWithoutGates_eq (hapart step (mem_append_right _ hm) ha.symm)] at hu
  exact ⟨f, hspecs, step, hm, hpath, rfl, hu, view, hv, ha, hr, hp⟩

end

def buildStep (definitionHash gate key value : String) : StepSpec :=
  { id := "build", path := "build", definitionHash, dependencies := []
    gates := .item (.string gate) .nil
    fields := .member (.field "products") (.item (.member (.field "subject") (.string "pty/p")
      (.member (.field "fields") (.member (.entry key) (.string value) .nil) .nil)) .nil) .nil }

def testStep : StepSpec :=
  { id := "test", path := "test", definitionHash := "t",
    dependencies := [.step "build" "completed"] }

def submittedBuild : List StepRunView := [⟨"build", .verifying, true⟩, ⟨"test", .completed, true⟩]

end Smalltalk.Missions
