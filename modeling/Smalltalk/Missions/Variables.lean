import Mathlib.Data.List.Infix
import Smalltalk.Lib.Table
import Smalltalk.Lib.Texts

/-!
# Variables in mission texts

Validation and interpolation each scan a text for references `${name}`, and take `$${` for
an escaped opening.
-/

namespace Smalltalk.Missions

open List Option

/-- The first occurrence of a pattern, as the text before it and after it. -/
def find (pattern : List Char) : List Char → Option (List Char × List Char)
  | [] => none
  | c :: rest =>
    if pattern <+: c :: rest then some ([], (c :: rest).drop pattern.length)
    else (find pattern rest).map fun found => (c :: found.1, found.2)

def openBrace : List Char := ['$', '{']

def VARIABLES : List String :=
  ["ST_MISSION", "ST_MISSION_REVISION", "ST_MISSION_RUN", "ST_RUN_GENERATION",
    "ST_ROOT_MISSION_RUN", "ST_ROOT_MISSION_RUN_ID", "ST_WORKSPACE", "ST_REQUESTER", "ST_STEP",
    "ST_STEP_RUN", "ST_ATTEMPT", "ST_ASSIGNEE", "ST_PARENT_STEP_RUN", "ST_GATE", "ST_AGENT",
    "ST_LOOP_ROUND", "ST_LOOP_FEEDBACK", "ST_LOOP_ITEM_ID",
    "ST_CANDIDATE_INDEX", "loop.round", "loop.feedback", "loop.item.id", "candidate.index", "PATH"]

inductive VariableError where
  | noClosingBrace
  | unknown (name : String)
  | unavailable (name : String)
  deriving DecidableEq

def registeredVariable (name : String) : Bool := name ∈ VARIABLES || startsWith name "loop.item."

section
variable (values : Table String String) (inputNames : List String)

def available (name : String) : Option String :=
  (values.get? name).or (if startsWith name "loop.item." then values.get? "loop.item.*" else none)

/-- The loop of `interpolate`. A turn takes at least one character off the rest. -/
def interpolateLoop : Nat → List Char → List Char → Except VariableError (List Char)
  | 0, output, rest => .ok (output ++ rest)
  | fuel + 1, output, rest => match find openBrace rest with
    | none => .ok (output ++ rest)
    | some (before, tail) =>
      if before.getLast? = some '$' then
        interpolateLoop fuel (output ++ before.dropLast ++ openBrace) tail
      else match find ['}'] tail with
        | none => .error .noClosingBrace
        | some (name, rest) =>
          let name := String.ofList name
          if !registeredVariable name && !startsWith name "input." then .error (.unknown name)
          else match available values name with
            | none => .error (.unavailable name)
            | some value => interpolateLoop fuel (output ++ before ++ value.toList) rest

def interpolate (source : String) : Except VariableError String :=
  (interpolateLoop values source.toList.length [] source.toList).map String.ofList

def validateLoop : Nat → List Char → Except VariableError Unit
  | 0, _ => .ok ()
  | fuel + 1, rest => match find openBrace rest with
    | none => .ok ()
    | some (before, tail) =>
      if before.getLast? = some '$' then validateLoop fuel tail
      else match find ['}'] tail with
        | none => .error .noClosingBrace
        | some (name, rest) =>
          let name := String.ofList name
          if !registeredVariable name && !inputNames.any (name = "input." ++ ·) then
            .error (.unknown name)
          else validateLoop fuel rest

def validateVariables (value : String) : Except VariableError Unit :=
  validateLoop inputNames value.toList.length value.toList

/-! ## Reading a text -/

inductive Segment where
  | text (chars : List Char)
  | escape
  | reference (name : String)

/-- A text read from its start, one opening after the other. The name after an escaped one is text
again. -/
inductive Reads : List Char → List Segment → Prop
  | text {text} (h : ¬ openBrace <:+: text) : Reads text [.text text]
  | escape {before rest segments} (h : ¬ openBrace <:+: before) (hrest : Reads rest segments) :
    Reads (before ++ '$' :: openBrace ++ rest) (.text before :: .escape :: segments)
  | reference {before name rest segments} (h : ¬ openBrace <:+: before)
      (hescape : before.getLast? ≠ some '$')
    (hname : '}' ∉ name) (hrest : Reads rest segments) :
    Reads (before ++ openBrace ++ name ++ '}' :: rest)
      (.text before :: .reference (String.ofList name) :: segments)

def Segment.shown : Segment → List Char
  | .text chars => chars
  | .escape => openBrace
  | .reference name => ((available values name).getD "").toList

def Valued : Prop :=
  ∀ name, registeredVariable name = true ∨ (∃ input ∈ inputNames, name = "input." ++ input) →
  available values name ≠ none

end

section
variable {values : Table String String} {inputNames : List String} {p text before after : List Char}

theorem not_infix_of_find_none (hp : p ≠ []) (h : find p text = none) : ¬ p <:+: text := by
  induction text with
  | nil => simpa using hp
  | cons c r ih =>
    unfold find at h
    split at h
    · cases h
    · rename_i hs
      rw [infix_cons_iff]
      exact not_or.mpr ⟨hs, ih (map_eq_none_iff.mp h)⟩

theorem find_eq_some (hp : p ≠ []) (h : find p text = some (before, after)) :
    text = before ++ p ++ after ∧ ¬ p <:+: before := by
  induction text generalizing before with
  | nil => cases h
  | cons c r ih =>
    unfold find at h
    split at h
    · rename_i hs
      cases h
      obtain ⟨tail, hl⟩ := hs
      exact ⟨by simp [← hl], by simpa using hp⟩
    · rename_i hs
      obtain ⟨f, hf, heq⟩ := map_eq_some_iff.mp h
      cases heq
      obtain ⟨rfl, hb⟩ := ih hf
      rw [infix_cons_iff]
      exact ⟨rfl, not_or.mpr ⟨fun ht => hs (ht.trans ⟨p ++ f.2, by simp⟩), hb⟩⟩

theorem known_name {name : String} (hv : Valued values inputNames)
    (h : ¬ (!registeredVariable name && !inputNames.any (name = "input." ++ ·)) = true) :
    ¬ (!registeredVariable name && !startsWith name "input.") = true ∧
    ∃ value, available values name = some value := by
  have hk : registeredVariable name = true ∨ ∃ input ∈ inputNames, name = "input." ++ input := by
    simpa [Classical.or_iff_not_imp_left] using h
  refine ⟨?_, ne_none_iff_exists'.mp (hv _ hk)⟩
  rcases hk with hk | ⟨input, -, rfl⟩
  · simp [hk]
  · simp [startsWith]

theorem reads_of_validateLoop (hs : Valued values inputNames) (fuel : Nat) :
    ∀ r : List Char, r.length ≤ fuel → validateLoop inputNames fuel r = .ok () →
      ∃ segments, Reads r segments ∧
      ∀ o, interpolateLoop values fuel o r = .ok (o ++ segments.flatMap (·.shown values)) := by
  induction fuel with
  | zero =>
    intro r hle _
    obtain rfl := length_eq_zero_iff.mp (Nat.le_zero.mp hle)
    exact ⟨_, .text (by simp [openBrace]), fun o => rfl⟩
  | succ fuel ih =>
    intro r hle h
    unfold validateLoop at h
    cases hf : find openBrace r with
    | none =>
      refine ⟨_, .text (not_infix_of_find_none (by simp [openBrace]) hf), fun o => ?_⟩
      simp [interpolateLoop, hf, Segment.shown]
    | some f =>
      obtain ⟨before, tail⟩ := f
      obtain ⟨rfl, hb⟩ := find_eq_some (by simp [openBrace]) hf
      simp only [hf] at h
      split at h
      · rename_i hl
        obtain ⟨i, rfl⟩ := getLast?_eq_some_iff.mp hl
        obtain ⟨segments, hr, hp⟩ := ih tail (by simp at hle; omega) h
        refine ⟨_,
          by simpa using hr.escape fun hi => hb (hi.trans (prefix_append _ _).isInfix), fun o => ?_⟩
        rw [interpolateLoop, hf]
        simp [hp, Segment.shown]
      · rename_i hl
        cases hc : find ['}'] tail with
        | none => simp [hc] at h
        | some f =>
          obtain ⟨name, r⟩ := f
          obtain ⟨rfl, hn⟩ := find_eq_some (by simp) hc
          simp only [hc] at h
          split at h
          · cases h
          · rename_i hk
            obtain ⟨ht, value, hv⟩ := known_name hs hk
            obtain ⟨segments, hr, hp⟩ := ih r (by simp at hle; omega) h
            refine ⟨_,
              by simpa using hr.reference hb hl (by rwa [singleton_infix_iff] at hn), fun o => ?_⟩
            rw [interpolateLoop, hf]
            simp only [hl, if_false, hc, hv]
            rw [if_neg ht, hp]
            simp [Segment.shown, hv]

end

/-- A validated text is interpolated: its references are replaced by their values, which are not
read again, and an escaped opening loses its first `$`. -/
theorem interpolate_of_validated (source : String) (inputNames : List String)
    (values : Table String String) (h : validateVariables inputNames source = .ok ())
    (hvalues : Valued values inputNames) :
    ∃ segments, Reads source.toList segments ∧
      interpolate values source = .ok (String.ofList (segments.flatMap (·.shown values))) := by
  obtain ⟨segments, hr, hl⟩ :=
    reads_of_validateLoop hvalues _ source.toList (Nat.le_refl _) h
  exact ⟨segments, hr, by rw [interpolate, hl]; rfl⟩

def sampleValues : Table String String :=
  Table.putAll ∅ (("loop.item.*", "item") :: VARIABLES.map (·, "${PATH}"))

def sampleText : String := "${ST_STEP} $${x} $$${PATH} ${loop.item.no}"

theorem sampleText_interpolated :
    interpolate sampleValues sampleText = .ok "${PATH} ${x} $${PATH} item" ∧
    ∃ segments, Reads sampleText.toList segments ∧
      interpolate sampleValues sampleText =
        .ok (String.ofList (segments.flatMap (·.shown sampleValues))) := by
  have hk : ∀ key ∈ "loop.item.*" :: VARIABLES, sampleValues.get? key ≠ none := fun key hy =>
    Table.get?_putAll_ne_none.mpr (.inl (by simpa using hy))
  refine ⟨by decide +kernel,
    interpolate_of_validated _ [] _ (by decide +kernel) fun name hm hn => ?_⟩
  rw [available, or_eq_none_iff] at hn
  rcases Bool.or_eq_true_iff.mp (hm.resolve_right (by simp)) with hm | hm
  · exact hk name (by simp_all) hn.1
  · rw [if_pos hm] at hn
    exact hk _ mem_cons_self hn.2

end Smalltalk.Missions
