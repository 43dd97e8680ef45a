import Mathlib

/-!
# Rules on writes

A rule restricts a write by patterns on its actor, its kind and its subject. The patterns are
read as languages of bytes.
-/

namespace Smalltalk.Rules

open List

inductive Mode where
  | off
  | audit
  | enforce
  deriving DecidableEq

structure Rule where
  mode : Mode
  actors : List String
  except : List String
  kinds : List String
  subjects : List String
  unlessSubjects : List String

structure NamedRule where
  name : String
  claimId : String
  rule : Rule

structure Decision where
  audited : List NamedRule := []
  denied : Option NamedRule := none

-- 42 is an asterisk and 47 a slash.
def globMatches : List UInt8 → List UInt8 → Bool
  | [], value => value.isEmpty
  | 42 :: 42 :: rest, value =>
    (range (value.length + 1)).any fun skip => globMatches rest (value.drop skip)
  | 42 :: rest, value =>
    (range (value.idxOf 47 + 1)).any fun skip => globMatches rest (value.drop skip)
  | first :: rest, value => value.head? = some first && globMatches rest value.tail

def glob (pattern value : String) : Bool := globMatches pattern.toUTF8.toList value.toUTF8.toList

section
variable (actor : String)

def actorName : String :=
  if actor.contains '/' then "/".intercalate (actor.splitOn "/").tail else actor

def expand (pattern : String) : String :=
  let namespaced := "/".intercalate (((actorName actor).splitOn "/").take 2)
  (pattern.replace "\x7bactor\x7d" (actorName actor)).replace "\x7bnamespace\x7d" namespaced

variable (rule : Rule) (kind subject : String)

def Rule.restricts : Bool :=
  let any (patterns : List String) (value : String) :=
    patterns.any fun pattern => glob (expand actor pattern) value
  any rule.actors actor && !any rule.except actor && any rule.kinds kind &&
    (rule.subjects.isEmpty || any rule.subjects subject) && !any rule.unlessSubjects subject

def decideRule (decision : Decision) (named : NamedRule) : Decision :=
  if named.rule.mode = .off || !named.rule.restricts actor kind subject then decision
  else match named.rule.mode with
    | .enforce => if decision.denied.isNone then { decision with denied := named } else decision
    | .audit => { decision with audited := decision.audited ++ [named] }
    | .off => decision

def decide (rules : List NamedRule) : Decision := rules.foldl (decideRule actor kind subject) {}

end

/-! ## What the patterns mean -/

inductive Token where
  | any
  | segment
  | byte (b : UInt8)

def tokens : List UInt8 → List Token
  | [] => []
  | 42 :: 42 :: rest => .any :: tokens rest
  | 42 :: rest => .segment :: tokens rest
  | b :: rest => .byte b :: tokens rest

def Token.language : Token → Language UInt8
  | .any => ⊤
  | .segment => {bytes | 47 ∉ bytes}
  | .byte b => {[b]}

def meaning (pattern : List UInt8) : Language UInt8 := ((tokens pattern).map Token.language).prod

theorem any_skip_iff {n : Nat} {value : List UInt8} {L S : Language UInt8} {p : List UInt8 → Bool}
    (hp : ∀ skip, p (value.drop skip) ↔ value.drop skip ∈ L)
    (hs : ∀ a b, a ++ b = value → (a ∈ S ↔ a.length ≤ n)) :
    (range (n + 1)).any (fun skip => p (value.drop skip)) ↔ value ∈ S * L := by
  rw [any_eq_true, Language.mem_mul]
  constructor
  · rintro ⟨skip, hk, h⟩
    have hd := take_append_drop skip value
    refine ⟨value.take skip, (hs _ _ hd).mpr ?_, _, (hp skip).mp h, hd⟩
    exact (length_take_le skip value).trans (Nat.le_of_lt_succ (mem_range.mp hk))
  · rintro ⟨a, ha, b, hb, hv⟩
    refine ⟨a.length, mem_range.mpr (Nat.lt_succ_of_le ((hs a b hv).mp ha)), (hp _).mpr ?_⟩
    rwa [← hv, drop_left]

theorem globMatches_iff (pattern value : List UInt8) :
    globMatches pattern value ↔ value ∈ meaning pattern := by
  fun_induction globMatches pattern value with
  | case1 value => simp [meaning, tokens]
  | case2 rest value ih =>
    exact any_skip_iff ih fun a b h => iff_of_true (Set.mem_univ a) (by simp [← h])
  | case3 rest value hr ih =>
    rw [meaning, tokens, map_cons, prod_cons]
    · refine any_skip_iff ih fun a b h => ?_
      change 47 ∉ a ↔ _
      subst h
      by_cases ha : 47 ∈ a
      · simpa [idxOf_append, ha] using idxOf_lt_length_of_mem ha
      · simp [idxOf_append, ha]
    · exact hr
  | case4 first rest value ha hs ih =>
    rw [meaning, tokens, map_cons, prod_cons, Language.mem_mul]
    · have hf : ∀ w, w ∈ (Token.byte first).language ↔ w = [first] := fun w => Iff.rfl
      cases value with
      | nil => simp [hf]
      | cons b value =>
        have ih : globMatches rest value ↔ value ∈ ((tokens rest).map Token.language).prod := ih
        simp [hf, ih, @eq_comm _ b, and_comm]
    · exact ha
    · exact hs

/-- The rule says of the write what the languages of its patterns say. -/
def Rule.Restricts (rule : Rule) (actor kind subject : String) : Prop :=
  let Any (patterns : List String) (value : String) :=
    ∃ pattern ∈ patterns, value.toUTF8.toList ∈ meaning (expand actor pattern).toUTF8.toList
  Any rule.actors actor ∧ ¬ Any rule.except actor ∧ Any rule.kinds kind ∧
    (rule.subjects = [] ∨ Any rule.subjects subject) ∧ ¬ Any rule.unlessSubjects subject

theorem restricts_iff {rule : Rule} {actor kind subject : String} :
    rule.restricts actor kind subject ↔ rule.Restricts actor kind subject := by
  simp only [Rule.restricts, Rule.Restricts, glob, Bool.and_eq_true, Bool.or_eq_true,
    Bool.not_eq_true', any_eq_true, globMatches_iff, List.isEmpty_iff, and_assoc, any_eq_false,
    not_exists, not_and]

open Classical in
/-- A write is denied by the first enforcing rule that restricts it, and audited by all auditing
rules that do. -/
theorem decide_eq (rules : List NamedRule) (actor kind subject : String) :
    decide actor kind subject rules =
    { audited :=
        rules.filter fun named => named.rule.mode = .audit ∧
          named.rule.Restricts actor kind subject
      denied :=
        rules.find? fun named => named.rule.mode = .enforce ∧
          named.rule.Restricts actor kind subject } := by
  induction rules using reverseRecOn with
  | nil => rfl
  | append_singleton rules named ih =>
    rw [decide, foldl_append, ← decide, ih, filter_append, find?_append]
    have hr := @restricts_iff named.rule actor kind subject
    by_cases h : named.rule.Restricts actor kind subject
    · cases hm : named.rule.mode <;> cases rules.find? _ <;> simp [decideRule, hm, hr.mpr h, h]
    · simp [decideRule, Bool.eq_false_iff.mpr (mt hr.mp h), h]

end Smalltalk.Rules
