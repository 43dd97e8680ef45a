import Mathlib
import Smalltalk.Lib.Texts
import Smalltalk.Principals.Judge

/-!
# Judging candidates page by page

A claim with many signature candidates is judged a page at a time. The best candidate so far
and whether a page met an unfinished dependency are stored between pages.
-/

namespace Smalltalk.Principals

open List Option

def Verdict.rank : Verdict → Nat
  | verified => 0
  | held _ => 1
  | invalid _ => 2
  | unsigned => 3

def Verdict.incomplete : Verdict → Bool
  | held reason => startsWith reason "signature-judgment-incomplete:"
  | _ => false

def dependencyPending : Verdict :=
  .held "signature-judgment-incomplete: an authority dependency is pending"

/-- The verdict on a candidate, and whether a revocation that it met is not judged yet. -/
structure Opinion where
  verdict : Verdict
  incomplete : Bool
  deriving DecidableEq

abbrev Judgment := Verdict × Option String

structure Candidates where
  texts : List String
  increasing : texts.Pairwise (· < ·)
  nonempty : ∀ text ∈ texts, "" < text

structure Judging where
  last : String := ""
  best : Option (Verdict × String) := none
  blocked : Bool := false

def better (best : Option (Verdict × String)) (judged : Verdict × String) :
    Option (Verdict × String) :=
  if best.all (judged.1.rank < ·.1.rank) then some judged else best

/-- Between pages, equal ranks are told apart by the text. -/
def improve (best : Option (Verdict × String)) (judged : Verdict × String) :
    Option (Verdict × String) :=
  if best.all fun old => judged.1.rank < old.1.rank ∨
    judged.1.rank = old.1.rank ∧ judged.2 < old.2 then some judged
  else best

def bestOf (judged : List (Verdict × String)) : Option (Verdict × String) :=
  judged.foldl better none

section
variable {Memo : Type} (judge : String → Memo → Opinion × Memo)

def judgeAll : List String → Memo → List (Opinion × String)
  | [], _ => []
  | text :: texts, memo => ((judge text memo).1, text) :: judgeAll texts (judge text memo).2

def judgeCandidates (texts : List String) (memo : Memo) : Judgment :=
  let judged := judgeAll judge texts memo
  let best := bestOf (judged.map fun j => (j.1.verdict, j.2))
  if judged.any (·.1.incomplete) then (dependencyPending, best.map (·.2))
  else best.elim (.unsigned, none) fun b => (b.1, some b.2)

/-- A page of at most `budget` candidates, and the judgment if it is the last one. -/
def advance (candidates : Candidates) (state : Judging) (memo : Memo) (budget : Nat) :
    Judging × Option Judgment :=
  let texts := (candidates.texts.filter (state.last < ·)).take budget
  let page := judgeCandidates judge texts memo
  let blocked := state.blocked || page.1.incomplete
  let best := page.2.elim state.best fun text => improve state.best (page.1, text)
  ({ last := texts.getLast?.getD state.last, best, blocked },
    if texts.length < budget then
      some (best.elim (.unsigned, none) fun b =>
        (if blocked then dependencyPending else b.1, some b.2))
    else none)

/-- Calls until one of them ends, each with its memo and its budget. -/
def advances (candidates : Candidates) : Judging → List (Memo × Nat) → Option Judgment
  | _, [] => none
  | state, (memo, budget) :: calls => match advance judge candidates state memo budget with
    | (_, some judgment) => some judgment
    | (state, none) => advances candidates state calls

/-- What a candidate is judged depends on no memo, and on nothing unfinished. -/
def Settled (candidates : Candidates) (verdict : String → Verdict) : Prop :=
  ∀ text ∈ candidates.texts, (verdict text).incomplete = false ∧
  ∀ memo, (judge text memo).1 = ⟨verdict text, false⟩

end

theorem mem_of_bestOf {judged : List (Verdict × String)} {b : Verdict × String}
    (h : bestOf judged = some b) :
    b ∈ judged := by
  induction judged using reverseRecOn generalizing b with
  | nil => cases h
  | append_singleton judged j ih =>
    rw [bestOf, foldl_append, foldl_cons, foldl_nil, better] at h
    split at h
    · simp_all
    · exact mem_append_left _ (ih h)

theorem better_some (a b : Verdict × String) :
    better (some a) b = some (if b.1.rank < a.1.rank then b else a) := by
  simp only [better, all_some, decide_eq_true_eq]
  split <;> rfl

theorem foldl_better (best : Option (Verdict × String)) (judged : List (Verdict × String)) :
    judged.foldl better best = (bestOf judged).elim best (better best) := by
  induction judged using reverseRecOn with
  | nil => rfl
  | append_singleton judged j ih =>
    rw [bestOf, foldl_append, foldl_append, foldl_cons, foldl_nil, foldl_cons, foldl_nil,
      ih, ← bestOf]
    cases bestOf judged with
    | none => rfl
    | some b =>
      cases best with
      | none => cases h : better (some b) j <;> simp_all [better]
      | some a =>
        by_cases hb : b.1.rank < a.1.rank <;> by_cases hj : j.1.rank < b.1.rank <;>
          simp [better_some, hb, hj]
        · exact fun hle => absurd (hj.trans hb) (not_lt.mpr hle)
        · exact fun hlt => absurd ((not_lt.mp hb).trans (not_lt.mp hj)) (not_le.mpr hlt)

/-- Texts of a later page are greater, so the tie break by text is none. -/
theorem bestOf_append {judged l : List (Verdict × String)}
    (h : ∀ j ∈ judged, ∀ j' ∈ l, j.2 < j'.2) :
    bestOf (judged ++ l) = (bestOf l).elim (bestOf judged) (improve (bestOf judged)) := by
  rw [bestOf, foldl_append, ← bestOf, foldl_better]
  cases hl : bestOf l with
  | none => rfl
  | some b =>
    cases hj : bestOf judged with
    | none => rfl
    | some a =>
      have hlt := h a (mem_of_bestOf hj) b (mem_of_bestOf hl)
      simp only [elim_some, better, improve, all_some, hlt.not_gt, and_false, or_false]

section
variable {Memo : Type} {judge : String → Memo → Opinion × Memo} {candidates : Candidates}
    {verdict : String → Verdict}
  {read rest : List String}

def judged (verdict : String → Verdict) (texts : List String) : List (Verdict × String) :=
  texts.map fun text => (verdict text, text)

def Judging.after (verdict : String → Verdict) (read : List String) : Judging :=
  ⟨read.getLast?.getD "", bestOf (judged verdict read), false⟩

def judgment (best : Option (Verdict × String)) : Judgment :=
  best.elim (.unsigned, none) fun b => (b.1, some b.2)

theorem judgeCandidates_settled (h : Settled judge candidates verdict) {texts : List String}
    (hs : ∀ text ∈ texts, text ∈ candidates.texts) (m : Memo) :
    judgeCandidates judge texts m = judgment (bestOf (judged verdict texts)) := by
  have hj : judgeAll judge texts m = texts.map fun text => (⟨verdict text, false⟩, text) := by
    induction texts generalizing m with
    | nil => rfl
    | cons text texts ih =>
      rw [judgeAll, map_cons, (h text (hs text mem_cons_self)).2,
        ih fun t ht => hs t (mem_cons_of_mem _ ht)]
  rw [judgeCandidates, hj]
  simp [judged, judgment, Function.comp_def]

theorem filter_last_lt (h : candidates.texts = read ++ rest) :
    candidates.texts.filter (read.getLast?.getD "" < ·) = rest := by
  have hi := candidates.increasing
  have he := candidates.nonempty
  rw [h] at hi he ⊢
  cases hl : read.getLast? with
  | none =>
    rw [getLast?_eq_none_iff.mp hl] at he ⊢
    exact filter_eq_self.mpr fun t ht => decide_eq_true (he t ht)
  | some l =>
    obtain ⟨f, rfl⟩ := getLast?_eq_some_iff.mp hl
    obtain ⟨hf, -, hlt⟩ := pairwise_append.mp hi
    rw [filter_append, filter_eq_nil_iff.mpr, nil_append, filter_eq_self.mpr]
    · exact fun t ht => decide_eq_true (hlt l (by simp) t ht)
    · intro t ht
      simp only [getD_some, decide_eq_true_eq, not_lt]
      rcases mem_append.mp ht with ht | ht
      · exact ((pairwise_append.mp hf).2.2 t ht l (by simp)).le
      · exact (mem_singleton.mp ht).le

theorem advance_settled (h : Settled judge candidates verdict)
    (hr : candidates.texts = read ++ rest) (m : Memo) (budget : Nat) :
    advance judge candidates (.after verdict read) m budget =
      (.after verdict (read ++ rest.take budget), if rest.length < budget then
        some (judgment (bestOf (judged verdict candidates.texts))) else none) := by
  have hm : ∀ text ∈ rest.take budget, text ∈ candidates.texts := fun t ht => by
    rw [hr]
    exact mem_append_right _ (mem_of_mem_take ht)
  have ho : ∀ j ∈ judged verdict read, ∀ j' ∈ judged verdict (rest.take budget), j.2 < j'.2 := by
    intro j hj j' hj'
    obtain ⟨t, ht, rfl⟩ := mem_map.mp hj
    obtain ⟨t', ht', rfl⟩ := mem_map.mp hj'
    exact (pairwise_append.mp (hr ▸ candidates.increasing)).2.2 t ht t' (mem_of_mem_take ht')
  have hb := bestOf_append ho
  rw [judged, judged, ← map_append, ← judged, ← judged, ← judged] at hb
  have hp := judgeCandidates_settled h hm m
  have hi : (judgment (bestOf (judged verdict (rest.take budget)))).1.incomplete = false := by
    cases hj : bestOf (judged verdict (rest.take budget)) with
    | none => rfl
    | some b =>
      obtain ⟨t, ht, rfl⟩ := mem_map.mp (mem_of_bestOf hj)
      exact (h t (hm t ht)).1
  have hl : (rest.take budget).getLast?.getD (read.getLast?.getD "") =
      (read ++ rest.take budget).getLast?.getD "" := by
    rw [getLast?_append, getD_or]
  have hs : (judgment (bestOf (judged verdict (rest.take budget)))).2.elim
      (bestOf (judged verdict read)) (fun text =>
      improve (bestOf (judged verdict read))
        ((judgment (bestOf (judged verdict (rest.take budget)))).1, text)) =
        bestOf (judged verdict (read ++ rest.take budget)) := by
    rw [hb]
    cases bestOf (judged verdict (rest.take budget)) <;> rfl
  have hf : candidates.texts.filter ((Judging.after verdict read).last < ·) = rest :=
    filter_last_lt hr
  unfold advance
  simp only [hf, hp, hi]
  refine Prod.ext ?_ ?_
  · simp only [Judging.after, hl, hs, Bool.or_false]
  · simp only [Judging.after, hs, Bool.or_false, length_take]
    by_cases hlt : rest.length < budget
    · rw [if_pos (by omega), if_pos hlt, take_of_length_le hlt.le, ← hr]
      rfl
    · rw [if_neg (by omega), if_neg hlt]

end

/-- If the verdicts on the candidates are settled, any pages end with the judgment of one page. -/
theorem paged_judgment {Memo : Type} (judge : String → Memo → Opinion × Memo)
    (candidates : Candidates) (verdict : String → Verdict) (h : Settled judge candidates verdict)
    (calls : List (Memo × Nat)) (memo : Memo) (n : Nat) (hn : candidates.texts.length < n) :
    advances judge candidates {} calls =
      if candidates.texts.length < (calls.map (·.2)).sum then (advance judge candidates {} memo n).2
      else none := by
  have ho := congrArg Prod.snd (@advance_settled _ judge candidates verdict [] _ h rfl memo n)
  dsimp only at ho
  rw [if_pos hn] at ho
  have hc : ∀ read rest, candidates.texts = read ++ rest →
      advances judge candidates (.after verdict read) calls =
      if rest.length < (calls.map (·.2)).sum then
      some (judgment (bestOf (judged verdict candidates.texts)))
      else none := by
    induction calls with
    | nil => exact fun read rest hr => rfl
    | cons call calls ih =>
      intro read rest hr
      rw [advances, advance_settled h hr]
      by_cases hb : rest.length < call.2
      · have hlt : rest.length < ((call :: calls).map (·.2)).sum := by
          rw [map_cons, sum_cons]
          omega
        simp only [hb, hlt, if_true]
      · simp only [hb, if_false]
        rw [ih (read ++ rest.take call.2) (rest.drop call.2)
          (by rw [append_assoc, take_append_drop, hr])]
        congr 1
        rw [map_cons, sum_cons, length_drop, eq_iff_iff]
        omega
  rw [← ho] at hc
  exact hc [] _ rfl

def sampleVerdict (text : String) : Verdict :=
  if text = "a" then .invalid "the signature does not match the claim"
  else if text = "c" then .verified
  else .held "delegation claim/grant has not arrived"

def fourCandidates : Candidates := ⟨["a", "b", "c", "d"], by decide, by decide⟩

theorem differing_candidates_paged :
    let judge (text : String) (memo : Unit) : Opinion × Unit := (⟨sampleVerdict text, false⟩, memo)
    advances judge fourCandidates {} [((), 1), ((), 2), ((), 2)] = some (.verified, some "c") := by
  intro judge
  have hsettled : Settled judge fourCandidates sampleVerdict := by
    intro text ht
    refine ⟨?_, fun _ => rfl⟩
    revert ht text
    decide
  rw [paged_judgment judge fourCandidates sampleVerdict hsettled _ () 5 (by decide)]
  decide +kernel

def twoCandidates : Candidates := ⟨["a", "b"], by decide, by decide⟩

/-- An early candidate waits for the judgment of a delegation, and a later one is verified. -/
def waitingCandidate (text : String) (memo : Unit) : Opinion × Unit :=
  (⟨if text = "a" then .held "signature-judgment-incomplete: claim/grant"
    else .verified, false⟩, memo)

theorem waiting_page_blocks :
    advances waitingCandidate twoCandidates {} [((), 1), ((), 1), ((), 1)] =
      some (dependencyPending, some "b") ∧
    (advance waitingCandidate twoCandidates {} () 3).2 = some (.verified, some "b") := by
  decide +kernel

end Smalltalk.Principals
