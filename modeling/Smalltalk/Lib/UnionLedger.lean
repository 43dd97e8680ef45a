import Mathlib
import Smalltalk.Lib.Pages
import Smalltalk.Lib.Table

/-!
# Ledgers that keep every row's facts

Rows come, change and go under row ids. A ledger keeps a fact of each row under an encoded
name, the first one it is given. Writes to the rows record what they touch, and an import
pages over the rows from before. The ghost list `ever` holds every row there ever was.
-/

namespace Smalltalk

open List Option Table

section
variable {ρ R ε φ : Type} [DecidableEq ε]

/-- The facts of a row, recorded unless their names are taken. -/
def unionRow (facts : ρ → List (R × φ)) (encode : R → ε) (ledger : Table ε φ) (row : ρ) :
    Table ε φ :=
  ledger.insertAll ((facts row).map fun fact => (encode fact.1, fact.2))

def pageThrough (rows : Table Nat ρ) (cursor page : Nat) : Option Nat :=
  ((rowsAfter (some cursor) (sortByKey rows.rows)).take page).getLast?.map (·.1)

def recordPage (facts : ρ → List (R × φ)) (encode : R → ε) (ledger : Table ε φ) (rows : Table Nat ρ)
    (cursor through : Nat) : Table ε φ :=
  (rows.rows.filter fun r => cursor < r.1 && r.1 ≤ through).foldl
    (fun ledger r => unionRow facts encode ledger r.2) ledger

/-- What a ledger holds of the rows there ever were. Row ids in `waits` are those
the import has yet to reach. -/
structure Covered (facts : ρ → List (R × φ)) (encode : R → ε) (waits : Nat → Prop)
    (rows : Table Nat ρ) (ledger : Table ε φ) (ever : List (R × φ)) : Prop where
  sound : ∀ name fact, ledger.get? name = some fact → ∃ r, encode r = name ∧ (r, fact) ∈ ever
  held : ∀ rowid row, rows.get? rowid = some row → ∀ fact ∈ facts row, fact ∈ ever
  covered : ∀ fact ∈ ever, ledger.get? (encode fact.1) ≠ none ∨
    ∃ rowid row fact', rows.get? rowid = some row ∧ fact' ∈ facts row ∧
    fact'.1 = fact.1 ∧ waits rowid

inductive LedgerStep (facts : ρ → List (R × φ)) (encode : R → ε) :
    (Nat → Prop) → Table Nat ρ → Table ε φ → List (R × φ) →
    (Nat → Prop) → Table Nat ρ → Table ε φ → List (R × φ) → Prop where
  | stay {waits rows ledger ever} :
      LedgerStep facts encode waits rows ledger ever waits rows ledger ever
  | insert {waits rows ledger ever rowid row} (hnone : rows.get? rowid = none) :
      LedgerStep facts encode waits rows ledger ever
        waits (rows.insert rowid row) (unionRow facts encode ledger row) (ever ++ facts row)
  | delete {waits rows ledger ever rowid row} (hrow : rows.get? rowid = some row) :
      LedgerStep facts encode waits rows ledger ever waits (rows.delete rowid)
        (unionRow facts encode ledger row) ever
  | update {waits rows ledger ever rowid old new} (hold : rows.get? rowid = some old) :
      LedgerStep facts encode waits rows ledger ever waits (rows.update rowid fun _ => new)
        (unionRow facts encode (unionRow facts encode ledger new) old) (ever ++ facts new)
  /-- A change of what the ledger does not keep. -/
  | replace {waits rows ledger ever rowid old new} (hold : rows.get? rowid = some old)
      (hsame : facts new = facts old) :
      LedgerStep facts encode waits rows ledger ever waits (rows.update rowid fun _ => new) ledger
        (ever ++ facts new)
  | page {waits waits' rows ledger ever cursor through} (hwaits : ∀ rowid, waits rowid →
      cursor < rowid)
      (hnext : ∀ rowid, waits rowid → rowid ≤ through ∨ waits' rowid) :
      LedgerStep facts encode waits rows ledger ever waits' rows
        (recordPage facts encode ledger rows cursor through) ever
  | finish {waits waits' rows ledger ever} (hnone : ∀ rowid row, rows.get? rowid = some row →
      ¬ waits rowid) :
      LedgerStep facts encode waits rows ledger ever waits' rows ledger ever

variable {facts : ρ → List (R × φ)} {encode : R → ε} {waits waits' : Nat → Prop}
    {rows : Table Nat ρ}
  {ledger : Table ε φ} {ever : List (R × φ)}

theorem get?_unionRow_ne_none (row : ρ) {name : ε} (h : ledger.get? name ≠ none) :
    (unionRow facts encode ledger row).get? name ≠ none := by
  rw [unionRow, get?_insertAll, ne_eq, or_eq_none_iff]
  exact fun hn => h hn.1

theorem get?_unionRow_fact {row : ρ} {f : R × φ} (h : f ∈ facts row) :
    (unionRow facts encode ledger row).get? (encode f.1) ≠ none := by
  rw [unionRow, get?_insertAll, ne_eq, or_eq_none_iff, map_eq_none_iff, find?_eq_none]
  intro hn
  have := hn.2 _ (List.mem_map_of_mem h)
  simp at this

theorem of_get?_unionRow {row : ρ} {name : ε} {fact : φ}
    (h : (unionRow facts encode ledger row).get? name = some fact) :
    ledger.get? name = some fact ∨ ∃ r, encode r = name ∧ (r, fact) ∈ facts row := by
  rw [unionRow, get?_insertAll] at h
  rcases or_eq_some_iff.mp h with h | ⟨-, h⟩
  · exact .inl h
  · right
    obtain ⟨f, hf, hc⟩ := map_eq_some_iff.mp h
    obtain ⟨⟨r, fact'⟩, hm, rfl⟩ := List.mem_map.mp (mem_of_find?_eq_some hf)
    have hn : encode r = name := by simpa using find?_some hf
    exact ⟨r, hn, hc ▸ hm⟩

section
variable (h : Covered facts encode waits rows ledger ever)
include h

variable {row : ρ} {rowid : Nat}

theorem Covered.record (hr : ∀ f ∈ facts row, f ∈ ever) :
    Covered facts encode waits rows (unionRow facts encode ledger row) ever where
  sound name f hg := by
    rcases of_get?_unionRow hg with hg | ⟨r, hn, hm⟩
    · exact h.sound name f hg
    · exact ⟨r, hn, hr _ hm⟩
  held := h.held
  covered f hf := (h.covered f hf).imp_left (get?_unionRow_ne_none row)

theorem Covered.insert (hrows : rows.get? rowid = none) :
    Covered facts encode waits (rows.insert rowid row) (unionRow facts encode ledger row)
      (ever ++ facts row) where
  sound name fact hg := by
    rcases of_get?_unionRow hg with hg | ⟨r, hn, hm⟩
    · obtain ⟨r, hn, hm⟩ := h.sound name fact hg
      exact ⟨r, hn, mem_append_left _ hm⟩
    · exact ⟨r, hn, mem_append_right _ hm⟩
  held rowid' row' hg fact hf := by
    rcases of_get?_insert hg with hg | ⟨-, rfl⟩
    · exact mem_append_left _ (h.held rowid' row' hg fact hf)
    · exact mem_append_right _ hf
  covered fact hf := by
    rcases mem_append.mp hf with hf | hf
    · refine (h.covered fact hf).imp (get?_unionRow_ne_none row) ?_
      rintro ⟨rowid', row', fact', hg, hm, heq, hw⟩
      refine ⟨rowid', row', fact', ?_, hm, heq, hw⟩
      rw [get?_insert, if_neg (fun e => by rw [e, hrows] at hg; cases hg)]
      exact hg
    · exact .inl (get?_unionRow_fact hf)

theorem Covered.delete (hr : rows.get? rowid = some row) :
    Covered facts encode waits (rows.delete rowid) (unionRow facts encode ledger row) ever where
  sound := (h.record (h.held rowid row hr)).sound
  held rowid' row' hg := h.held rowid' row' (of_get?_delete hg)
  covered fact hf := by
    rcases h.covered fact hf with hc | ⟨rowid', row', fact', hg, hm, heq, ht⟩
    · exact .inl (get?_unionRow_ne_none row hc)
    · by_cases hw : rowid' = rowid
      · rw [hw, hr] at hg
        cases hg
        exact .inl (heq ▸ get?_unionRow_fact hm)
      · refine .inr ⟨rowid', row', fact', ?_, hm, heq, ht⟩
        rw [get?_delete, if_neg hw]
        exact hg

/-- A row that changes is recorded as it is and as it was. -/
theorem Covered.update {old new : ρ} (hold : rows.get? rowid = some old) :
    Covered facts encode waits (rows.update rowid fun _ => new)
      (unionRow facts encode (unionRow facts encode ledger new) old) (ever ++ facts new) where
  sound name fact hg := by
    rcases of_get?_unionRow hg with hg | ⟨r, hn, hm⟩
    · rcases of_get?_unionRow hg with hg | ⟨r, hn, hm⟩
      · obtain ⟨r, hn, hm⟩ := h.sound name fact hg
        exact ⟨r, hn, mem_append_left _ hm⟩
      · exact ⟨r, hn, mem_append_right _ hm⟩
    · exact ⟨r, hn, mem_append_left _ (h.held rowid old hold _ hm)⟩
  held rowid' row' hg fact hf := by
    rw [get?_update] at hg
    by_cases hr : rowid' = rowid
    · rw [if_pos hr, hold] at hg
      cases hg
      exact mem_append_right _ hf
    · rw [if_neg hr] at hg
      exact mem_append_left _ (h.held rowid' row' hg fact hf)
  covered fact hf := by
    rcases mem_append.mp hf with hf | hf
    · rcases h.covered fact hf with hc | ⟨rowid', row', fact', hg, hm, heq, hw⟩
      · exact .inl (get?_unionRow_ne_none old (get?_unionRow_ne_none new hc))
      · by_cases hr : rowid' = rowid
        · rw [hr, hold] at hg
          cases hg
          exact .inl (heq ▸ get?_unionRow_fact hm)
        · refine .inr ⟨rowid', row', fact', ?_, hm, heq, hw⟩
          rw [get?_update, if_neg hr]
          exact hg
    · exact .inl (get?_unionRow_ne_none old (get?_unionRow_fact hf))

theorem Covered.replace {old new : ρ} (hold : rows.get? rowid = some old)
    (hs : facts new = facts old) :
    Covered facts encode waits (rows.update rowid fun _ => new) ledger (ever ++ facts new) := by
  have he : ∀ f ∈ facts new, f ∈ ever := fun f hf => h.held rowid old hold f (hs ▸ hf)
  have hg : ∀ rowid', (rows.update rowid fun _ => new).get? rowid' = if rowid' = rowid then some new
    else rows.get? rowid' := by
    intro rowid'
    rw [get?_update, hold, map_some]
  constructor
  · intro name f hn
    obtain ⟨r, hr, hm⟩ := h.sound name f hn
    exact ⟨r, hr, mem_append_left _ hm⟩
  · intro rowid' row' hw f hf
    rw [hg] at hw
    by_cases hrowid : rowid' = rowid
    · rw [if_pos hrowid] at hw
      cases hw
      exact mem_append_right _ hf
    · rw [if_neg hrowid] at hw
      exact mem_append_left _ (h.held rowid' row' hw f hf)
  · intro f hf
    have hf : f ∈ ever := (mem_append.mp hf).elim id (he f)
    refine (h.covered f hf).imp_right ?_
    rintro ⟨rowid', row', fact', hw, hm, heq, ht⟩
    by_cases hrowid : rowid' = rowid
    · rw [hrowid, hold] at hw
      cases hw
      exact ⟨rowid', new, fact', by rw [hg, if_pos hrowid], hs ▸ hm, heq, ht⟩
    · exact ⟨rowid', row', fact', by rw [hg, if_neg hrowid, hw], hm, heq, ht⟩

end

variable {p : List (Nat × ρ)} {ever' : List (R × φ)}

theorem foldl_unionRow_ne_none {name : ε} : ∀ {ledger : Table ε φ}, ledger.get? name ≠ none →
    (p.foldl (fun ledger r => unionRow facts encode ledger r.2) ledger).get? name ≠ none := by
  induction p with
  | nil => exact fun h => h
  | cons r p ih => exact fun h => ih (get?_unionRow_ne_none r.2 h)

theorem Covered.foldl : ∀ {ledger : Table ε φ}, Covered facts encode waits rows ledger ever →
    (∀ r ∈ p, rows.get? r.1 = some r.2) →
    Covered facts encode waits rows
      (p.foldl (fun ledger r => unionRow facts encode ledger r.2) ledger) ever ∧
      ∀ r ∈ p, ∀ f ∈ facts r.2,
        (p.foldl (fun ledger r => unionRow facts encode ledger r.2) ledger).get?
          (encode f.1) ≠ none := by
  induction p with
  | nil => exact fun h _ => ⟨h, fun r hr => (nomatch hr)⟩
  | cons r p ih =>
    intro ledger h hp
    obtain ⟨hv, hc⟩ :=
      ih (h.record (h.held r.1 r.2 (hp r mem_cons_self)))
        fun r' hr' => hp r' (mem_cons_of_mem _ hr')
    refine ⟨hv, fun r' hr' f hf => ?_⟩
    rcases mem_cons.mp hr' with rfl | hr'
    · rw [foldl_cons]
      exact foldl_unionRow_ne_none (get?_unionRow_fact hf)
    · exact hc r' hr' f hf

/-- The rows of a page are recorded, and the others wait on. -/
theorem Covered.recordPage (h : Covered facts encode waits rows ledger ever) {c through : Nat}
    (ht : ∀ rowid, waits rowid → c < rowid)
    (hn : ∀ rowid, waits rowid → rowid ≤ through ∨ waits' rowid) :
    Covered facts encode waits' rows (recordPage facts encode ledger rows c through) ever := by
  have hp : ∀ r ∈ rows.rows.filter (fun r => c < r.1 && r.1 ≤ through), rows.get? r.1 = some r.2 :=
    fun r hr => mem_rows.mp (mem_filter.mp hr).1
  obtain ⟨hc, hledger⟩ := Covered.foldl h hp
  refine ⟨hc.sound, hc.held, fun f hf => ?_⟩
  rcases hc.covered f hf with hc | ⟨rowid, row, fact', hg, hm, heq, hw⟩
  · exact .inl hc
  · rcases hn rowid hw with hl | ht'
    · refine .inl (heq ▸ hledger (rowid, row) (mem_filter.mpr ⟨mem_rows.mpr hg, ?_⟩) fact' hm)
      simp [ht rowid hw, hl]
    · exact .inr ⟨rowid, row, fact', hg, hm, heq, ht'⟩

theorem Covered.finish (h : Covered facts encode waits rows ledger ever)
    (hn : ∀ rowid row, rows.get? rowid = some row → ¬ waits rowid) :
    Covered facts encode waits' rows ledger ever where
  sound := h.sound
  held := h.held
  covered fact hf := by
    rcases h.covered fact hf with hc | ⟨rowid, row, fact', hg, hm, heq, hw⟩
    · exact .inl hc
    · exact absurd hw (hn rowid row hg)

variable {rowid : Nat} {new old row : ρ}

theorem pageThrough_none {cursor m : Nat} (h : pageThrough rows cursor (m + 1) = none)
    (hg : rows.get? rowid = some row) : rowid ≤ cursor := by
  have hn : (rowsAfter (some cursor) (sortByKey rows.rows)).take (m + 1) = [] := by
    simpa [pageThrough] using h
  have he : rowsAfter (some cursor) (sortByKey rows.rows) = [] := by simpa using hn
  by_contra hl
  have hm : (rowid, row) ∈ rowsAfter (some cursor) (sortByKey rows.rows) :=
    mem_rowsAfter.mpr ⟨mem_sortByKey.mpr (mem_rows.mpr hg), by simpa using Nat.lt_of_not_le hl⟩
  rw [he] at hm
  cases hm

/-- A name is in the ledger once its rows are gone or the import is done. -/
theorem Covered.recorded (h : Covered facts encode waits rows ledger ever) {r : R} {f : φ}
    (he : (r, f) ∈ ever)
    (hg : (∀ rowid row, rows.get? rowid = some row → ∀ f' ∈ facts row, f'.1 ≠ r) ∨
      ∀ rowid, ¬ waits rowid) :
    ledger.get? (encode r) ≠ none := by
  rcases h.covered (r, f) he with hc | ⟨rowid, row, f', ht, hm, heq, hw⟩
  · exact hc
  · rcases hg with hg | hg
    · exact absurd heq (hg rowid row ht f' hm)
    · exact absurd hw (hg rowid)

structure Records (facts : ρ → List (R × φ)) (encode : R → ε) (rows : Table Nat ρ)
    (ledger : Table ε φ) (rows' : Table Nat ρ) (ledger' : Table ε φ) : Prop where
  kept : ∀ name, ledger.get? name ≠ none → ledger'.get? name ≠ none
  left : ∀ rowid row, rows.get? rowid = some row →
    ∀ fact ∈ facts row, ledger'.get? (encode fact.1) ≠ none ∨
    ∃ row', rows'.get? rowid = some row' ∧ ∃ fact' ∈ facts row', fact'.1 = fact.1

variable {r' r'' : Table Nat ρ} {ledger' l'' : Table ε φ}

theorem Records.of_rows_eq (hk : ∀ name, ledger.get? name ≠ none → ledger'.get? name ≠ none) :
    Records facts encode rows ledger rows ledger' where
  kept := hk
  left _ row hg fact hf := .inr ⟨row, hg, fact, hf, rfl⟩

theorem Records.refl : Records facts encode rows ledger rows ledger := .of_rows_eq fun _ h => h

theorem Records.trans (h : Records facts encode rows ledger r' ledger')
    (h' : Records facts encode r' ledger' r'' l'') : Records facts encode rows ledger r'' l'' where
  kept name hg := h'.kept name (h.kept name hg)
  left rowid row hg fact hf := by
    rcases h.left rowid row hg fact hf with hh | ⟨row', hg', fact', hf', heq⟩
    · exact .inl (h'.kept _ hh)
    · rw [← heq]
      exact h'.left rowid row' hg' fact' hf'

theorem Records.insert (hn : rows.get? rowid = none) :
    Records facts encode rows ledger (rows.insert rowid row)
      (unionRow facts encode ledger row) where
  kept _ h := get?_unionRow_ne_none row h
  left rowid' row' hg fact hf := by
    refine .inr ⟨row', ?_, fact, hf, rfl⟩
    have hne : rowid' ≠ rowid := by
      rintro rfl
      rw [hn] at hg
      cases hg
    rw [get?_insert, if_neg hne, hg]

theorem Records.delete (hr : rows.get? rowid = some row) :
    Records facts encode rows ledger (rows.delete rowid) (unionRow facts encode ledger row) where
  kept _ h := get?_unionRow_ne_none row h
  left rowid' row' hg fact hf := by
    by_cases heq : rowid' = rowid
    · subst heq
      cases hr.symm.trans hg
      exact .inl (get?_unionRow_fact hf)
    · refine .inr ⟨row', ?_, fact, hf, rfl⟩
      rw [get?_delete, if_neg heq, hg]

theorem Records.update (hold : rows.get? rowid = some old) :
    Records facts encode rows ledger (rows.update rowid fun _ => new)
      (unionRow facts encode (unionRow facts encode ledger new) old) where
  kept _ h := get?_unionRow_ne_none old (get?_unionRow_ne_none new h)
  left rowid' row' hg fact hf := by
    by_cases heq : rowid' = rowid
    · subst heq
      cases hold.symm.trans hg
      exact .inl (get?_unionRow_fact hf)
    · refine .inr ⟨row', ?_, fact, hf, rfl⟩
      rw [get?_update, if_neg heq, hg]

theorem Records.replace (hold : rows.get? rowid = some old) (hs : facts new = facts old) :
    Records facts encode rows ledger (rows.update rowid fun _ => new) ledger where
  kept _ h := h
  left rowid' row' hg fact hf := by
    by_cases heq : rowid' = rowid
    · subst heq
      cases hold.symm.trans hg
      exact .inr ⟨new, by rw [get?_update, if_pos rfl, hold, map_some], fact, hs ▸ hf, rfl⟩
    · refine .inr ⟨row', ?_, fact, hf, rfl⟩
      rw [get?_update, if_neg heq, hg]

theorem Records.recordPage (c through : Nat) :
    Records facts encode rows ledger rows (recordPage facts encode ledger rows c through) :=
  .of_rows_eq fun _ h => foldl_unionRow_ne_none h

/-- A row's name is held once the row no longer has it. -/
theorem Records.withdrawn (h : Records facts encode rows ledger r' ledger')
    (hg : rows.get? rowid = some row) {f : R × φ} (hf : f ∈ facts row)
    (hn : ∀ row', r'.get? rowid = some row' → ∀ f' ∈ facts row', f'.1 ≠ f.1) :
    ledger'.get? (encode f.1) ≠ none := by
  rcases h.left rowid row hg f hf with hh | ⟨row', hg', f', hf', heq⟩
  · exact hh
  · exact absurd heq (hn row' hg' f' hf')

theorem Covered.step (h : Covered facts encode waits rows ledger ever)
    (hs : LedgerStep facts encode waits rows ledger ever waits' r' ledger' ever') :
    Covered facts encode waits' r' ledger' ever' := by
  cases hs with
  | stay => exact h
  | insert hn => exact h.insert hn
  | delete hr => exact h.delete hr
  | update hold => exact h.update hold
  | replace hold hm => exact h.replace hold hm
  | page hw hx => exact h.recordPage hw hx
  | finish hn => exact h.finish hn

theorem LedgerStep.records
    (hs : LedgerStep facts encode waits rows ledger ever waits' r' ledger' ever') :
    Records facts encode rows ledger r' ledger' := by
  cases hs with
  | stay => exact .refl
  | insert hn => exact .insert hn
  | delete hr => exact .delete hr
  | update hold => exact .update hold
  | replace hold hm => exact .replace hold hm
  | page => exact .recordPage _ _
  | finish => exact .refl

/-- An update fires its trigger, or changes nothing the ledger keeps. -/
theorem LedgerStep.rewrite (hold : rows.get? rowid = some old) {changed : Bool}
    (hs : changed = false → facts new = facts old) :
    LedgerStep facts encode waits rows ledger ever waits (rows.update rowid fun _ => new)
      (if changed then unionRow facts encode (unionRow facts encode ledger new) old
        else ledger) (ever ++ facts new) := by
  cases changed with
  | true => exact .update hold
  | false => exact .replace hold (hs rfl)

end

end Smalltalk
