import Smalltalk.Lib.KeyedSum
import Smalltalk.Projection.Digest

/-!
# Digests as sums

A digest, as a pair of a count and a number, is the sum of its rows' weights. A
trigger adds the row that a change brings and subtracts the one it takes.
-/

namespace Smalltalk.Projection

open List Option Table Accumulator Prod

section
variable {r : Registry} {rowHash : String → List String → Row → Accumulator}
variable {s t : Db} {table : String} {columns : List String} {old new : Option Row}
    {rows m : List Row}

/-! ## Digests as sums -/

abbrev Sum := Int × ZMod (256 ^ accumulatorBytes)

def Digest.sum (digest : Digest) : Sum := (digest.count, digest.accumulator.value)

variable (rowHash table columns) in
def weight (row : Row) : Sum := (1, (rowHash table columns row).value)

theorem Digest.ext_of_sum {f second : Digest} (hl : f.columns = second.columns)
    (hs : f.sum = second.sum) : f = second := by
  obtain ⟨hc, hv⟩ := Prod.mk.inj hs
  cases f
  cases second
  simp_all only [Digest.mk.injEq, true_and]
  exact value_injective hv

theorem sum_scan :
    (scan rowHash table columns rows).sum = (rows.map (weight rowHash table columns)).sum := by
  have hf : ∀ sum : Accumulator,
        (rows.foldl (fun sum row => sum.add (rowHash table columns row) false) sum).value =
        sum.value + (rows.map fun row => (rowHash table columns row).value).sum := by
    induction rows with
    | nil => simp
    | cons row rows ih =>
      intro sum
      rw [foldl_cons, ih, value_add, map_cons, sum_cons, add_assoc]
  have hp : (rows.map (weight rowHash table columns)).sum =
      ((rows.length : Int), (rows.map fun row => (rowHash table columns row).value).sum) := by
    clear hf
    induction rows with
    | nil => rfl
    | cons row rows ih =>
      rw [map_cons, sum_cons, ih, weight, map_cons, sum_cons, length_cons]
      simp [add_comm]
  rw [hp, Digest.sum, scan, hf, value_zero, zero_add]

theorem scan_congr
    (h : (m.map (weight rowHash table columns)).sum =
      (rows.map (weight rowHash table columns)).sum) :
    scan rowHash table columns m = scan rowHash table columns rows :=
  Digest.ext_of_sum rfl (by rw [sum_scan, sum_scan, h])

theorem value_projectionChange (a : Accumulator) :
    (projectionChange rowHash a table columns old new).value =
      a.value - (weigh (weight rowHash table columns) old).2 +
        (weigh (weight rowHash table columns) new).2 := by
  cases old <;> cases new <;> simp [projectionChange, weight, value_add, value_sub]

theorem changeSql_scan {d : Int}
    (hg : s.digests.get? table = some (scan rowHash table columns rows))
    (hd : d = (weigh (weight rowHash table columns) new).1 -
      (weigh (weight rowHash table columns) old).1)
    (hs : (m.map (weight rowHash table columns)).sum =
      (rows.map (weight rowHash table columns)).sum -
      weigh (weight rowHash table columns) old + weigh (weight rowHash table columns) new)
    (h : s.changeSql rowHash table old new d = some t) :
    t = { s with digests := s.digests.put table (scan rowHash table columns m) } := by
  unfold Db.changeSql at h
  rw [hg] at h
  dsimp only at h
  split at h
  · cases h
  · obtain rfl := Option.some.inj h
    congr 2
    refine Digest.ext_of_sum rfl ?_
    have hr : (scan rowHash table columns rows).sum = _ := sum_scan
    rw [sum_scan, hs, ← hr, Digest.sum, Digest.sum, value_projectionChange]
    apply Prod.ext
    · simp only [fst_add, fst_sub, hd]
      ring
    · simp only [snd_add, snd_sub]
      rfl

end

/-! ## Logical rows -/

namespace Tables

variable {s t : Tables}

def rowOf (s : Tables) (table : Registered) (key : String × Nat) : Option Row :=
  (s.registered.get? key).bind fun stored => if key.1 = table.name then
    some (table.rowSql stored) else none

def rowKeys (s : Tables) : List (String × Nat) := s.registered.rows.map (·.1)

theorem tableRows_eq (table : Registered) :
    s.tableRows table = s.rowKeys.filterMap (s.rowOf table) :=
  s.registered.filterMap_rows fun key stale => if key.1 = table.name then
    some (table.rowSql stale) else none

theorem covers_rows (table : Registered) : Covers (s.rowOf table) s.rowKeys := s.registered.covers _

def seen (id : String) (claim : Option Claim) (tombstone : Option Tombstone) (repaired : Bool) :
    Option Row :=
  if repaired then none
  else (claim.map fun claim => sourceRow id claim.acceptedAt).or
    (tombstone.map fun tombstone => sourceRow id (toString tombstone.acceptedAt))

def visible (s : Tables) (id : String) : Option Row :=
  seen id (s.claims.get? id) (s.checkpointClaims.get? id) (s.repaired id)

@[simp] theorem seen_repaired (id : String) (claim : Option Claim) (tombstone : Option Tombstone) :
    seen id claim tombstone true = none := rfl

@[simp] theorem seen_claim (id : String) (claim : Claim) (tombstone : Option Tombstone) :
    seen id (some claim) tombstone false = some (sourceRow id claim.acceptedAt) := rfl

@[simp] theorem seen_tombstone (id : String) (tombstone : Tombstone) :
    seen id none (some tombstone) false = some (sourceRow id (toString tombstone.acceptedAt)) := rfl

@[simp] theorem seen_none (id : String) (repaired : Bool) : seen id none none repaired = none := by
  cases repaired <;> rfl

def sourceKeys (s : Tables) : List String :=
  s.claims.rows.map (·.1) ++
    (s.checkpointClaims.rows.filter fun r => (s.claims.get? r.1).isNone).map (·.1)

theorem sourceQuery_eq : s.sourceQuery = s.sourceKeys.filterMap s.visible := by
  unfold sourceQuery sourceKeys
  simp only [filterMap_append, filterMap_map]
  congr 1
  · apply filterMap_congr
    intro r hr
    simp [visible, seen, mem_rows.mp (show (r.1, r.2) ∈ s.claims.rows from hr)]
  · apply filterMap_congr
    intro r hr
    obtain ⟨hr, hc⟩ := mem_filter.mp hr
    simp [visible, seen, isNone_iff_eq_none.mp hc,
      mem_rows.mp (show (r.1, r.2) ∈ s.checkpointClaims.rows from hr)]

theorem covers_sources : Covers s.visible s.sourceKeys := by
  constructor
  · unfold sourceKeys
    rw [nodup_append]
    refine ⟨s.claims.nodup, s.checkpointClaims.nodup.sublist (filter_sublist.map _), ?_⟩
    rintro id hc _ ht rfl
    obtain ⟨r, hr, rfl⟩ := List.mem_map.mp ht
    have hn := isNone_iff_eq_none.mp (mem_filter.mp hr).2
    exact get?_eq_none.mp hn hc
  · intro id hi
    by_contra hk
    simp only [sourceKeys, mem_append, not_or] at hk
    have hc := get?_eq_none.mpr hk.1
    have ht : s.checkpointClaims.get? id = none := by
      cases hg : s.checkpointClaims.get? id with
      | none => rfl
      | some tombstone =>
        refine absurd (List.mem_map.mpr ⟨(id, tombstone),
          mem_filter.mpr ⟨mem_rows.mpr hg, ?_⟩, rfl⟩) hk.2
        simp [hc]
    exact hi (by simp [visible, hc, ht])

def operationKeys (s : Tables) : List String := s.operations.rows.map (·.1) ++ s.dropped

theorem operationRows_eq : s.operationRows = s.operationKeys.filterMap s.currentOperation := by
  unfold operationRows operationKeys
  rw [filterMap_append, filterMap_map]
  congr 1
  · rw [← filterMap_eq_map]
    apply filterMap_congr
    intro r hr
    simp [currentOperation, mem_rows.mp (show (r.1, r.2) ∈ s.operations.rows from hr)]
  · apply filterMap_congr
    intro o ho
    simp [currentOperation, isNone_iff_eq_none.mp (mem_filter.mp ho).2]

theorem operationFallback_ne_none {operation : String} : s.operationFallback operation ≠ none ↔
    ∃ r ∈ s.checkpointClaims.rows, s.repaired r.1 = false ∧ r.2.operation = some operation := by
  have hb : s.operationFallback operation ≠ none ↔ s.members operation ≠ [] := by
    unfold operationFallback
    simp
  rw [hb]
  constructor
  · intro hn
    obtain ⟨_, hmem⟩ := exists_mem_of_ne_nil _ hn
    obtain ⟨r, hr, hm⟩ := mem_filterMap.mp hmem
    split at hm
    · rename_i hc
      exact ⟨r, hr, hc.2, hc.1⟩
    · cases hm
  · rintro ⟨r, hr, hp, ho⟩
    exact ne_nil_of_mem (mem_filterMap.mpr ⟨r, hr, if_pos ⟨ho, hp⟩⟩)

theorem mem_dropped {o : String} :
    o ∈ s.dropped ↔ s.operations.get? o = none ∧ s.operationFallback o ≠ none := by
  simp only [dropped, mem_filter, mem_dedup, mem_filterMap, isNone_iff_eq_none,
    operationFallback_ne_none]
  constructor
  · rintro ⟨⟨r, hr, ho⟩, hh⟩
    cases hp : s.repaired r.1 with
    | true => simp [hp] at ho
    | false => exact ⟨hh, r, hr, hp, by simpa [hp] using ho⟩
  · rintro ⟨hh, r, hr, hp, ho⟩
    exact ⟨⟨r, hr, by simpa [hp] using ho⟩, hh⟩

theorem covers_operations : Covers s.currentOperation s.operationKeys := by
  constructor
  · unfold operationKeys
    rw [nodup_append]
    refine ⟨s.operations.nodup, (nodup_dedup _).sublist filter_sublist, ?_⟩
    rintro o hh _ hd rfl
    exact get?_eq_none.mp (mem_dropped.mp hd).1 hh
  · intro o ho
    by_contra hk
    simp only [operationKeys, mem_append, not_or] at hk
    have hh := get?_eq_none.mpr hk.1
    refine hk.2 (mem_dropped.mpr ⟨hh, fun hn => ho ?_⟩)
    simp [currentOperation, hh, hn]

end Tables

section
variable (registry : Registry) (rowHash : String → List String → Row → Accumulator)

/-- Every digest is what a scan would compute, except that the rows of `stale`
operations are still to be refreshed. -/
structure ExactBut (stale : String → Prop) (s : Db) : Prop where
  registered : ∀ table ∈ registry.tables,
    s.digests.get? table.name = some (scan rowHash table.name table.columns (s.tableRows table))
  sources : s.digests.get? claimSources =
    some (scan rowHash claimSources sourceColumns s.sourceQuery)
  summed : s.digests.get? operationsTable =
    some (scan rowHash operationsTable operationColumns (s.operationCache.rows.map (·.2)))
  cached : ∀ operation, ¬ stale operation →
    s.operationCache.get? operation = s.currentOperation operation
  only : ∀ name, s.digests.get? name ≠ none →
    name ∈ claimSources :: operationsTable :: registry.tables.map (·.name)

abbrev Exact : Db → Prop := ExactBut registry rowHash fun _ => False

end

section
variable {r : Registry} {rowHash : String → List String → Row → Accumulator}
variable {s t u : Db} {stale : String → Prop}

theorem Registry.name_ne (table : Registered) (h : table ∈ r.tables) :
    table.name ≠ claimSources ∧ table.name ≠ operationsTable := by
  have hn := r.names
  simp only [nodup_cons, mem_cons, List.mem_map, not_or, not_exists, not_and] at hn
  exact ⟨hn.1.2 table h, hn.2.1 table h⟩

theorem claimSources_ne_operationsTable : claimSources ≠ operationsTable := by
  decide

def Moves (rowHash : String → List String → Row → Accumulator) (table : String)
    (old new : Option Row) (s t : Db) : Prop :=
  (∃ delta : Int, delta = (if new.isSome then 1 else 0) - (if old.isSome then 1 else 0) ∧
    s.changeSql rowHash table old new delta = some t) ∨ old = new ∧ t = s

theorem Moves.frame {table : String} {old new : Option Row} (h : Moves rowHash table old new s t) :
    t.toTables = s.toTables ∧ t.operationCache = s.operationCache := by
  rcases h with ⟨d, -, h⟩ | ⟨-, rfl⟩
  · unfold Db.changeSql at h
    split at h
    · cases h
      exact ⟨rfl, rfl⟩
    · split at h
      · cases h
      · cases h
        exact ⟨rfl, rfl⟩
  · exact ⟨rfl, rfl⟩

theorem Moves.digests {table : String} {columns : List String} {old new : Option Row}
    {rows more : List Row} (h : Moves rowHash table old new s t)
    (hd : s.digests.get? table = some (scan rowHash table columns rows))
    (hs : (more.map (weight rowHash table columns)).sum =
      (rows.map (weight rowHash table columns)).sum -
      weigh (weight rowHash table columns) old + weigh (weight rowHash table columns) new) :
    t.digests.get? table = some (scan rowHash table columns more) ∧
      ∀ name, name ≠ table → t.digests.get? name = s.digests.get? name := by
  rcases h with ⟨d, hl, h⟩ | ⟨rfl, rfl⟩
  · have hw : d = (weigh (weight rowHash table columns) new).1 -
        (weigh (weight rowHash table columns) old).1 := by
      rw [hl]
      cases old <;> cases new <;> rfl
    obtain rfl := changeSql_scan hd hw hs h
    refine ⟨by simp [get?_put], fun name hn => ?_⟩
    simp [get?_put, hn]
  · refine ⟨?_, fun _ _ => rfl⟩
    have hc : scan rowHash table columns more = scan rowHash table columns rows :=
      scan_congr (by simpa using hs)
    rw [hd, hc]

/-- A change that one claim's row shows, and the rows of `stale` operations. -/
theorem ExactBut.of_source (hs : Exact r rowHash s) (tables : Tables) (id : String)
    (hg : tables.registered = s.registered)
    (ho : ∀ other, other ≠ id → tables.visible other = s.visible other)
    (hoperation : ∀ o, ¬ stale o → tables.currentOperation o = s.currentOperation o)
    (hm : Moves rowHash claimSources (s.visible id) (tables.visible id)
      ⟨tables, s.digests, s.operationCache⟩ t) :
    ExactBut r rowHash stale t := by
  have hsum : (tables.sourceQuery.map (weight rowHash claimSources sourceColumns)).sum =
      (s.sourceQuery.map (weight rowHash claimSources sourceColumns)).sum -
        weigh (weight rowHash claimSources sourceColumns) (s.visible id) +
        weigh (weight rowHash claimSources sourceColumns) (tables.visible id) := by
    rw [Tables.sourceQuery_eq, Tables.sourceQuery_eq]
    exact Tables.covers_sources.sum_change Tables.covers_sources id ho
  obtain ⟨hb, hc⟩ := hm.frame
  obtain ⟨hdigests, hf⟩ := hm.digests hs.sources hsum
  constructor
  · intro table ht
    rw [hf _ (Registry.name_ne table ht).1, hb]
    change s.digests.get? table.name =
      some (scan rowHash table.name table.columns (tables.tableRows table))
    rw [hs.registered table ht, Tables.tableRows, Tables.tableRows, hg]
  · rw [hdigests, hb]
  · rw [hf _ claimSources_ne_operationsTable.symm, hc]
    exact hs.summed
  · intro o hnoStale
    rw [hc, hb]
    change s.operationCache.get? o = tables.currentOperation o
    rw [hs.cached o (fun h => h), hoperation o hnoStale]
  · intro name hn
    by_cases hr : name = claimSources
    · rw [hr]
      exact mem_cons_self
    · rw [hf _ hr] at hn
      exact hs.only name hn

theorem ExactBut.of_operations (hs : Exact r rowHash s) (tables : Tables)
    (hr : tables.registered = s.registered) (hv : ∀ id, tables.visible id = s.visible id)
    (hc : ∀ o, ¬ stale o → tables.currentOperation o = s.currentOperation o) :
    ExactBut r rowHash stale ⟨tables, s.digests, s.operationCache⟩ :=
  ExactBut.of_source hs tables "" hr (fun _ _ => hv _) hc (.inr ⟨(hv "").symm, rfl⟩)

theorem sum_cache_change (c more : Table String Row) (o : String)
    (ho : ∀ other, other ≠ o → more.get? other = c.get? other) (weight : Row → Sum) :
    ((more.rows.map (·.2)).map weight).sum = ((c.rows.map (·.2)).map weight).sum -
      weigh weight (c.get? o) + weigh weight (more.get? o) := by
  rw [rows_snd, rows_snd]
  exact c.covers_get?.sum_change more.covers_get? o ho

/-- A refreshed operation is no longer stale. -/
theorem ExactBut.refresh (hs : ExactBut r rowHash stale s) {o : String}
    (h : s.refreshOperation rowHash o = some t) :
    t.toTables = s.toTables ∧ ExactBut r rowHash (fun other => stale other ∧ other ≠ o) t := by
  obtain ⟨u, hu, ht⟩ := map_eq_some_iff.mp h
  have hv : Moves rowHash operationsTable (s.operationCache.get? o) (s.currentOperation o) s u := by
    split at hu
    · exact .inl ⟨_, rfl, hu⟩
    · rename_i hnoCache
      exact .inr ⟨not_not.mp hnoCache, (Option.some.inj hu).symm⟩
  have hc : ∀ other, t.operationCache.get? other =
      if other = o then s.currentOperation o else u.operationCache.get? other := by
    intro other
    rw [← ht]
    cases hr : s.currentOperation o with
    | none => simp [get?_delete]
    | some row => simp [get?_put]
  obtain ⟨hl, hcache⟩ := hv.frame
  have hm := sum_cache_change s.operationCache t.operationCache o
    (fun other hother => by rw [hc, if_neg hother, hcache])
      (weight rowHash operationsTable operationColumns)
  rw [hc, if_pos rfl] at hm
  obtain ⟨hg, hf⟩ := hv.digests hs.summed hm
  have htables : t.toTables = s.toTables := by rw [← hl, ← ht]
  have hd : t.digests = u.digests := by rw [← ht]
  refine ⟨htables, ?_, ?_, ?_, ?_, ?_⟩
  · intro table hb
    rw [hd, hf _ (Registry.name_ne table hb).2, htables]
    exact hs.registered table hb
  · rw [hd, hf _ claimSources_ne_operationsTable, htables]
    exact hs.sources
  · rw [hd, hg]
  · intro other hother
    rw [hc, htables]
    by_cases ho : other = o
    · rw [if_pos ho, ho]
    · rw [if_neg ho, hcache]
      exact hs.cached other fun hstale => hother ⟨hstale, ho⟩
  · intro name hn
    by_cases hp : name = operationsTable
    · rw [hp]
      exact mem_cons_of_mem _ mem_cons_self
    · rw [hd, hf _ hp] at hn
      exact hs.only name hn

end

end Smalltalk.Projection
