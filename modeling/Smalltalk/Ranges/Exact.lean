import Smalltalk.Ranges.Digests

/-!
# The digests account for the retained claims

What has been folded, what waits in the queue and what waits for the import make up the
claims that are retained.
-/

namespace Smalltalk.Ranges

open List Option Table Multiset State Digest

open Projection (Accumulator accumulatorBytes)

variable (hash : Text → Accumulator)

structure Accounts (digests : Digests) (pending : List (Change Text))
    (waiting ids folded : Multiset Text) : Prop where
  values : ∀ key, valueAt digests key = (folded.map (weight hash key)).sum
  positive : Positive digests
  queue : SoundQueue folded pending
  total : folded + added pending + waiting = ids + removed pending

section
variable {hash} {digests : Digests} {pending : List (Change Text)}
    {waiting ids f : Multiset Text} {id : Text}

theorem Accounts.insert (h : Accounts hash digests pending waiting ids f) :
    Accounts hash digests (pending ++ [⟨id, false⟩]) waiting (ids + {id}) f where
  values := h.values
  positive := h.positive
  queue := h.queue.snoc_add id
  total := by
    have ha : added [(⟨id, false⟩ : Change Text)] = {id} := rfl
    have hr : removed [(⟨id, false⟩ : Change Text)] = 0 := rfl
    rw [added_append, removed_append, ha, hr, add_zero, add_right_comm ids, ← h.total]
    abel

theorem Accounts.delete_waiting
    (h : Accounts hash digests pending ({id} + waiting) ({id} + ids) f) :
    Accounts hash digests pending waiting ids f where
  values := h.values
  positive := h.positive
  queue := h.queue
  total := by
    refine add_left_cancel (a := {id}) ?_
    calc {id} + (f + added pending + waiting) = f + added pending + ({id} + waiting) := by abel
      _ = {id} + (ids + removed pending) := by rw [h.total, add_assoc]

/-- A claim that does not wait for the import was folded or is queued. -/
theorem Accounts.delete (h : Accounts hash digests pending waiting ({id} + ids) f)
    (hw : waiting ≤ ids) :
    Accounts hash digests (pending ++ [⟨id, true⟩]) waiting ids f where
  values := h.values
  positive := h.positive
  queue := by
    refine h.queue.snoc_remove (le_of_add_le_add_right (a := waiting) ?_)
    rw [h.total]
    calc removed pending + {id} + waiting ≤ removed pending + {id} + ids := by gcongr
      _ = {id} + ids + removed pending := by abel
  total := by
    have ha : added [(⟨id, true⟩ : Change Text)] = 0 := rfl
    have hr : removed [(⟨id, true⟩ : Change Text)] = {id} := rfl
    rw [added_append, removed_append, ha, hr, add_zero, h.total]
    abel

/-- Members weigh one each, so no sum of them counts below zero, and one that counts zero is
empty. -/
theorem sum_weight_nonneg (key : Nat × Nat) (f : Multiset Text) :
    0 ≤ ((f.map (weight hash key)).sum).1 ∧
    (((f.map (weight hash key)).sum).1 = 0 → (f.map (weight hash key)).sum = 0) := by
  induction f using Multiset.induction with
  | empty => simp
  | cons id f ih =>
    rw [Multiset.map_cons, Multiset.sum_cons, weight]
    by_cases hk : key ∈ ranges id
    · rw [if_pos hk, Prod.fst_add]
      have := ih.1
      exact ⟨by omega, fun h => absurd h (by omega)⟩
    · rw [if_neg hk, zero_add]
      exact ih

theorem Accounts.applyChanges (h : Accounts hash digests pending waiting ids f) {f' : Multiset Text}
    {changes : List (Change Text)} (hf : ∀ key, (f'.map (weight hash key)).sum =
      (f.map (weight hash key)).sum + signedSum (weight hash key) changes) :
    ∃ digests', Ranges.applyChanges hash digests changes = some digests' ∧ Positive digests' ∧
      ∀ key, valueAt digests' key = (f'.map (weight hash key)).sum := by
  have hs : ∀ key, valueAt digests key + signedSum (weight hash key) changes =
      (f'.map (weight hash key)).sum := by
    intro key
    rw [h.values, hf]
  have hc : ∀ key, 0 ≤ (valueAt digests key + signedSum (weight hash key) changes).1 := by
    intro key
    rw [hs]
    exact (sum_weight_nonneg key f').1
  have hz : ∀ key, (valueAt digests key + signedSum (weight hash key) changes).1 = 0 →
      valueAt digests key + signedSum (weight hash key) changes = 0 := by
    intro key
    rw [hs]
    exact (sum_weight_nonneg key f').2
  obtain ⟨digests', ha, hp, hv⟩ := applyChanges_spec hash h.positive hc hz
  exact ⟨digests', ha, hp, fun key => (hv key).trans (hs key)⟩

theorem Accounts.fold_pending (h : Accounts hash digests pending waiting ids f) (n : Nat) :
    ∃ digests', Ranges.applyChanges hash digests (pending.take n) = some digests' ∧
      Accounts hash digests' (pending.drop n) waiting ids (afterChanges f (pending.take n)) := by
  obtain ⟨digests', ha, hp, hv⟩ := h.applyChanges fun key => h.queue.sum_after (weight hash key) n
  refine ⟨digests', ha, hv, hp, h.queue.drop n, ?_⟩
  have ht := h.total
  rw [← take_append_drop n pending, added_append, removed_append, ← add_assoc,
    ← h.queue.after_add n] at ht
  refine add_left_cancel (a := removed (pending.take n)) ?_
  calc removed (pending.take n) +
      (afterChanges f (pending.take n) + added (pending.drop n) + waiting)
      = afterChanges f (pending.take n) + removed (pending.take n) + added (pending.drop n) +
        waiting := by abel
    _ = removed (pending.take n) + (ids + removed (pending.drop n)) := by rw [ht]; abel

theorem signedSum_adds {G : Type*} [AddCommGroup G] (weigh : Text → G) (p : List Text) :
    signedSum weigh (p.map fun id => ⟨id, false⟩) = (p.map weigh).sum := by
  induction p with
  | nil => rfl
  | cons id p ih => rw [List.map_cons, signedSum_cons, ih, List.map_cons, List.sum_cons]; rfl

theorem Accounts.fold_import {p : List Text}
    (h : Accounts hash digests [] (ofList p + waiting) ids f) :
    ∃ digests', Ranges.applyChanges hash digests (p.map fun id => ⟨id, false⟩) = some digests' ∧
      Accounts hash digests' [] waiting ids (f + ofList p) := by
  have hf : ∀ key, ((f + ofList p).map (weight hash key)).sum =
      (f.map (weight hash key)).sum +
        signedSum (weight hash key) (p.map fun id => ⟨id, false⟩) := by
    intro key
    rw [signedSum_adds, map_add, sum_add, Multiset.map_coe, sum_coe]
  obtain ⟨digests', ha, hp, hv⟩ := h.applyChanges hf
  refine ⟨digests', ha, hv, hp, SoundQueue.nil, ?_⟩
  have ht := h.total
  rw [added_nil, add_zero] at ht ⊢
  rw [← ht, add_assoc]

end

/-! ## Steps -/

structure Inv (s : State) : Prop where
  indexes : ∀ index id, s.claims.get? index = some id → 0 < index ∧ index ≤ s.lastIndex
  bound : ∀ cursor bound, s.importing = some (cursor, bound) → bound ≤ s.lastIndex
  accounts : s.installed = true → ∃ folded,
    Accounts hash s.digests s.pending (ofList (s.waiting.map (·.2))) (ofList s.ids) folded
  before : s.installed = false → s.importing = none ∧ s.pending = [] ∧ s.digests = ∅

theorem Inv.empty : Inv hash empty where
  indexes index id h := by cases h
  bound cursor bound h := by cases h
  accounts h := by cases h
  before _ := ⟨rfl, rfl, rfl⟩

variable {hash} {s s' : State}

theorem Inv.waits_new (h : Inv hash s) : s.waits (s.lastIndex + 1) = false := by
  unfold waits
  cases hi : s.importing with
  | none => rfl
  | some row =>
    have := h.bound row.1 row.2 hi
    simp only [any_some, Bool.and_eq_false_iff, decide_eq_false_iff_not]
    omega

theorem Inv.get?_new (h : Inv hash s) : s.claims.get? (s.lastIndex + 1) = none := by
  cases hg : s.claims.get? (s.lastIndex + 1) with
  | none => rfl
  | some id =>
    have := (h.indexes _ _ hg).2
    omega

theorem Inv.insertClaim (h : Inv hash s) {id : Text} (hn : insertClaim s id = some s') :
    Inv hash s' := by
  unfold Ranges.insertClaim at hn
  split at hn
  · cases hn
  · cases hn
    have hr := insert_of_none h.get?_new id
    refine ⟨?_, ?_, ?_, ?_⟩
    · intro i other hg
      rcases of_get?_insert hg with hg | ⟨hindex, -⟩
      · have := h.indexes i other hg
        simp only
        omega
      · simp only
        omega
    · intro c bound hm
      have := h.bound c bound hm
      simp only
      omega
    · intro hi
      have hi : s.installed = true := hi
      obtain ⟨folded, ha⟩ := h.accounts hi
      have hw : (s.claims.insert (s.lastIndex + 1) id).rows.filter (s.waits ·.1) = s.waiting := by
        rw [hr, filter_append, waiting]
        simp [h.waits_new]
      have hd : ofList ((s.claims.insert (s.lastIndex + 1) id).rows.map (·.2)) =
          ofList s.ids + {id} := by
        rw [hr, map_append, ← coe_add]
        rfl
      refine ⟨folded, ?_⟩
      rw [if_pos hi, waiting, ids, hd]
      exact hw ▸ ha.insert
    · intro hi
      have hi : s.installed = false := hi
      rw [if_neg (by simp [hi])]
      exact h.before hi

theorem ids_delete {i : Nat} {id : Text} (hg : s.claims.get? i = some id)
    (keep : Nat × Text → Bool) :
    ofList ((s.claims.rows.filter keep).map (·.2)) = (if keep (i, id) then {id} else 0) +
        ofList (((s.claims.delete i).rows.filter keep).map (·.2)) := by
  have hp := ((perm_delete hg).filter keep).map (·.2)
  rw [coe_eq_coe.mpr hp, filter_cons]
  split <;> simp

theorem Inv.deleteClaim (h : Inv hash s) (i : Nat) : Inv hash (deleteClaim s i) := by
  cases hg : s.claims.get? i with
  | none =>
    have hs : Ranges.deleteClaim s i = s := by simp only [Ranges.deleteClaim, hg]
    rwa [hs]
  | some id =>
    have hn : Ranges.deleteClaim s i = { s with
          claims := s.claims.delete i
          pending :=
            if s.installed && !s.waits i then s.pending ++ [⟨id, true⟩] else s.pending } := by
      simp only [Ranges.deleteClaim, hg]
    rw [hn]
    have hd := ids_delete hg fun _ => true
    have ht := ids_delete hg (s.waits ·.1)
    simp only [List.filter_true, if_true] at hd
    refine ⟨fun i other hg => h.indexes i other (of_get?_delete hg), h.bound, ?_, ?_⟩
    · intro hi
      have hi : s.installed = true := hi
      obtain ⟨folded, ha⟩ := h.accounts hi
      rw [ids, hd, waiting, ht] at ha
      refine ⟨folded, ?_⟩
      cases hw : s.waits i with
      | true =>
        rw [hw, if_pos rfl] at ha
        simp only [Bool.not_true, Bool.and_false, Bool.false_eq_true, if_false]
        exact ha.delete_waiting
      | false =>
        rw [hw, if_neg Bool.false_ne_true, zero_add] at ha
        simp only [hi, Bool.not_false, Bool.and_self, if_true]
        exact ha.delete (Multiset.coe_le.mpr (List.Sublist.map _ filter_sublist).subperm)
    · intro hi
      have hi : s.installed = false := hi
      simp only [hi, Bool.false_and, Bool.false_eq_true, if_false]
      exact h.before hi

theorem Inv.install (h : Inv hash s) : Inv hash (install s) := by
  unfold Ranges.install
  split
  · exact h
  · rename_i hn
    obtain ⟨himporting, hpending, hd⟩ := h.before (by simpa using hn)
    refine ⟨h.indexes, ?_, ?_, fun hi => by cases hi⟩
    · intro c bound hs
      obtain ⟨g, hm, heq⟩ := map_eq_some_iff.mp hs
      cases heq
      obtain ⟨row, hr, rfl⟩ := mem_map.mp (max?_mem hm)
      exact (h.indexes row.1 row.2 (mem_rows.mp hr)).2
    · intro _
      -- Every claim is at or below the greatest index, and above zero.
      have hw : s.claims.rows.filter
          (fun row => ((s.claims.rows.map (·.1)).max?.map fun bound => (0, bound)).any
          fun r => r.1 < row.1 && row.1 ≤ r.2) = s.claims.rows := by
        refine filter_eq_self.mpr fun row hr => ?_
        have hp := (h.indexes row.1 row.2 (mem_rows.mp hr)).1
        cases hm : (s.claims.rows.map (·.1)).max? with
        | none =>
          rw [max?_eq_none_iff, map_eq_nil_iff] at hm
          rw [hm] at hr
          cases hr
        | some bound =>
          have := (max?_eq_some_iff.mp hm).2 row.1 (mem_map_of_mem hr)
          simp [hp, this]
      refine ⟨0, ?_⟩
      rw [hpending, hd, waiting, ids]
      unfold waits
      simp only [hw]
      exact
        { values := fun key => valueAt_empty key
          positive := fun key d hg => (nomatch hg)
          queue := SoundQueue.nil
          total := by simp }

theorem importRows_perm {c bound : Nat} (hi : s.importing = some (c, bound)) :
    (importRows s c bound).Perm s.waiting := by
  unfold importRows rowsAfter waiting
  refine ((perm_insertionSort _ _).filter _).trans (List.Perm.of_eq ?_)
  rw [List.filter_filter]
  refine filter_congr fun row _ => ?_
  simp [waits, hi]

theorem importRows_increasing (s : State) (bound : Nat) :
    Increasing (sortByKey (s.claims.rows.filter (·.1 ≤ bound))) :=
  increasing_sortByKey (s.claims.nodup.sublist (filter_sublist.map _))

theorem waiting_eq (s : State) (digests : Digests) (next : Option (Nat × Nat)) :
    ofList (({ s with digests, importing := next } : State).waiting.map (·.2)) =
      ofList ((next.elim [] fun row => importRows s row.1 row.2).map (·.2)) := by
  cases next with
  | none =>
    have : ({ s with digests, importing := none } : State).waiting = [] :=
      filter_eq_nil_iff.mpr fun row _ => by
      simp [waits]
    rw [this, elim_none]
  | some row =>
    rw [coe_eq_coe]
    exact ((importRows_perm (s := { s with digests, importing := some row }) rfl).map _).symm

theorem importRows_nextImport (c bound m : Nat) :
    (nextImport ((importRows s c bound).take (m + 1)) bound).elim []
      (fun row => importRows s row.1 row.2) = (importRows s c bound).drop (m + 1) := by
  unfold nextImport
  cases hs : ((importRows s c bound).take (m + 1)).getLast? with
  | none =>
    have hn : (importRows s c bound).take (m + 1) = [] := getLast?_eq_none_iff.mp hs
    have he : importRows s c bound = [] := by simpa using hn
    simp [he]
  | some l =>
    have hafter : rowsAfter (some l.1) (sortByKey (s.claims.rows.filter (·.1 ≤ bound))) =
        (importRows s c bound).drop (m + 1) := (importRows_increasing s bound).rowsAfter_last hs
    rw [← hafter]
    by_cases hl : l.1 < bound
    · simp only [hl, if_true, elim_some]
      rfl
    · -- The page reached the bound.
      simp only [hl, if_false, elim_none]
      refine (filter_eq_nil_iff.mpr fun row hr => ?_).symm
      have hle : row.1 ≤ bound := by simpa using (mem_filter.mp (mem_sortByKey.mp hr)).2
      simp only [all_some, decide_eq_true_eq]
      omega

theorem nextImport_bound {p : List (Nat × Text)} {bound c' bound' : Nat}
    (h : nextImport p bound = some (c', bound')) : bound' = bound := by
  unfold nextImport at h
  split at h
  · split at h
    · cases h
      rfl
    · cases h
  · cases h

theorem Inv.foldPage (h : Inv hash s) (hi : s.installed = true) (m : Nat) :
    ∃ s', foldPage hash s m = some s' ∧ Inv hash s' := by
  obtain ⟨folded, ha⟩ := h.accounts hi
  unfold Ranges.foldPage
  by_cases hg : s.pending.take (m + 1) = []
  · have hpending : s.pending = [] := by simpa using hg
    rw [if_neg (by simpa using hg)]
    cases hm : s.importing with
    | none => exact ⟨s, rfl, h⟩
    | some row =>
      obtain ⟨c, bound⟩ := row
      have hs : ofList (s.waiting.map (·.2)) =
          ofList (((importRows s c bound).take (m + 1)).map (·.2)) +
            ofList (((importRows s c bound).drop (m + 1)).map (·.2)) := by
        rw [coe_add, ← map_append, take_append_drop, coe_eq_coe]
        exact ((importRows_perm hm).map _).symm
      rw [hpending, hs] at ha
      obtain ⟨digests', hp, ha'⟩ := ha.fold_import
      rw [List.map_map] at hp
      refine ⟨{ s with digests := digests',
                       importing := nextImport ((importRows s c bound).take (m + 1)) bound },
        ?_, h.indexes, ?_, fun _ =>
          ⟨folded + ofList (((importRows s c bound).take (m + 1)).map (·.2)), ?_⟩,
        fun hn => absurd (hi.symm.trans hn) (by simp)⟩
      · simp only
        rw [show (fun row : Nat × Text => (⟨row.2, false⟩ : Change Text)) =
          (fun id => ⟨id, false⟩) ∘ (fun row => row.2) from rfl, hp]
        rfl
      · intro c' bound' hx
        rw [nextImport_bound hx]
        exact h.bound c bound hm
      · rw [waiting_eq, importRows_nextImport]
        simp only [hpending]
        exact ha'
  · rw [if_pos hg]
    obtain ⟨digests', hp, ha'⟩ := ha.fold_pending (m + 1)
    refine ⟨{ s with digests := digests', pending := s.pending.drop (m + 1) },
      by simp only [hp, map_some], ?_⟩
    exact ⟨h.indexes, h.bound, fun _ => ⟨_, ha'⟩, fun hn => by simp [hi] at hn⟩

theorem machine_keeps_inv : (machine hash).Keeps (fun _ => True) (Inv hash) := by
  intro s label s' _ h hs
  cases label with
  | insert id => exact h.insertClaim hs
  | delete i =>
    cases hs
    exact h.deleteClaim i
  | install =>
    cases hs
    exact h.install
  | fold m =>
    by_cases hi : s.installed = true
    · obtain ⟨next, hn, hv⟩ := h.foldPage hi m
      have heq : next = s' := by
        simp only [machine, hi, if_true] at hs
        exact Option.some.inj (hn.symm.trans hs)
      rwa [← heq]
    · simp [machine, hi] at hs

/-! ## Complete ledgers -/

theorem sum_ofList {G : Type*} [AddCommMonoid G] (f : Text → G) (ids : List Text) :
    ((Multiset.ofList ids).map f).sum = (ids.map f).sum := by
  rw [Multiset.map_coe, sum_coe]

/-- The digests, the queue and the claims that wait add up to the claims. -/
theorem Inv.balance (h : Inv hash s) (hi : s.installed = true) (key : Nat × Nat) :
    valueAt s.digests key + signedSum (weight hash key) s.pending +
      ((s.waiting.map (·.2)).map (weight hash key)).sum = (s.ids.map (weight hash key)).sum := by
  obtain ⟨folded, ha⟩ := h.accounts hi
  have ht := congrArg (fun m => (map (weight hash key) m).sum) ha.total
  simp only [map_add, sum_add, sum_ofList] at ht
  rw [← signedSum_eq (weight hash key) s.pending, ← ha.values key] at ht
  refine add_right_cancel (b := ((removed s.pending).map (weight hash key)).sum) (Eq.trans ?_ ht)
  abel

theorem Inv.valueAt_complete (h : Inv hash s) (hc : s.complete = true) (key : Nat × Nat) :
    valueAt s.digests key = (digestOf hash (s.ids.filter (key ∈ ranges ·))).value := by
  simp only [complete, Bool.and_eq_true, isNone_iff_eq_none, List.isEmpty_iff] at hc
  obtain ⟨⟨hi, hm⟩, hp⟩ := hc
  have hb := h.balance hi key
  have hw : s.waiting = [] := filter_eq_nil_iff.mpr fun row _ => by simp [waits, hm]
  rw [hp, hw] at hb
  rw [value_digestOf, ← sum_weight, ← hb]
  simp [signedSum]

theorem Inv.positive (h : Inv hash s) : Positive s.digests := by
  cases hi : s.installed with
  | true =>
    obtain ⟨folded, ha⟩ := h.accounts hi
    exact ha.positive
  | false =>
    rw [(h.before hi).2.2]
    exact fun key d hg => (nomatch hg)

theorem Inv.get?_complete (h : Inv hash s) (hm : s.complete = true) (key : Nat × Nat) :
    s.digests.get? key = recount hash s key := by
  have hv := h.valueAt_complete hm key
  have hc : (digestAt s.digests key).count = ((s.ids.filter (key ∈ ranges ·)).length : ℤ) :=
    congrArg Prod.fst hv
  unfold valueAt at hv
  have hd := value_injective hv
  unfold recount
  simp only [List.isEmpty_iff]
  unfold digestAt at hc hd
  cases hg : s.digests.get? key with
  | none =>
    rw [hg, getD_none] at hc
    have hl : (s.ids.filter (key ∈ ranges ·)).length = 0 := by
      have : zero.count = 0 := rfl
      omega
    rw [if_pos (eq_nil_of_length_eq_zero hl)]
  | some d =>
    rw [hg, getD_some] at hc hd
    have hp := h.positive key d hg
    rw [if_neg (fun hn => by rw [hn] at hc; simp at hc; omega), hd]

theorem leaf_lt {id : Text} (h : regular id = true) : leaf id < leafRanges := by
  have hg : ∀ d ∈ (id.take 3).map fun b => (hexDigit b).getD 0, d < 16 := by
    intro d hd
    obtain ⟨b, -, rfl⟩ := mem_map.mp hd
    cases hb : hexDigit b with
    | none => simp
    | some d => exact hexDigit_lt hb
  have hn : id.length = 64 := by
    simp only [regular, Bool.and_eq_true, decide_eq_true_eq] at h
    exact h.1
  have hl := spell_lt hg
  rw [length_map, length_take, hn] at hl
  rw [leaf, if_pos h]
  exact hl

theorem leaf_le (id : Text) : leaf id ≤ leafRanges := by
  cases h : regular id with
  | true => exact (leaf_lt h).le
  | false => simp [leaf, h]

theorem top_lt (id : Text) : leaf id / leavesPerTop < topRanges + 1 := by
  have hl := leaf_le id
  have h64 : leavesPerTop = 64 := rfl
  have h4096 : leafRanges = 4096 := rfl
  have hr : topRanges = 64 := rfl
  rw [h64, hr]
  omega

theorem sum_weight_tops (id : Text) :
    ((List.range' 0 (topRanges + 1)).map fun top => weight hash (1, top) id).sum =
      unit hash id := by
  have hw : ∀ top, weight hash (1, top) id = if top = leaf id / leavesPerTop then unit hash id
    else 0 := by
    intro top
    simp [weight, ranges, unit]
  simp only [hw]
  rw [← range_eq_range', ← sum_toFinset _ nodup_range, List.toFinset_range, Finset.sum_ite_eq',
    if_pos (Finset.mem_range.mpr (top_lt id))]

theorem sum_tops (ids : List Text) :
    ((List.range' 0 (topRanges + 1)).map fun top => (ids.map (weight hash (1, top))).sum).sum =
      (ids.map (unit hash)).sum := by
  induction ids with
  | nil => simp
  | cons id ids ih =>
    simp only [List.map_cons, List.sum_cons]
    rw [List.sum_map_add, ih, sum_weight_tops]

theorem sum_readRanges (digests : Digests) (l : Nat) (keys : List Nat) :
    ((keys.filterMap fun range => (digests.get? (l, range)).map fun d =>
      (⟨range, d.count, d.accumulator⟩ : ClaimRange)).map fun r => value ⟨r.count, r.digest⟩).sum =
      (keys.map fun range => valueAt digests (l, range)).sum := by
  induction keys with
  | nil => rfl
  | cons range keys ih =>
    cases hg : digests.get? (l, range) with
    | none | some => simp [hg, ih, valueAt, digestAt]

theorem value_whole (s : State) : (whole s).value =
    ((range' 0 (topRanges + 1)).map fun top => valueAt s.digests (1, top)).sum := by
  have hf : ∀ (rows : List ClaimRange) (sum : Digest),
      (rows.foldl (fun sum top => ⟨sum.count + top.count, sum.accumulator.add top.digest false⟩)
        sum : Digest).value =
        sum.value + (rows.map fun r => value ⟨r.count, r.digest⟩).sum := by
    intro rows
    induction rows with
    | nil => intro sum; simp
    | cons row rows ih =>
      intro sum
      rw [List.foldl_cons, ih, value_add, List.map_cons, List.sum_cons, add_assoc]
  rw [whole, hf, value_zero, zero_add, tops, readRanges]
  exact sum_readRanges s.digests 1 _

theorem Inv.whole_complete (h : Inv hash s) (hc : s.complete = true) :
    whole s = digestOf hash s.ids := by
  refine value_injective ?_
  rw [value_whole, value_digestOf, ← sum_tops]
  congr 1
  refine map_congr_left fun top _ => ?_
  rw [h.valueAt_complete hc, value_digestOf, sum_weight]

variable (hash) in
/-- The digests, the queue and the claims that wait for the import add up to the retained claims
in every range, and a fold never fails. A ledger that reports complete has each top, each leaf
and the whole as the claims table gives them. -/
theorem claim_ranges_exact {labels : List Label} (hrun : (machine hash).run empty labels = some s)
    (hinstalled : s.installed = true) :
    (∀ key, valueAt s.digests key + signedSum (weight hash key) s.pending +
      ((s.waiting.map (·.2)).map (weight hash key)).sum = (s.ids.map (weight hash key)).sum) ∧
    (s.complete = true → (∀ key, s.digests.get? key = recount hash s key) ∧
      whole s = digestOf hash s.ids) ∧
    (∀ key digest, s.digests.get? key = some digest → 0 < digest.count) ∧
    ∀ more, ((machine hash).step s (.fold more)).isSome = true := by
  have h : Inv hash s := machine_keeps_inv.run (fun _ _ => trivial) (Inv.empty hash) hrun
  refine ⟨h.balance hinstalled, fun hc => ⟨h.get?_complete hc, h.whole_complete hc⟩, h.positive, ?_⟩
  intro more
  obtain ⟨next, hn, -⟩ := h.foldPage hinstalled more
  simp [machine, hinstalled, hn]

def sampleLabels : List Label :=
  [.insert (replicate 64 97), .insert [98], .install, .insert [99], .delete 2, .fold 0,
    .fold 0, .fold 0]

theorem sampleLabels_exact :
    ∃ s, (machine fun _ => Accumulator.zero).run empty sampleLabels = some s ∧
    s.complete = true ∧ whole s = digestOf (fun _ => Accumulator.zero) s.ids := by
  have he : ((machine fun _ => Accumulator.zero).run empty sampleLabels).map
      (fun s => decide (s.installed = true ∧ s.complete = true)) = some true := by decide +kernel
  obtain ⟨s, hr, hs⟩ := map_eq_some_iff.mp he
  obtain ⟨hi, hc⟩ := of_decide_eq_true hs
  exact ⟨s, hr, hc, ((claim_ranges_exact _ hr hi).2.1 hc).2⟩

end Smalltalk.Ranges
