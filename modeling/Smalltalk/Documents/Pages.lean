import Smalltalk.Documents.Binding
import Smalltalk.Lib.Pages

/-!
# Document pages

Document versions are listed by name, the newest binding first, a page at a time. A page starts
after the last row of the one before it, which its cursor names by its creation index. Texts
compare as their characters do.
-/

namespace Smalltalk.Documents

open List Canonical

structure Document (Key : Type) where
  name : String
  hash : Text
  createdIndex : Nat
  bindingClaimId : Text
  bindingKey : Key

/-- The tables that a page reads. Each version has its own binding claim, with its own index and
key: `Store.ofBindings` builds one from the claims that were applied. -/
structure Store (Key : Type) where
  documents : List (Document Key)
  blobs : List Text
  claims : List Text
  indexes : (documents.map (·.createdIndex)).Nodup
  keys : (documents.map (·.bindingKey)).Nodup

/-- A row of `documents` as a reader gets it. Keys are BLOBs, compared byte by byte. -/
def documentOf (decode : Text → String) (r : (Text × Text) × Binding) : Document (List Nat) where
  name := decode r.1.1
  hash := r.1.2
  createdIndex := r.2.createdIndex
  bindingClaimId := r.2.bindingClaimId
  bindingKey := r.2.bindingKey.map UInt8.toNat

theorem Applied.row_eq {db : Db} {claims : List BindingClaim} (h : Applied db claims)
    {r r' : (Text × Text) × Binding} (hr : r ∈ (applyBindings db claims).rows)
    (hr' : r' ∈ (applyBindings db claims).rows)
    (he : r.2.createdIndex = r'.2.createdIndex ∨ r.2.bindingKey = r'.2.bindingKey) : r = r' := by
  obtain ⟨c, k, hc, hb⟩ := h.exists_earliest (Table.mem_rows.mp hr)
  obtain ⟨c', k', hc', hb'⟩ := h.exists_earliest (Table.mem_rows.mp hr')
  have heq : c = c' := by
    rw [hb, hb'] at he
    rcases he with he | he
    · exact h.eq_of_index hc.mem hc'.mem he
    · obtain rfl := sortableKey_injective he
      exact h.ids c hc.mem c' hc'.mem
        ((claimKey_id hc.key_eq).symm.trans (claimKey_id hc'.key_eq))
  subst heq
  exact inj_on_of_nodup_map (applyBindings db claims).nodup hr hr' (hc.binds.version_eq hc'.binds)

/-- The store that a reader sees once `claims` were applied, in any order. -/
def Store.ofBindings (decode : Text → String) (blobs : List Text) {db : Db}
    {claims : List BindingClaim} (h : Applied db claims) : Store (List Nat) where
  documents := (applyBindings db claims).rows.map (documentOf decode)
  blobs := blobs
  claims := db.claims.rows.map (·.1)
  indexes := by
    rw [map_map]
    exact (applyBindings db claims).nodup.of_map.map_on
      fun r hr r' hr' he => h.row_eq hr hr' (.inl he)
  keys := by
    rw [map_map]
    refine (applyBindings db claims).nodup.of_map.map_on
      fun r hr r' hr' he => h.row_eq hr hr' (.inr ?_)
    exact map_injective_iff.mpr (fun _ _ => UInt8.toNat_inj.mp) he

structure Filters where
  name : Option String
  start : Option String
  history : Bool

/-! ## The end of a range -/

/-- The next scalar, past the surrogates. -/
def successor (c : Char) : Char := Char.ofNat (if c.toNat = 0xd7ff then 0xe000 else c.toNat + 1)

/-- The loop of `prefix_end`, from the last character. -/
def endReverse : List Char → Option (List Char)
  | [] => none
  | c :: chars => if c.toNat = 0x10ffff then endReverse chars else some (successor c :: chars)

def prefixEnd (start : String) : Option String :=
  (endReverse start.toList.reverse).map fun chars => String.ofList chars.reverse

def lowerBound (start cursor : Option String) : Option String :=
  match start.filter (· ≠ ""), cursor with
  | some start, some cursor => some (max start cursor)
  | start, cursor => start.or cursor

section
variable {Key : Type} [LinearOrder Key] (store : Store Key) (filters : Filters)

def isLatest (d : Document Key) : Bool :=
  store.documents.any fun n => n.name = d.name && n.hash = d.hash &&
    store.documents.all fun o => o.name ≠ d.name || o.bindingKey ≤ n.bindingKey

/-- The condition of `query`, where a named page compares its name instead of the column. -/
def selects (after : Option (String × Nat)) (d : Document Key) : Bool :=
  let lower := lowerBound filters.start (after.map (·.1))
  let upper := filters.start.bind prefixEnd
  let name := filters.name.getD d.name
  d.hash ∈ store.blobs && d.bindingClaimId ∈ store.claims &&
    filters.name.all (fun n => n ≤ d.name && d.name ≤ n) &&
    lower.all (· ≤ name) && upper.all (name < ·) &&
      filters.start.all (fun s => d.name.toList.take s.toList.length = s.toList) &&
        (filters.history || isLatest store d) &&
        after.all fun cursor => cursor.1 < name || name = cursor.1 && store.documents.any fun c =>
          c.name = cursor.1 && c.createdIndex = cursor.2 && d.bindingKey < c.bindingKey

def order (d : Document Key) : String ×ₗ Keyᵒᵈ := toLex (d.name, OrderDual.toDual d.bindingKey)

def inOrder (p : Document Key → Bool) : List ((String ×ₗ Keyᵒᵈ) × Document Key) :=
  sortByKey ((store.documents.filter p).map fun d => (order d, d))

def read (after : Option (String × Nat)) (limit : Nat) : List (Document Key) :=
  ((inOrder store (selects store filters after)).take limit).map (·.2)

def cursor (d : Document Key) : String × Nat := (d.name, d.createdIndex)

/-- Each page is read after the last row so far. -/
def readPages : Option (String × Nat) → List Nat → List (List (Document Key))
  | _, [] => []
  | after, limit :: limits =>
    let page := read store filters after limit
    page :: readPages ((page.getLast?.map cursor).or after) limits

def eligible (d : Document Key) : Bool :=
  d.hash ∈ store.blobs && d.bindingClaimId ∈ store.claims && filters.name.all (· = d.name) &&
    filters.start.all (·.toList <+: d.name.toList) && (filters.history || isLatest store d)

end

/-! ## Names in a range -/

theorem lt_successor {c : Char} (h : c.toNat ≠ 0x10ffff) : c < successor c := by
  have hv : c.toNat.isValidChar := c.valid
  simp only [Nat.isValidChar] at hv
  have hn : c.toNat < (successor c).toNat := by
    rw [successor, Char.toNat_ofNat]
    simp only [Nat.isValidChar]
    split_ifs <;> omega
  exact hn

/-- A text and what follows it is before the end of its range. -/
theorem append_lt_of_endReverse {chars e : List Char} (r : List Char)
    (h : endReverse chars.reverse = some e) :
    chars ++ r < e.reverse := by
  induction chars using reverseRecOn generalizing r with
  | nil => cases h
  | append_singleton chars c ih =>
    rw [reverse_append, reverse_singleton, singleton_append, endReverse] at h
    rw [append_assoc]
    split at h
    · exact ih _ h
    · rename_i hc
      cases h
      rw [reverse_cons, reverse_reverse]
      exact Lex.append_left _ (.rel (lt_successor hc)) chars

variable {name start : String}

theorem le_of_starts (h : start.toList <+: name.toList) : start ≤ name :=
  String.le_iff_toList_le.mpr (not_lt.mp h.le)

theorem lt_of_starts {e : String} (h : start.toList <+: name.toList)
    (he : prefixEnd start = some e) : name < e := by
  obtain ⟨r, hr⟩ := h
  obtain ⟨chars, hc, rfl⟩ := Option.map_eq_some_iff.mp he
  rw [String.lt_iff_toList_lt, String.toList_ofList, ← hr]
  exact append_lt_of_endReverse r hc

theorem lowerBound_all {start cursor : Option String}
    (h : start.all (fun s => decide (s.toList <+: name.toList)) = true) :
    (lowerBound start cursor).all (· ≤ name) = cursor.all (· ≤ name) := by
  cases start with
  | none => cases cursor <;> rfl
  | some start =>
    have hle : start ≤ name := le_of_starts (by simpa using h)
    by_cases he : start = ""
    · cases cursor <;> simp [lowerBound, Option.filter, he]
    · cases cursor <;> simp [lowerBound, Option.filter, he, hle]

theorem upperBound_all {start : Option String}
    (h : start.all (fun s => decide (s.toList <+: name.toList)) = true) :
    (start.bind prefixEnd).all (name < ·) = true := by
  cases start with
  | none => rfl
  | some start =>
    cases he : prefixEnd start with
    | none => simp [he]
    | some e => simpa [he] using lt_of_starts (by simpa using h) he

section
variable {Key : Type} [LinearOrder Key] {store : Store Key} {filters : Filters} {d c : Document Key}

/-- The range of a text leaves out no eligible version, nor does the cursor's name as a lower
bound. -/
theorem selects_eq (after : Option (String × Nat)) :
    selects store filters after d = (eligible store filters d &&
    after.all fun cursor => cursor.1 < d.name || d.name = cursor.1 && store.documents.any fun c =>
      c.name = cursor.1 && c.createdIndex = cursor.2 && d.bindingKey < c.bindingKey) := by
  have hs : ∀ s : String, d.name.toList.take s.toList.length = s.toList ↔
      s.toList <+: d.name.toList := fun s =>
    eq_comm.trans prefix_iff_eq_take.symm
  have hm : ∀ n, (n ≤ d.name ∧ d.name ≤ n) ↔ n = d.name := fun n => le_antisymm_iff.symm
  unfold selects eligible
  simp only [hs, ← Bool.decide_and, hm]
  by_cases hn : filters.name.all (fun n => decide (n = d.name)) = true
  · by_cases hp : filters.start.all (fun s => decide (s.toList <+: d.name.toList)) = true
    · have hg : filters.name.getD d.name = d.name := by
        cases hf : filters.name with
        | none => rfl
        | some n => simpa [hf] using hn
      simp only [hg, hn, hp, lowerBound_all hp, upperBound_all hp, Bool.and_true]
      cases after with
      | none => simp
      | some cursor =>
        simp only [Option.map_some, Option.all_some]
        by_cases hle : cursor.1 ≤ d.name
        · simp [hle]
        · have hne : d.name ≠ cursor.1 := fun he => hle he.ge
          simp [hle, hne, (not_le.mp hle).not_gt]
    · simp [hp]
  · simp [hn]

theorem after_cursor (hc : c ∈ store.documents) :
    (c.name < d.name || d.name = c.name && store.documents.any fun x =>
      x.name = c.name && x.createdIndex = c.createdIndex &&
      d.bindingKey < x.bindingKey) = decide (order c < order d) := by
  rw [Bool.eq_iff_iff, decide_eq_true_iff, order, order, Prod.Lex.toLex_lt_toLex]
  simp only [Bool.or_eq_true, Bool.and_eq_true, any_eq_true, decide_eq_true_eq,
    OrderDual.toDual_lt_toDual]
  refine or_congr_right (and_congr eq_comm ⟨?_, fun hk => ⟨c, hc, ⟨rfl, rfl⟩, hk⟩⟩)
  rintro ⟨x, hx, ⟨-, hi⟩, hk⟩
  rwa [inj_on_of_nodup_map store.indexes hx hc hi] at hk

theorem increasing_inOrder (p : Document Key → Bool) : Increasing (inOrder store p) := by
  refine increasing_sortByKey ?_
  rw [map_map]
  refine Nodup.map_on (fun a ha b hb he => ?_) (store.keys.of_map.filter p)
  have hk : a.bindingKey = b.bindingKey :=
    congrArg (fun k : String ×ₗ Keyᵒᵈ => OrderDual.ofDual (ofLex k).2) he
  exact inj_on_of_nodup_map store.keys (mem_of_mem_filter ha) (mem_of_mem_filter hb) hk

theorem mem_inOrder {p : Document Key → Bool} {row : (String ×ₗ Keyᵒᵈ) × Document Key} :
    row ∈ inOrder store p ↔ (row.2 ∈ store.documents ∧ p row.2 = true) ∧ row.1 = order row.2 := by
  rw [inOrder, mem_sortByKey, mem_map]
  constructor
  · rintro ⟨d, hd, rfl⟩
    exact ⟨mem_filter.mp hd, rfl⟩
  · rintro ⟨hd, hk⟩
    exact ⟨row.2, mem_filter.mpr hd, by rw [← hk]⟩

theorem inOrder_selects (after : Option (Document Key)) (ha : ∀ c ∈ after, c ∈ store.documents) :
    inOrder store (selects store filters (after.map cursor)) =
      rowsAfter (after.map order) (inOrder store (eligible store filters)) := by
  refine (increasing_inOrder _).ext ((increasing_inOrder _).rowsAfter _) fun row => ?_
  rw [mem_rowsAfter, mem_inOrder, mem_inOrder, selects_eq, Bool.and_eq_true]
  cases after with
  | none => simp
  | some c =>
    have hc := after_cursor (d := row.2) (ha c rfl)
    simp only [Option.map_some, Option.all_some, cursor, hc, decide_eq_true_eq]
    constructor
    · rintro ⟨⟨hd, he, hlt⟩, hk⟩
      exact ⟨⟨⟨hd, he⟩, hk⟩, hk ▸ hlt⟩
    · rintro ⟨⟨⟨hd, he⟩, hk⟩, hlt⟩
      exact ⟨⟨hd, he, hk ▸ hlt⟩, hk⟩

theorem flatten_readPages (limits : List Nat) :
    ∀ after : Option (Document Key), (∀ c ∈ after, c ∈ store.documents) →
    (readPages store filters (after.map cursor) limits).flatten =
      ((rowsAfter (after.map order) (inOrder store (eligible store filters))).take limits.sum).map
        (·.2) := by
  induction limits with
  | nil => exact fun after ha => by simp [readPages]
  | cons l limits ih =>
    intro after ha
    have hr := @inOrder_selects Key _ store filters after ha
    have hi := @increasing_inOrder Key _ store (eligible store filters)
    rw [readPages, flatten_cons, read, hr, sum_cons, take_add, map_append]
    congr 1
    cases hl : ((rowsAfter (after.map order)
        (inOrder store (eligible store filters))).take l).getLast? with
    | none =>
      -- the limit is zero or nothing is left
      have ht := getLast?_eq_none_iff.mp hl
      have hd :=
        take_append_drop l (rowsAfter (after.map order) (inOrder store (eligible store filters)))
      rw [ht, nil_append] at hd
      rw [hd, ht]
      exact ih after ha
    | some last =>
      obtain ⟨hm, hk⟩ := mem_inOrder.mp (mem_rowsAfter.mp (mem_of_mem_take (mem_of_getLast? hl))).1
      have hn := ih (some last.2) (by simpa using hm.1)
      rw [Option.map_some, Option.map_some, ← hk, hi.rowsAfter_last hl] at hn
      rw [getLast?_map, hl]
      exact hn

end

/-- Pages of any limits list the eligible versions one after the other, by name and then the newest
first. -/
theorem document_pages {Key : Type} [LinearOrder Key] (store : Store Key) (filters : Filters) :
    ∃ listing : List (Document Key), listing.Pairwise (order · < order ·) ∧
      (∀ d, d ∈ listing ↔ d ∈ store.documents ∧ eligible store filters d = true) ∧
        ∀ limits, (readPages store filters none limits).flatten = listing.take limits.sum := by
  refine ⟨(inOrder store (eligible store filters)).map (·.2), ?_, fun d => ?_, fun limits => ?_⟩
  · refine pairwise_map.mpr ((increasing_inOrder _).imp_of_mem fun ha hb hlt => ?_)
    rwa [← (mem_inOrder.mp ha).2, ← (mem_inOrder.mp hb).2]
  · constructor
    · intro hd
      obtain ⟨row, hr, rfl⟩ := mem_map.mp hd
      exact (mem_inOrder.mp hr).1
    · exact fun hd => mem_map.mpr ⟨(order d, d), mem_inOrder.mpr ⟨hd, rfl⟩, rfl⟩
  · have h := @flatten_readPages Key _ store filters limits none (by simp)
    simpa [rowsAfter, map_take] using h

def ascii (text : Text) : String := String.ofList (text.map fun b => Char.ofNat b.toNat)

def twoVersions : List BindingClaim :=
  [⟨[99, 0], some [100, 111, 99, 47, 97], some [1], 1⟩,
    ⟨[99], some [100, 111, 99, 47, 97], some [2], 2⟩]

theorem twoVersions_applied : Applied sampleDb twoVersions where
  sound := sampleDb_sound
  held := by
    simp only [twoVersions, forall_mem_cons]
    exact ⟨⟨_, rfl, rfl⟩, ⟨_, rfl, rfl⟩, forall_mem_nil _⟩
  ids := by decide

/-- Two versions of `doc/a`, each on a page of its own. -/
theorem twoVersions_pages :
    let store := Store.ofBindings ascii [[1], [2]] twoVersions_applied
    let pages := readPages store ⟨none, some "doc/", true⟩ none [1, 0, 1, 1]
    pages.map (·.map (·.hash)) = [[[1]], [], [[2]], []] ∧
      ∀ d, d ∈ pages.flatten ↔
        d ∈ store.documents ∧ eligible store ⟨none, some "doc/", true⟩ d = true := by
  obtain ⟨listing, ho, hm, hp⟩ := document_pages (.ofBindings ascii [[1], [2]] twoVersions_applied)
    ⟨none, some "doc/", true⟩
  have hn : listing.Nodup := ho.imp fun h he => h.ne (congrArg order he)
  have hl := (subperm_of_subset hn fun d hd => ((hm d).mp hd).1).length_le
  refine ⟨by decide +kernel, fun d => ?_⟩
  rw [hp, take_of_length_le (hl.trans (by decide +kernel)), hm]

end Smalltalk.Documents
