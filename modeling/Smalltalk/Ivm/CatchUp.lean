import Smalltalk.Ivm.Capture
import Smalltalk.Lib.Results

/-!
# The asynchronous views hold an exact beginning of the claims

While the source is available its queue is the claims after the projected index, and a view
that has missed nothing holds what the claims up to that index leave.
-/

namespace Smalltalk.Ivm

open List Option Table

section
variable {σ : Type} {ledger : Ledger} {limits : Limits}

def entryOf (row : Nat × Claim) : Nat × String × Nat := (row.1, row.2.id, row.2.bytes)

def claimsAfter (claims : Table Nat Claim) (index : Nat) : List (Nat × Claim) :=
  (sortByKey claims.rows).filter (index < ·.1)

/-- A view that has missed nothing is ready, and its output is that of `rows`. -/
def Reflects (ledger : Ledger) (s : State σ) (rows : List (Nat × Claim)) (v : View σ × Progress σ) :
    Prop :=
  v.2.complete = true →
    viewReady s.epoch v = true ∧ rows.foldlM (v.1.apply ledger s.claims) v.1.empty = some v.2.output

structure Captured (ledger : Ledger) (s : State σ) : Prop where
  ids : (s.claims.rows.map (·.2.id)).Nodup
  projected_le : s.projected ≤ s.admitted
  le_admitted : ∀ row ∈ s.claims.rows, row.1 ≤ s.admitted
  queue : ∀ index, s.queue.get? index =
    if s.projected < index then
    (s.claims.get? index).map fun claim => (claim.id, claim.bytes) else none
  rows : s.retainedRows = s.queue.rows.length
  bytes : s.retainedBytes = (s.queue.rows.map (·.2.2)).sum
  outputs : ∀ v ∈ s.views, Reflects ledger s (claimsThrough s.claims s.projected) v

theorem captured_fresh (e : Nat) (views : List (View σ)) : Captured ledger (fresh e views) where
  ids := nodup_nil
  projected_le := Nat.le_refl 0
  le_admitted := fun _ hr => absurd hr not_mem_nil
  queue := by
    intro index
    change none = if 0 < index then Option.map _ none else none
    simp
  rows := rfl
  bytes := rfl
  outputs := by
    intro v hv _
    obtain ⟨view, _, rfl⟩ := mem_map.mp hv
    exact ⟨by simp [viewReady, fresh], rfl⟩

/-! ## Inserted claims -/

variable {claims : Table Nat Claim} {index : Nat} {claim : Claim} {s t : State σ}
    {v : View σ × Progress σ}
  {rows : List (Nat × Claim)}

theorem claimsThrough_insert {bound : Nat} (hn : claims.get? index = none) (ht : bound < index) :
    claimsThrough (claims.insert index claim) bound = claimsThrough claims bound := by
  refine Increasing.ext ((increasing_sortByKey (Table.nodup _)).filter _)
    ((increasing_sortByKey claims.nodup).filter _) ?_
  intro row
  simp only [claimsThrough, mem_filter, mem_sortByKey, insert_of_none hn, mem_append,
    mem_singleton, decide_eq_true_eq]
  constructor
  · rintro ⟨hr | rfl, hl⟩
    · exact ⟨hr, hl⟩
    · exact absurd hl (Nat.not_le.mpr ht)
  · rintro ⟨hr, hl⟩
    exact ⟨.inl hr, hl⟩

theorem apply_insert (view : View σ) (o : σ)
    {row : Nat × Claim} (hn : claims.get? index = none) (hl : row.1 ≤ index) :
    view.apply ledger (claims.insert index claim) o row = view.apply ledger claims o row := by
  unfold View.apply
  rw [claimKey_insert row.2 hn hl]

theorem Reflects.insert
    (h : Reflects ledger s (claimsThrough s.claims s.projected) v) (hn : s.claims.get? index = none)
    (hl : s.projected < index) (hclaims : t.claims = s.claims.insert index claim)
    (he : t.epoch = s.epoch) (hp : t.projected = s.projected) :
    Reflects ledger t (claimsThrough t.claims t.projected) v := by
  intro hc
  obtain ⟨hd, ho⟩ := h hc
  refine ⟨he ▸ hd, ?_⟩
  rw [hclaims, hp, claimsThrough_insert hn hl, ← ho]
  refine foldlM_congr _ _ fun row hr o => apply_insert v.1 o hn ?_
  have : row.1 ≤ s.projected := by simpa using (mem_filter.mp hr).2
  omega

/-- What an insertion does while the source stays available: the claim is after the projected index
and goes into the queue. -/
theorem insertClaim_captures
    (h : insertClaim limits s index claim = some t) (hs : s.available = true → Captured ledger s)
    (ha : t.available = true) :
    s.available = true ∧ s.claims.get? index = none ∧ hasId s.claims claim.id = false ∧
      s.projected < index ∧ s.queue.get? index = none ∧ t = { s with
        claims := s.claims.insert index claim
        queue := s.queue.insert index (claim.id, claim.bytes)
        retainedRows := s.retainedRows + 1
        retainedBytes := s.retainedBytes + claim.bytes
        admitted := max s.admitted index } := by
  unfold insertClaim at h
  split at h
  · cases h
  rename_i hf
  simp only [Bool.or_eq_true, not_or, Bool.not_eq_true, isSome_eq_false_iff,
    isNone_iff_eq_none] at hf
  obtain ⟨u, hu, rfl⟩ := map_eq_some_iff.mp h
  by_cases hb : index ≤ s.projected
  · -- Behind the projected index the source stops, and nothing makes it available again.
    have ht : u.available = false := by
      simp only [stopBehind, hb, if_true, State.stop, capture, Bool.false_and] at hu
      cases hu
      rfl
    simp [charge, ht] at ha
  · rw [stopBehind, if_neg hb] at hu
    unfold capture at hu
    split at hu
    · rename_i hq
      split at hu
      · cases hu
      rename_i hn
      cases hu
      simp only [Bool.and_eq_true, decide_eq_true_eq] at hq
      simp only [Bool.or_eq_true, not_or, Bool.not_eq_true, isSome_eq_false_iff,
        isNone_iff_eq_none] at hn
      have hd : (s.queue.insert index (claim.id, claim.bytes)).get? index =
          some (claim.id, claim.bytes) := by
        rw [get?_insert, if_pos rfl, hn.1]
        rfl
      refine ⟨hq.1.1, hf.1, hf.2, Nat.not_le.mp hb, hn.1, ?_⟩
      simp [charge, hd]
    · rename_i hq
      cases hu
      -- Nothing was queued: the index is free in the queue, so the quota's error stops the source.
      by_cases hv : s.available = true
      · have hqueue := (hs hv).queue index
        rw [hf.1, map_none, ite_self] at hqueue
        simp [charge, hqueue, hv, State.stop] at ha
      · simp [charge, hv] at ha

theorem Captured.insertClaim
    (hs : s.available = true → Captured ledger s) (h : insertClaim limits s index claim = some t)
    (havailable' : t.available = true) : Captured ledger t := by
  obtain ⟨havailable, hn, hi, hl, hqueue, ht⟩ := insertClaim_captures h hs havailable'
  have hc := hs havailable
  have hw : t.claims.rows = s.claims.rows ++ [(index, claim)] := by
    rw [ht]
    exact insert_of_none hn claim
  have hq : t.queue.rows = s.queue.rows ++ [(index, claim.id, claim.bytes)] := by
    rw [ht]
    exact insert_of_none hqueue _
  refine ⟨?_, ?_, ?_, ?_, ?_, ?_, ?_⟩
  · rw [hw, map_append, nodup_append]
    refine ⟨hc.ids, by simp, ?_⟩
    intro a ha b hb heq
    obtain ⟨row, hr, rfl⟩ := mem_map.mp ha
    simp only [map_cons, map_nil, mem_singleton] at hb
    have hno := any_eq_false.mp hi row hr
    simp [heq, hb] at hno
  · rw [ht]
    exact hc.projected_le.trans (Nat.le_max_left _ _)
  · intro row hr
    rw [hw, mem_append, mem_singleton] at hr
    rw [ht]
    rcases hr with hr | rfl
    · exact (hc.le_admitted row hr).trans (Nat.le_max_left _ _)
    · exact Nat.le_max_right _ _
  · intro other
    rw [ht]
    simp only [get?_insert, hc.queue]
    by_cases ho : other = index
    · subst ho
      simp [hl, hn]
    · simp [ho]
  · rw [hq, ht]
    simp [hc.rows]
  · rw [hq, ht]
    simp [hc.bytes]
  · intro v hv
    have hm : v ∈ s.views := by rwa [ht] at hv
    exact (hc.outputs v hm).insert hn hl (by rw [ht]) (by rw [ht]) (by rw [ht])

/-- A fenced view has missed something, and promises nothing. -/
theorem Reflects.fence
    (h : Reflects ledger s rows v) (rows' : List (Nat × Claim)) :
    Reflects ledger t rows' (v.1, v.2.fence) := by
  intro hc
  simp only [Progress.fence, Bool.and_eq_true, Bool.not_eq_true'] at hc
  have hr := (h hc.1).1
  simp [viewReady, hc.2] at hr

theorem reflects_fenceWhere (p : View σ → Bool) (h : ∀ v ∈ s.views, Reflects ledger s rows v) :
    ∀ v ∈ (s.fenceWhere p).views, Reflects ledger s rows v := by
  intro v hv
  obtain ⟨v₀, hv₀, rfl⟩ := mem_map.mp hv
  split
  · exact (h v₀ hv₀).fence _
  · exact h v₀ hv₀

theorem Captured.fenceWhere (h : Captured ledger s) (p : View σ → Bool) :
    Captured ledger (s.fenceWhere p) :=
  { h with outputs := reflects_fenceWhere p h.outputs }

/-! ## The claims of a page -/

theorem claimsThrough_append (claims : Table Nat Claim) (index : Nat) :
    claimsThrough claims index ++ claimsAfter claims index = sortByKey claims.rows :=
  (increasing_sortByKey claims.nodup).filter_le_append index

theorem Captured.sortByKey_queue (h : Captured ledger s) :
    sortByKey s.queue.rows = (claimsAfter s.claims s.projected).map entryOf := by
  refine Increasing.ext (increasing_sortByKey s.queue.nodup) ?_ ?_
  · have ha : Increasing (claimsAfter s.claims s.projected) :=
      (increasing_sortByKey s.claims.nodup).filter _
    exact pairwise_map.mpr ha
  · rintro ⟨index, entry⟩
    rw [mem_sortByKey, mem_rows, h.queue]
    constructor
    · intro he
      split at he
      · rename_i hl
        obtain ⟨claim, hc, rfl⟩ := map_eq_some_iff.mp he
        refine mem_map.mpr ⟨(index, claim), ?_, rfl⟩
        exact mem_filter.mpr ⟨mem_sortByKey.mpr (mem_rows.mpr hc), by simpa using hl⟩
      · cases he
    · intro he
      obtain ⟨⟨index, claim⟩, hr, heq⟩ := mem_map.mp he
      cases heq
      obtain ⟨hr, hl⟩ := mem_filter.mp hr
      rw [if_pos (by simpa using hl), mem_rows.mp (mem_sortByKey.mp hr)]
      rfl

theorem fill_append (limits : Limits) (entries : List (Nat × String × Nat)) :
    ∀ rows bytes, ∃ rest, entries = fill limits rows bytes entries ++ rest := by
  induction entries with
  | nil => intro rows bytes; exact ⟨[], rfl⟩
  | cons e entries ih =>
    intro rows bytes
    unfold fill
    split
    · exact ⟨_, rfl⟩
    · obtain ⟨rest, hr⟩ := ih (rows + 1) (bytes + e.2.2)
      exact ⟨rest, congrArg (e :: ·) hr⟩

theorem length_fill (limits : Limits) (entries : List (Nat × String × Nat)) :
    ∀ rows bytes, rows ≤ limits.pageRows →
    rows + (fill limits rows bytes entries).length ≤ limits.pageRows := by
  induction entries with
  | nil => intro rows bytes h; simpa [fill] using h
  | cons entry entries ih =>
    intro rows bytes h
    unfold fill
    split
    · simpa using h
    · rename_i hr
      have := ih (rows + 1) (bytes + entry.2.2) (by omega)
      simp only [length_cons]
      omega

/-- A page takes claims from the front of those after the projected index, and reaches an index
between them and the rest. -/
theorem Captured.page_split (h : Captured ledger s)
    (hg : ¬ ((fill limits 0 0 (candidates limits s)).isEmpty &&
      !(candidates limits s).isEmpty) = true) :
    ∃ f b, claimsAfter s.claims s.projected = f ++ b ∧
      fill limits 0 0 (candidates limits s) = f.map entryOf ∧
      (f = [] → b = []) ∧ s.projected ≤
        reached s (fill limits 0 0 (candidates limits s)) (candidates limits s) ∧
      reached s (fill limits 0 0 (candidates limits s)) (candidates limits s) ≤ s.admitted ∧
      (∀ row ∈ f, row.1 ≤ reached s (fill limits 0 0 (candidates limits s)) (candidates limits s)) ∧
      ∀ row ∈ b, reached s (fill limits 0 0 (candidates limits s))
        (candidates limits s) < row.1 := by
  obtain ⟨r, hcandidates'⟩ := fill_append limits (candidates limits s) 0 0
  have hle := length_fill limits (candidates limits s) 0 0 (Nat.zero_le _)
  generalize hfill : fill limits 0 0 (candidates limits s) = page at *
  have hkey := h.sortByKey_queue
  have hlt : ∀ row ∈ claimsAfter s.claims s.projected, s.projected < row.1 ∧
      row.1 ≤ s.admitted := by
    intro row hr
    obtain ⟨hr, hl⟩ := mem_filter.mp hr
    exact ⟨by simpa using hl, h.le_admitted row (mem_sortByKey.mp hr)⟩
  -- The queue is the page and what it leaves, of the candidates and after them.
  have hq : (claimsAfter s.claims s.projected).map entryOf =
      page ++ (r ++ (sortByKey s.queue.rows).drop (limits.pageRows + 1)) := by
    rw [← append_assoc, ← hcandidates', candidates, take_append_drop, hkey]
  obtain ⟨f, b, hp, hf, hb⟩ := map_eq_append_iff.mp hq
  have hi : Increasing (f ++ b) := by
    rw [← hp]
    exact (increasing_sortByKey s.claims.nodup).filter _
  refine ⟨f, b, hp, hf.symm, ?_⟩
  by_cases ha : page.length = (candidates limits s).length
  · have hn : r = [] := by
      have := congrArg length hcandidates'
      rw [length_append] at this
      exact eq_nil_of_length_eq_zero (by omega)
    have ht : (sortByKey s.queue.rows).take (limits.pageRows + 1) = sortByKey s.queue.rows := by
      apply take_succ_eq_self
      change ¬ limits.pageRows < (candidates limits s).length
      omega
    have hd : (sortByKey s.queue.rows).drop (limits.pageRows + 1) = [] := by
      have := take_append_drop (limits.pageRows + 1) (sortByKey s.queue.rows)
      rw [ht] at this
      exact append_right_eq_self.mp this
    have he : b = [] := by
      rw [hn, hd] at hb
      exact map_eq_nil_iff.mp hb
    rw [reached, if_pos ha]
    refine ⟨fun _ => he, h.projected_le, Nat.le_refl _, ?_, by simp [he]⟩
    intro row hr
    exact (hlt row (hp ▸ mem_append_left _ hr)).2
  · have hne : f ≠ [] := by
      rintro rfl
      have hpage : page = [] := hf.symm
      have hcandidates : candidates limits s ≠ [] := by
        rintro hn
        simp [hpage, hn] at ha
      simp [hpage, hcandidates] at hg
    obtain ⟨f, last, rfl⟩ := (eq_nil_or_concat' f).resolve_left hne
    have hreached : reached s page (candidates limits s) = last.1 := by
      rw [reached, if_neg ha, ← hf]
      simp [entryOf]
    rw [hreached]
    have hm : last ∈ claimsAfter s.claims s.projected := by
      rw [hp]
      simp
    obtain ⟨hpairwise, _, hc⟩ := pairwise_append.mp hi
    refine ⟨fun hn => by simp at hn, (hlt last hm).1.le, (hlt last hm).2, ?_, ?_⟩
    · intro row hr
      rcases mem_append.mp hr with hr | hr
      · exact ((pairwise_append.mp hpairwise).2.2 row hr last (by simp)).le
      · rw [mem_singleton.mp hr]
    · intro row hr
      exact hc last (by simp) row hr

theorem claimsThrough_page {through : Nat} {f back : List (Nat × Claim)}
    (hp : claimsAfter claims index = f ++ back) (hl : index ≤ through)
    (hf : ∀ row ∈ f, row.1 ≤ through) (hc : ∀ row ∈ back, through < row.1) :
    claimsThrough claims through = claimsThrough claims index ++ f ∧
    claimsAfter claims through = back := by
  have ha := claimsThrough_append claims index
  rw [hp] at ha
  have hb : ∀ row ∈ claimsThrough claims index, row.1 ≤ through := by
    intro row hr
    have : row.1 ≤ index := by simpa using (mem_filter.mp hr).2
    omega
  constructor
  · conv_lhs => rw [claimsThrough, ← ha]
    rw [filter_append, filter_append, filter_eq_self.mpr, filter_eq_self.mpr,
      filter_eq_nil_iff.mpr, append_nil]
    · intro row hr
      simpa using hc row hr
    · intro row hr
      simpa using hf row hr
    · intro row hr
      simpa using hb row hr
  · rw [claimsAfter, ← ha, filter_append, filter_append, filter_eq_nil_iff.mpr,
      filter_eq_nil_iff.mpr, filter_eq_self.mpr, nil_append, nil_append]
    · intro row hr
      simpa using hc row hr
    · intro row hr
      simpa using hf row hr
    · intro row hr
      simpa using hb row hr

/-! ## Dispatching a page -/

theorem Reflects.change {key : ClaimKey} {v' : View σ × Progress σ} (h : Reflects ledger s rows v)
    (hk : claimKey ledger s.claims index claim = some key)
    (hc : change s.epoch index claim key v = some v') :
    Reflects ledger s (rows ++ [(index, claim)]) v' := by
  unfold Ivm.change at hc
  split at hc
  · rename_i hr
    simp only [Bool.and_eq_true] at hr
    split at hc
    · rename_i o ho
      cases hc
      intro hm
      obtain ⟨hd, hw⟩ := h hm
      refine ⟨hd, ?_⟩
      rw [foldlM_append, hw]
      simp [View.apply, hr.1, hk, ho]
    · cases hc
      exact h.fence _
    · cases hc
  · rename_i hr
    cases hc
    intro hm
    obtain ⟨hd, hw⟩ := h hm
    have hreads : v.1.reads claim.kind = false := by simpa [hd] using hr
    refine ⟨hd, ?_⟩
    rw [foldlM_append, hw]
    simp [View.apply, hreads]

theorem Reflects.skip {row : Nat × Claim}
    (h : Reflects ledger s rows v) (hk : v.1.reads row.2.kind = false) :
    Reflects ledger s (rows ++ [row]) v := by
  intro hc
  obtain ⟨hd, hr⟩ := h hc
  refine ⟨hd, ?_⟩
  rw [foldlM_append, hr]
  simp [View.apply, hk]

section
variable {row : Nat × Claim} (hi : (s.claims.rows.map (·.2.id)).Nodup) (hr : row ∈ s.claims.rows)
include hi hr

theorem dispatch_entryOf :
    dispatch ledger limits s (entryOf row) = if s.views.any (·.1.reads row.2.kind) then
        if recordedOrBoundedLegacy ledger limits s.claims row.1 row.2 then
          (claimKey ledger s.claims row.1 row.2).bind fun key =>
            (s.views.mapM (change s.epoch row.1 row.2 key)).map
              fun views => { s with views := views }
        else some (s.fenceWhere (·.reads row.2.kind))
      else some s := by
  unfold dispatch
  rw [show s.claims.rows.find? (·.2.id = (entryOf row).2.1) = some row from find?_id hi hr]
  exact if_neg fun hn => hn rfl

/-- One queued claim: only the views change, and each reflects the claim too. -/
theorem dispatch_reflects
    (hs : ∀ v ∈ s.views, Reflects ledger s rows v)
    (h : dispatch ledger limits s (entryOf row) = some t) :
    t = { s with views := t.views } ∧ ∀ v ∈ t.views, Reflects ledger s (rows ++ [row]) v := by
  rw [dispatch_entryOf hi hr] at h
  split at h
  · split at h
    · obtain ⟨key, hk, h⟩ := bind_eq_some_iff.mp h
      obtain ⟨views, hw, rfl⟩ := map_eq_some_iff.mp h
      refine ⟨rfl, ?_⟩
      intro v hv
      obtain ⟨v₀, hv₀, hc⟩ := (mem_of_mapM_some _ hw v).mp hv
      exact (hs v₀ hv₀).change hk hc
    · cases h
      refine ⟨rfl, ?_⟩
      intro v hv
      obtain ⟨v₀, hv₀, rfl⟩ := List.mem_map.mp hv
      split
      · exact (hs v₀ hv₀).fence _
      · rename_i hs'
        exact (hs v₀ hv₀).skip (by simpa using hs')
  · rename_i hn
    cases h
    refine ⟨rfl, ?_⟩
    intro v hv
    refine (hs v hv).skip ?_
    simp only [List.any_eq_true, not_exists, not_and, Bool.not_eq_true] at hn
    exact hn v hv

end

theorem foldlM_dispatch_reflects (hi : (claims.rows.map (·.2.id)).Nodup)
    (p : List (Nat × Claim)) : ∀ {s t : State σ} {rows : List (Nat × Claim)}, s.claims = claims →
    (∀ row ∈ p, row ∈ claims.rows) → (∀ v ∈ s.views, Reflects ledger s rows v) →
    (p.map entryOf).foldlM (dispatch ledger limits) s = some t →
    t = { s with views := t.views } ∧ ∀ v ∈ t.views, Reflects ledger s (rows ++ p) v := by
  induction p with
  | nil =>
    intro s t rows _ _ hs h
    cases h
    exact ⟨rfl, by simpa using hs⟩
  | cons row p ih =>
    intro s t rows hc hp hs h
    rw [map_cons, foldlM_cons] at h
    obtain ⟨u, hu, h⟩ := bind_eq_some_iff.mp h
    obtain ⟨heq, hv⟩ := dispatch_reflects (hc ▸ hi) (hc ▸ hp row mem_cons_self) hs hu
    rw [heq] at h
    obtain ⟨ht, hf⟩ :=
      ih (s := { s with views := u.views }) hc (fun row hr => hp row (mem_cons_of_mem _ hr)) hv h
    refine ⟨ht, ?_⟩
    rw [show rows ++ row :: p = rows ++ [row] ++ p by simp]
    exact hf

/-! ## The page as a whole -/

theorem queue_rows_perm (h : Captured ledger s) :
    s.queue.rows.Perm ((claimsAfter s.claims s.projected).map entryOf) := by
  rw [← h.sortByKey_queue]
  exact (perm_insertionSort _ _).symm

theorem drain_spec (h : Captured ledger s) {f b : List (Nat × Claim)} {through : Nat}
    (hafter : claimsAfter s.claims s.projected = f ++ b) (hm : f = [] → b = [])
    (hle : s.projected ≤ through) (hle' : ∀ row ∈ f, row.1 ≤ through)
    (hb : ∀ row ∈ b, through < row.1) (views : List (View σ × Progress σ)) :
    let t := drain { s with views := views } (f.map entryOf) through
    t = { s with views := views, queue := t.queue, retainedRows := t.retainedRows,
                 retainedBytes := t.retainedBytes } ∧
      (∀ index, t.queue.get? index =
        if through < index then (s.claims.get? index).map fun claim => (claim.id, claim.bytes)
        else none) ∧
      t.retainedRows = t.queue.rows.length ∧ t.retainedBytes = (t.queue.rows.map (·.2.2)).sum := by
  have hp := queue_rows_perm h
  rw [hafter] at hp
  intro t
  by_cases hn : f = []
  · obtain rfl := hn
    obtain rfl := hm rfl
    have ht : t = { s with views := views } := rfl
    have hw : s.queue.rows = [] := by simpa using hp
    rw [ht]
    refine ⟨rfl, ?_, h.rows, h.bytes⟩
    intro index
    have hqueue : s.queue.get? index = none := by
      rw [get?_eq_none, hw]
      simp
    have hq := h.queue index
    rw [hqueue] at hq
    change s.queue.get? index = _
    rw [hqueue]
    split
    · rwa [if_pos (by omega)] at hq
    · rfl
  · have ht : t = { s with
        views := views
        queue := s.queue.deleteWhere fun index _ => index ≤ through
        retainedRows := s.retainedRows - (f.map entryOf).length
        retainedBytes := s.retainedBytes - ((f.map entryOf).map (·.2.2)).sum } := by
      simp [t, drain, hn]
    have hf : (s.queue.deleteWhere fun index _ => index ≤ through).rows.Perm (b.map entryOf) := by
      refine (hp.filter _).trans ?_
      rw [map_append, filter_append, filter_eq_nil_iff.mpr, filter_eq_self.mpr, nil_append]
      · intro e he
        obtain ⟨row, hr, rfl⟩ := mem_map.mp he
        change (!decide (row.1 ≤ through)) = true
        simpa using hb row hr
      · intro e he
        obtain ⟨row, hr, rfl⟩ := mem_map.mp he
        change ¬ (!decide (row.1 ≤ through)) = true
        simpa using hle' row hr
    rw [ht]
    refine ⟨rfl, ?_, ?_, ?_⟩
    · intro index
      change (s.queue.deleteWhere _).get? index = _
      rw [get?_deleteWhere, h.queue]
      by_cases hl : through < index
      · rw [if_pos (hle.trans_lt hl), if_pos hl]
        cases s.claims.get? index <;> simp [hl]
      · rw [if_neg hl, filter_eq_none_iff]
        intro _ _
        simpa using hl
    · change s.retainedRows - _ = (s.queue.deleteWhere _).rows.length
      rw [h.rows, hp.length_eq, hf.length_eq]
      simp
    · change s.retainedBytes - _ = ((s.queue.deleteWhere _).rows.map (·.2.2)).sum
      rw [h.bytes, (hp.map _).sum_nat, (hf.map _).sum_nat]
      simp

theorem publishCut_spec {admitted projected : Nat} (h : publishCut s admitted projected = some t)
    (ha : t.available = true) : s.available = true ∧ s.admitted ≤ admitted ∧ projected ≤ admitted ∧
      t = { s with admitted := admitted, projected := projected } := by
  unfold publishCut at h
  split at h
  · rename_i hm
    dsimp only at h
    split at h
    · cases h
      cases ha
    · cases h
      exact ⟨ha, hm.2.1, hm.1, rfl⟩
  · cases h

section
variable (hs : s.available = true → Captured ledger s)
include hs

theorem Captured.pageTx (h : pageTx ledger limits s = some t) (ha : t.available = true) :
    Captured ledger t := by
  unfold Ivm.pageTx at h
  split at h
  · rename_i havailable
    cases h
    exact hs ha
  · rename_i hnoAvailable
    have hc := hs (by simpa using hnoAvailable)
    dsimp only at h
    split at h
    · cases h
    · split at h
      · cases h
        cases ha
      · rename_i hg
        obtain ⟨u, hu, h⟩ := bind_eq_some_iff.mp h
        obtain ⟨f, back, hp, hfill, hback, hl, he, hf, hb⟩ := hc.page_split hg
        rw [hfill] at hu h hl he hf hb
        generalize reached s (f.map entryOf) (candidates limits s) = through at *
        have hm : ∀ row ∈ f, row ∈ s.claims.rows := by
          intro row hr
          have : row ∈ claimsAfter s.claims s.projected := hp ▸ mem_append_left _ hr
          exact mem_sortByKey.mp (mem_filter.mp this).1
        obtain ⟨hu, hw⟩ := foldlM_dispatch_reflects hc.ids f rfl hm hc.outputs hu
        rw [hu] at h
        obtain ⟨hd, hq, hrows, hy⟩ := drain_spec hc hp hback hl hf hb u.views
        obtain ⟨_, _, _, ht⟩ := publishCut_spec h ha
        rw [hd] at ht
        rw [ht]
        refine ⟨hc.ids, he, hc.le_admitted, hq, hrows, hy, ?_⟩
        have hh := (claimsThrough_page hp hl hf hb).1
        intro v hv
        change Reflects ledger s (claimsThrough s.claims through) v
        rw [hh]
        exact hw v hv

theorem Captured.publish {admitted : Nat} (h : publishCut s admitted s.projected = some t)
    (ha : t.available = true) : Captured ledger t := by
  obtain ⟨hv, hl, hp, rfl⟩ := publishCut_spec h ha
  have hc := hs hv
  exact { hc with
    projected_le := hp
    le_admitted := fun row hr => (hc.le_admitted row hr).trans hl }

/-! ## Updates and runs -/

theorem Captured.updateClaim {newIndex : Nat} (h : updateClaim s index newIndex claim = some t)
    (ha : t.available = true) : Captured ledger t := by
  unfold Ivm.updateClaim at h
  split at h
  · cases h
    exact hs ha
  · split at h
    · cases h
      exact hs ha
    · dsimp only at h
      split at h
      · cases h
      · cases h
        cases ha

theorem Captured.deleteClaim (ha : (deleteClaim s index).available = true) :
    Captured ledger (Ivm.deleteClaim s index) := by
  unfold Ivm.deleteClaim at ha ⊢
  split at ha
  · exact hs ha
  · cases ha

theorem captured_getD {next : Option (State σ)}
    (hn : ∀ t, next = some t → t.available = true → Captured ledger t) :
    (next.getD s).available = true → Captured ledger (next.getD s) := by
  cases next with
  | none => exact hs
  | some t => exact hn t rfl

end

theorem source_keeps : (source ledger limits : Machine (State σ) Label).Keeps (fun _ => True)
    fun s => s.available = true → Captured ledger s := by
  intro s label t _ hs h
  cases label with
  | insertClaim index claim =>
    cases h
    exact captured_getD hs fun t h => Captured.insertClaim hs h
  | updateClaim index newIndex claim =>
    cases h
    exact captured_getD hs fun t h => Captured.updateClaim hs h
  | deleteClaim index =>
    cases h
    exact Captured.deleteClaim hs
  | fence view =>
    cases h
    intro ha
    exact (hs ha).fenceWhere _
  | publish admitted =>
    cases h
    exact captured_getD hs fun t h => Captured.publish hs h
  | page =>
    cases h
    exact captured_getD hs fun t h => Captured.pageTx hs h

/-- While the source is available, the queue is the claims after the projected index, its counters
are those of its rows, and a view whose applied index is reported holds what all claims up to
the projected index leave. -/
theorem views_catch_up {epoch : Nat} {views : List (View σ)} {labels : List Label} {t : State σ}
    (hrun : (source ledger limits).run (fresh epoch views) labels = some t)
    (havailable : t.available = true) :
    (∀ index, t.queue.get? index =
      if t.projected < index then
      (t.claims.get? index).map fun claim => (claim.id, claim.bytes) else none) ∧
    t.retainedRows = t.queue.rows.length ∧ t.retainedBytes = (t.queue.rows.map (·.2.2)).sum ∧
    ∀ v ∈ t.views, ∀ index, appliedPrefix t v = some index →
      index = t.projected ∧ v.1.replay ledger t.claims index = some v.2.output := by
  have hc :=
    source_keeps.run (fun _ _ => trivial) (fun _ => captured_fresh epoch views) hrun havailable
  refine ⟨hc.queue, hc.rows, hc.bytes, ?_⟩
  intro v hv index hp
  unfold appliedPrefix at hp
  split at hp
  · rename_i hr
    cases hp
    exact ⟨rfl, (hc.outputs v hv hr.2.2).2⟩
  · cases hp

end

def sampleLimits : Limits where
  queueRows := 3
  queueBytes := 100
  pageRows := 2
  pageBytes := 50
  legacyRankRows := 4

def sampleView (name : String) (strict : Bool) : View (List (Nat × Nat)) where
  name := name
  fingerprint := "1"
  kinds := ["note"]
  empty := []
  operate := fun output index claim key =>
    if strict && claim.subject = "bad" then .refused
    else .applied (output ++ [(index, key.position)])

def sampleClaim (id subject : String) : Claim where
  id := id
  batchId := "batch"
  subject := subject
  kind := "note"
  origin := "w"
  actor := none
  body := "x"
  predecessors := ""
  acceptedAtUnixMs := 7

def sampleLabels : List Label :=
  [.insertClaim 3 (sampleClaim "c" "bad"), .insertClaim 1 (sampleClaim "a" "good"),
    .publish 4, .page, .insertClaim 6 (sampleClaim "d" "good")]

theorem sampleLabels_catch_up :
    ∃ t, (source sampleLedger sampleLimits).run
      (fresh 1 [sampleView "all" false, sampleView "strict" true])
        sampleLabels = some t ∧ t.available = true ∧ t.projected = 4 ∧ t.retainedRows = 1 ∧
      t.views.map (fun v => (v.1.name, appliedPrefix t v, v.2.output)) =
        [("all", some 4, [(1, 0), (3, 1)]), ("strict", none, [(1, 0)])] ∧
      ∀ v ∈ t.views, ∀ index, appliedPrefix t v = some index →
        index = t.projected ∧ v.1.replay sampleLedger t.claims index = some v.2.output := by
  have hr : ((source sampleLedger sampleLimits).run
      (fresh 1 [sampleView "all" false, sampleView "strict" true]) sampleLabels).map
        (fun t => decide (
        t.available = true ∧ t.projected = 4 ∧ t.retainedRows = 1 ∧
        t.views.map (fun v => (v.1.name, appliedPrefix t v, v.2.output)) =
          [("all", some 4, [(1, 0), (3, 1)]), ("strict", none, [(1, 0)])])) = some true := by
    decide +kernel
  obtain ⟨t, ht, hf⟩ := map_eq_some_iff.mp hr
  obtain ⟨ha, hp, hrows, hv⟩ := of_decide_eq_true hf
  exact ⟨t, ht, ha, hp, hrows, hv, (views_catch_up ht ha).2.2.2⟩

end Smalltalk.Ivm
