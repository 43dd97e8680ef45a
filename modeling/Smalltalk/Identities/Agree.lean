import Smalltalk.Identities.Reduced

/-!
# Names never point two ways

The keys only grow with the held claims, so a flush that writes every row leaves
what a rebuild would, as long as every change that the fold reads is marked.
-/

namespace Smalltalk.Identities

open List Option Table IdentityKind

namespace Store

section
variable {s t : Store}

/-! ## What resolves -/

inductive InChain (claims : Table String Claim) (identity : String) : Option String → String → Prop
  | own : InChain claims identity none identity
  | target {id : String} {claim : Claim} {name : String} (held : claims.get? id = some claim)
      (is : claim.target = some name) : InChain claims identity (some id) name
  | source {id : String} {claim : Claim} {name : String} (held : claims.get? id = some claim)
      (is : claim.source = some name) : InChain claims identity (some id) name
  | before {id : String} {claim : Claim} {name : String} (held : claims.get? id = some claim)
      (rest : InChain claims identity claim.previousRevision name) :
        InChain claims identity (some id) name

inductive Follows (claims : Table String Claim) (names : Table String Name) (identity : String) :
    Option String → String → Prop
  | start (points : names.get? identity = some ⟨identity, none⟩) :
      Follows claims names identity none identity
  | rename {id canonical name : String} {claim : Claim}
      (before : Follows claims names identity claim.previousRevision canonical)
      (held : claims.get? id = some claim) (source : claim.source = some canonical)
        (target : claim.target = some name)
      (points : names.get? name = some ⟨identity, some id⟩) :
        Follows claims names identity (some id) name

structure Sound (claims : Table String Claim) (heads : Table String Head)
    (names : Table String Name) : Prop where
  follows : ∀ identity head, heads.get? identity = some head →
    Follows claims names identity head.revision head.canonical
  kind : ∀ id name, names.get? id = some name → of id = of name.identity

variable {claims : Table String Claim} {names : Table String Name} {canonical identity : String}
  {revision : Option String}

section
variable (h : Follows claims names identity revision canonical)
include h

theorem Follows.points : ∃ claim, names.get? canonical = some ⟨identity, claim⟩ := by
  cases h with
  | start points | rename before held source target points => exact ⟨_, points⟩

theorem Follows.names_of_inChain {name : String}
    (hn : InChain claims identity revision name) :
    ∃ claim, names.get? name = some ⟨identity, claim⟩ := by
  induction h with
  | start points =>
    cases hn
    exact ⟨_, points⟩
  | rename before held source target points ih =>
    cases hn with
    | target held' is =>
      rw [held] at held'
      obtain rfl := some.inj held'
      rw [target] at is
      obtain rfl := some.inj is
      exact ⟨_, points⟩
    | source held' is =>
      rw [held] at held'
      obtain rfl := some.inj held'
      rw [source] at is
      obtain rfl := some.inj is
      exact before.points
    | before held' rest =>
      rw [held] at held'
      obtain rfl := some.inj held'
      exact ih rest

end

theorem sound_graph : Sound s.claims s.graph.heads s.graph.names := by
  constructor
  · intro identity head hh
    have ho : s.graph.names.get? identity = some ⟨identity, none⟩ := by
      have hbase : s.Base identity := reducedHeads_ne_none.mp (by simp [hh])
      obtain ⟨name, hn⟩ := ne_none_iff_exists'.mp (baseNames_ne_none.mpr hbase)
      rw [reducedNames_base hn, baseNames_eq hn]
    have hfollows : ∀ revision canonical, s.Chain identity revision canonical →
        Follows s.claims s.graph.names identity revision canonical := by
      intro revision canonical h
      induction h with
      | start => exact .start ho
      | rename before mem own w ih =>
        obtain ⟨claim, hc, hk, he, hi, hp, -⟩ := claim_of_mem_facts mem
        rw [hp] at ih
        obtain ⟨hs, ht, -⟩ := kind_of_edge he
        refine .rename ih hc hs ht ?_
        rw [← own]
        exact reducedNames_target mem w
    exact hfollows _ _ (chained_reducedHeads identity head hh)
  · intro id name hn
    cases origin_of_reducedNames hn with
    | base h => rw [baseNames_eq h]
    | target f mem named is =>
      obtain ⟨claim, -, -, he, hi, -⟩ := claim_of_mem_facts mem
      obtain ⟨-, -, hb, -, ht⟩ := kind_of_edge he
      rw [is, ← named, hi, hb]
      exact ht
    | source f mem named is =>
      obtain ⟨claim, -, -, he, hi, -⟩ := claim_of_mem_facts mem
      obtain ⟨-, -, hb, hs, -⟩ := kind_of_edge he
      rw [is, ← named, hi, hb]
      exact hs

/-! ## Runs -/

def Extends (s t : Store) : Prop :=
  ∀ id claim, s.claims.get? id = some claim → t.claims.get? id = some claim

section
variable (h : s.Extends t)
include h

theorem Extends.namings {r : String × Claim × IdentityKind} (hr : r ∈ namings s.claims) :
    r ∈ namings t.claims := by
  obtain ⟨hc, hk⟩ := mem_namings.mp hr
  exact mem_namings.mpr ⟨h _ _ hc, hk⟩

theorem Extends.mentioned {id : String} (hi : (mentioned s.claims).contains id = true) :
    (mentioned t.claims).contains id = true := by
  rw [contains_iff_mem] at hi ⊢
  obtain ⟨r, hr, hi⟩ := mem_flatMap.mp hi
  exact mem_flatMap.mpr ⟨r, h.namings hr, hi⟩

theorem Extends.rows {r : String × Claim} (hr : r ∈ s.claims.rows) : r ∈ t.claims.rows :=
  mem_rows.mpr (h _ _ (mem_rows.mp hr))

theorem Extends.base {id : String} (hi : s.Base id) : t.Base id := by
  rcases hi with hi | ⟨r, hr, hi⟩
  · left
    obtain ⟨d, hd, rfl⟩ := List.mem_map.mp hi
    refine List.mem_map.mpr ⟨d, ?_, rfl⟩
    rcases mem_append.mp hd with hd | hd
    · obtain ⟨r, hr, hw⟩ := mem_filterMap.mp hd
      split at hw
      · rename_i hc
        refine mem_append_left _ (mem_filterMap.mpr ⟨r, h.rows hr, ?_⟩)
        rw [if_pos ⟨hc.1, h.mentioned hc.2.1, hc.2.2⟩]
        exact hw
      · cases hw
    · obtain ⟨r, hr, hw⟩ := mem_filterMap.mp hd
      split at hw
      · rename_i hc
        refine mem_append_right _ (mem_filterMap.mpr ⟨r, h.rows hr, ?_⟩)
        rw [if_pos ⟨hc.1, h.mentioned hc.2⟩]
        exact hw
      · cases hw
  · exact .inr ⟨r, h.namings hr, hi⟩

theorem Extends.named {id : String} (hi : s.Named id) : t.Named id := by
  rcases hi with hi | ⟨key, claim, kind, edge, hc, hr⟩
  · exact .inl (h.base hi)
  · exact .inr ⟨key, claim, kind, edge, h _ _ hc, hr⟩

theorem Extends.follows (hs : Follows s.claims names identity revision canonical) :
    Follows t.claims names identity revision canonical := by
  induction hs with
  | start points => exact .start points
  | rename before held source target points ih => exact .rename ih (h _ _ held) source target points

end

structure Held (s : Store) : Prop where
  heads : ∀ id, s.heads.get? id ≠ none → s.Base id
  names : ∀ id, s.names.get? id ≠ none → s.Named id
  sound : Sound s.claims s.heads s.names

def Rebuilt (s : Store) : Prop :=
  (∀ id, s.heads.get? id = (s.reduce true).heads.get? id) ∧
  ∀ id, s.names.get? id = (s.reduce true).names.get? id

theorem get?_reduce_true (s : Store) (id : String) :
    (s.reduce true).heads.get? id = s.graph.heads.get? id ∧
    (s.reduce true).names.get? id = s.graph.names.get? id := by
  constructor
  · change ((∅ : Table String Head).putAll s.graph.heads.rows).get? id = _
    rw [get?_putAll_rows]
    exact or_none
  · change ((∅ : Table String Name).putAll s.graph.names.rows).get? id = _
    rw [get?_putAll_rows]
    exact or_none

theorem Held.get?_reduce (h : s.Held) (clear : Bool) (id : String) :
    (s.reduce clear).heads.get? id = s.graph.heads.get? id ∧
    (s.reduce clear).names.get? id = s.graph.names.get? id := by
  cases clear with
  | true => exact s.get?_reduce_true id
  | false =>
    have hh : (s.reduce false).heads.get? id = (s.graph.heads.get? id).or (s.heads.get? id) :=
      get?_putAll_rows _ _ id
    have hm : (s.reduce false).names.get? id = (s.graph.names.get? id).or (s.names.get? id) :=
      get?_putAll_rows _ _ id
    rw [hh, hm]
    constructor
    · cases hold : s.heads.get? id with
      | none => exact or_none
      | some head =>
        obtain ⟨new, hn⟩ :=
          ne_none_iff_exists'.mp (reducedHeads_ne_none.mpr (h.heads id (by simp [hold])))
        rw [hn]
        rfl
    · cases hold : s.names.get? id with
      | none => exact or_none
      | some name =>
        obtain ⟨new, hn⟩ := ne_none_iff_exists'.mp (names_ne_none.mpr (h.names id (by simp [hold])))
        rw [hn]
        rfl

variable {names' : Table String Name} {label : Label} {start : Store} {labels : List Label}
    {ref : String}
  {record : Record}

theorem Follows.congr (h : Follows claims names identity revision canonical)
    (hn : ∀ id, names'.get? id = names.get? id) :
    Follows claims names' identity revision canonical := by
  induction h with
  | start points => exact .start (by rw [hn, points])
  | rename before held source target points ih =>
    exact .rename ih held source target (by rw [hn, points])

theorem Sound.congr {heads heads' : Table String Head}
    (h : Sound claims heads names) (hh : ∀ id, heads'.get? id = heads.get? id)
    (hn : ∀ id, names'.get? id = names.get? id) : Sound claims heads' names' := by
  constructor
  · intro identity head hheads
    exact (h.follows identity head (by rwa [← hh])).congr hn
  · intro id name hm
    exact h.kind id name (by rwa [← hn])

theorem Held.of_graph (hh : ∀ id, t.heads.get? id = t.graph.heads.get? id)
    (hn : ∀ id, t.names.get? id = t.graph.names.get? id) : t.Held where
  heads id hi := reducedHeads_ne_none.mp (by rwa [← hh])
  names id hi := names_ne_none.mp (by rwa [← hn])
  sound := sound_graph.congr hh hn

theorem Held.extend (h : s.Held) (he : s.Extends t) (hh : t.heads = s.heads)
    (hn : t.names = s.names) : t.Held where
  heads id hi := he.base (h.heads id (by rwa [← hh]))
  names id hi := he.named (h.names id (by rwa [← hn]))
  sound := by
    rw [hh, hn]
    exact ⟨fun identity head hheads => he.follows (h.sound.follows identity head hheads),
      h.sound.kind⟩

theorem Held.reduce (h : s.Held) (clear : Bool) : (s.reduce clear).Held :=
  Held.of_graph (fun id => (h.get?_reduce clear id).1) fun id => (h.get?_reduce clear id).2

theorem Held.step (h : s.Held) (hs : s.step label = some t) : t.Held := by
  cases label with
  | claim id claim =>
    unfold Store.step at hs
    dsimp only at hs
    split at hs
    · cases hs
    · rename_i hn
      cases hs
      refine h.extend (fun key held hh => ?_) rfl rfl
      change (s.claims.insert id claim).get? key = some held
      rw [get?_insert]
      split
      · rename_i hk
        rw [← hk, hh]
        rfl
      · exact hh
  | record ref record =>
    unfold Store.step at hs
    dsimp only at hs
    split at hs
    · cases hs
    · cases hs
      exact h.extend (fun _ _ hh => hh) rfl rfl
  | updateRecord ref record =>
    obtain ⟨old, -, rfl⟩ := map_eq_some_iff.mp hs
    exact h.extend (fun _ _ hh => hh) rfl rfl
  | conflict o =>
    cases hs
    exact h.extend (fun _ _ hh => hh) rfl rfl
  | flush =>
    cases hs
    split
    · exact h.reduce false
    · exact h
  | rebuild =>
    cases hs
    exact h.reduce true

theorem held_run (h : identities.run (start.reduce true) labels = some s) : s.Held := by
  refine Machine.Keeps.run (m := identities) (fun _ _ _ _ h hs => h.step hs)
    (fun _ _ => trivial) ?_ h
  exact Held.of_graph (fun id => (start.get?_reduce_true id).1)
    fun id => (start.get?_reduce_true id).2

/-! ## Marked changes -/

/-- The graph is read off the claims, their repairs and the conflicts of naming operations. -/
theorem graph_congr (hl : t.claims = s.claims) (hp : ∀ id, t.repaired id = s.repaired id)
    (hc : ∀ r ∈ namings s.claims,
      r.2.1.operation.any t.conflicts.contains = r.2.1.operation.any s.conflicts.contains) :
    t.graph = s.graph := by
  have hf : t.repaired = s.repaired := funext hp
  unfold graph
  rw [hl, hf]
  congr 1
  refine filterMap_congr fun r hr => ?_
  rw [hc r hr]

/-- A record or an operation changes the names only while a flush is due: no record is first
stored repaired, no repaired record changes its claim, and no operation of a held naming claim
turns into a conflict. -/
def marked (s : Store) : Label → Bool
  | .record _ record => s.dirty || decide (record.state ≠ .repaired)
  | .updateRecord ref record => s.dirty || (s.records.get? ref).all fun old =>
      decide (old.state ≠ .repaired ∨ record.state ≠ .repaired ∨ old.claim = record.claim)
  | .conflict operation =>
    s.dirty || (namings s.claims).all fun r => decide (r.2.1.operation ≠ some operation)
  | _ => true

def Fresh (s : Store) : Prop := s.dirty = false →
  (∀ id, s.heads.get? id = s.graph.heads.get? id) ∧ ∀ id, s.names.get? id = s.graph.names.get? id

theorem Fresh.of_graph (h : s.Fresh) (hd : t.dirty = false → s.dirty = false)
    (hh : t.heads = s.heads) (hn : t.names = s.names) (hg : t.dirty = false → t.graph = s.graph) :
    t.Fresh := by
  intro ht
  rw [hh, hn, hg ht]
  exact h (hd ht)

theorem repaired_insert (hn : s.records.get? ref = none) (hs : record.state ≠ .repaired)
    (id : String) :
    ({ s with records := s.records.insert ref record } : Store).repaired id = s.repaired id := by
  change (s.records.insert ref record).rows.any _ = _
  rw [insert_of_none hn, any_append]
  simp [repaired, hs]

theorem repaired_update {old : Record} (hold : s.records.get? ref = some old)
    (hm : (old.state = .repaired ↔ record.state = .repaired) ∧
      (old.state = .repaired → old.claim = record.claim))
    (dirty : Bool) (id : String) :
    ({ s with records := s.records.update ref fun _ => record, dirty := dirty } : Store).repaired
      id = s.repaired id := by
  change (s.records.update ref fun _ => record).rows.any _ = s.records.rows.any _
  unfold Table.update
  rw [List.any_map]
  rw [Bool.eq_iff_iff, List.any_eq_true, List.any_eq_true]
  refine exists_congr fun r => and_congr_right fun hr => ?_
  simp only [Function.comp_apply, decide_eq_true_eq]
  by_cases hf : r.1 = ref
  · have hw : r.2 = old := by
      rw [← hf, mem_rows.mp (show (r.1, r.2) ∈ s.records.rows from hr)] at hold
      exact some.inj hold
    rw [if_pos hf, hw]
    constructor
    · rintro ⟨hc, hs⟩
      have hp := hm.1.mpr hs
      exact ⟨(hm.2 hp).trans hc, hp⟩
    · rintro ⟨hc, hs⟩
      exact ⟨(hm.2 hs).symm.trans hc, hm.1.mp hs⟩
  · rw [if_neg hf]

theorem Fresh.step (h : s.Fresh) (hh : s.Held) (hmarked : s.marked label = true)
    (hs : s.step label = some t) : t.Fresh := by
  cases label with
  | claim id claim =>
    unfold Store.step at hs
    dsimp only at hs
    split at hs
    · cases hs
    · cases hs
      intro hd
      cases hd
  | record ref record =>
    unfold Store.step at hs
    dsimp only at hs
    split at hs
    · cases hs
    · rename_i hw
      cases hs
      refine h.of_graph (fun hd => hd) rfl rfl fun hd => ?_
      have hd : s.dirty = false := hd
      have ht : record.state ≠ .repaired := by simpa [marked, hd] using hmarked
      exact graph_congr rfl (repaired_insert (by simpa using hw) ht) fun _ _ => rfl
  | updateRecord ref record =>
    obtain ⟨old, hold, rfl⟩ := map_eq_some_iff.mp hs
    have hl : ∀ {m : Bool}, (s.dirty || m) = false → s.dirty = false ∧ m = false := by
      intro m hm
      simpa using hm
    refine h.of_graph (fun hd => (hl hd).1) rfl rfl fun hd => ?_
    obtain ⟨hd, hm⟩ := hl hd
    have hc : old.state ≠ .repaired ∨ record.state ≠ .repaired ∨ old.claim = record.claim := by
      simpa [marked, hd, hold] using hmarked
    refine graph_congr rfl (repaired_update hold ?_ _) fun _ _ => rfl
    by_cases hstate : old.state = record.state
    · rw [hstate] at hc ⊢
      exact ⟨Iff.rfl, fun ht => (hc.resolve_left fun h => h ht).resolve_left fun h => h ht⟩
    · have hn : old.state ≠ .repaired ∧ record.state ≠ .repaired := by simpa [hstate] using hm
      exact ⟨iff_of_false hn.1 hn.2, fun ht => absurd ht hn.1⟩
  | conflict operation =>
    cases hs
    refine h.of_graph (fun hd => hd) rfl rfl fun hd => ?_
    have hd : s.dirty = false := hd
    have ho : ∀ r ∈ namings s.claims, r.2.1.operation ≠ some operation := by
      simpa [marked, hd] using hmarked
    refine graph_congr rfl (fun _ => rfl) fun r hr => ?_
    cases hp : r.2.1.operation with
    | none => rfl
    | some other =>
      have hne : other ≠ operation := fun heq => ho r hr (by rw [hp, heq])
      simp [hne]
  | flush =>
    cases hs
    split
    · exact fun _ => ⟨fun id => (hh.get?_reduce false id).1, fun id => (hh.get?_reduce false id).2⟩
    · exact h
  | rebuild =>
    cases hs
    exact fun _ => ⟨fun id => (s.get?_reduce_true id).1, fun id => (s.get?_reduce_true id).2⟩

theorem fresh_run (h : (identities.restrict marked).run (start.reduce true) labels = some s) :
    s.Fresh := by
  have hk : (identities.restrict marked).Keeps (fun _ => True) fun s => s.Held ∧ s.Fresh := by
    intro s label t _ hs ht
    obtain ⟨hm, ht⟩ := Machine.step_of_restrict ht
    exact ⟨hs.1.step ht, hs.2.step hs.1 hm ht⟩
  have hheads := start.get?_reduce_true
  exact (hk.run (fun _ _ => trivial)
    ⟨Held.of_graph (fun id => (hheads id).1) fun id => (hheads id).2,
    fun _ => ⟨fun id => (hheads id).1, fun id => (hheads id).2⟩⟩ h).2

/-! ## Resolved identities -/

section
variable {valid : String → Bool} {declared : IdentityKind → String → Option String}
variable {kind : IdentityKind} {id : String} {r : ResolvedIdentity}

theorem available_eq_ok {resolved : ResolvedIdentity} {blocked : Option Reason} :
    s.available resolved blocked = .ok r ↔ resolved = r ∧ blocked = none ∧
    s.pending resolved.identity = none := by
  unfold available
  cases blocked with
  | some reason => simp
  | none => cases s.pending resolved.identity <;> simp

/-- A name resolves by its head, or, without one, by its own declaration. -/
theorem resolveIdentity_eq_ok :
    s.resolveIdentity valid declared kind id = .ok r ↔ (of id = some kind ∧ valid id = true) ∧
      ((∃ head, s.joined kind id = some (r.identity, head) ∧
        r = ⟨kind, r.identity, head.canonical, head.revision⟩ ∧
        head.blocked = none ∧ s.pending r.identity = none) ∨
      (s.joined kind id = none ∧ r = ⟨kind, id, id, none⟩ ∧ s.pending id = none ∧
        (declared kind id).isSome)) := by
  unfold resolveIdentity validateName
  by_cases hk : of id = some kind
  · cases hv : valid id with
    | false => simp [hk, Except.bind]
    | true =>
      simp only [hk, ne_eq, not_true_eq_false, if_false, Bool.true_eq_false, Except.bind,
        and_self, true_and]
      cases hj : s.joined kind id with
      | some joined =>
        simp only [available_eq_ok, some.injEq, reduceCtorEq, false_and, or_false]
        constructor
        · rintro ⟨rfl, hb, hp⟩
          exact ⟨joined.2, rfl, rfl, hb, hp⟩
        · rintro ⟨head, hh, hr, hb, hp⟩
          rw [hh]
          exact ⟨hr.symm, hb, hp⟩
      | none =>
        simp only [reduceCtorEq, false_and, exists_false, false_or, true_and]
        cases hp : s.pending id with
        | some resolved => simp
        | none =>
          cases ht : declared kind id with
          | none => simp
          | some token =>
            simp only [isNone_some, Bool.false_eq_true, if_false, available_eq_ok, hp, isSome_some,
              and_self, and_true]
            exact eq_comm
  · simp [hk, Except.bind]

theorem joined_eq_some {identity : String} {head : Head} :
    s.joined kind id = some (identity, head) ↔
    (∃ claim, s.names.get? id = some ⟨identity, claim⟩) ∧ s.heads.get? identity = some head ∧
    head.kind = kind := by
  unfold joined
  cases hn : s.names.get? id with
  | none => simp
  | some name =>
    obtain ⟨owner, claim⟩ := name
    simp only [bind_some, bind_eq_some_iff]
    constructor
    · rintro ⟨f, hf, h⟩
      split at h
      · rename_i hk
        obtain ⟨rfl, rfl⟩ : owner = identity ∧ f = head := by simpa using h
        exact ⟨⟨claim, rfl⟩, hf, hk⟩
      · cases h
    · rintro ⟨⟨claim', hc⟩, hh, hk⟩
      obtain ⟨rfl, -⟩ : owner = identity ∧ claim = claim' := by simpa using hc
      exact ⟨head, hh, by rw [if_pos hk]⟩

/-- The canonical name of a head resolves to it under the head's kind. -/
theorem Held.joined_canonical (h : s.Held) {identity : String} {head : Head}
    (hj : s.joined kind id = some (identity, head)) :
    s.joined kind head.canonical = some (identity, head) := by
  obtain ⟨-, hh, hk⟩ := joined_eq_some.mp hj
  exact joined_eq_some.mpr ⟨(h.sound.follows identity head hh).points, hh, hk⟩

theorem Held.canonical_unique (h : s.Held) {kind' : IdentityKind} {id' : String}
    {r' : ResolvedIdentity} (hr : s.resolveIdentity valid declared kind id = .ok r)
    (hr' : s.resolveIdentity valid declared kind' id' = .ok r') (hc : r.canonical = r'.canonical) :
    r.identity = r'.identity := by
  -- A name that resolves by its declaration has no head of its kind, so it is no head's canonical
  -- name.
  have hm : ∀ {kind kind' : IdentityKind} {id id' identity : String} {head : Head},
      of id = some kind → s.joined kind id = some (identity, head) → of id' = some kind' →
        s.joined kind' id' = none → head.canonical ≠ id' := by
    rintro kind kind' id _ identity head hk hj hk' hn rfl
    obtain ⟨⟨claim, hnames⟩, hh, -⟩ := joined_eq_some.mp hj
    obtain ⟨claim', hc⟩ := (h.sound.follows identity head hh).points
    have hs : some kind = some kind' := by
      rw [← hk, ← hk', h.sound.kind _ _ hnames, h.sound.kind _ _ hc]
    obtain rfl := some.inj hs
    rw [h.joined_canonical hj] at hn
    cases hn
  obtain ⟨⟨hk, -⟩, hr⟩ := resolveIdentity_eq_ok.mp hr
  obtain ⟨⟨hk', -⟩, hr'⟩ := resolveIdentity_eq_ok.mp hr'
  rcases hr with ⟨head, hj, hr, -⟩ | ⟨hn, hr, -⟩ <;>
    rcases hr' with ⟨head', hj', hr', -⟩ | ⟨hn', hr', -⟩
  · obtain ⟨-, hh, -⟩ := joined_eq_some.mp hj
    obtain ⟨-, hh', -⟩ := joined_eq_some.mp hj'
    obtain ⟨claim, hp⟩ := (h.sound.follows _ _ hh).points
    obtain ⟨claim', hp'⟩ := (h.sound.follows _ _ hh').points
    have hs : head.canonical = head'.canonical := by
      rw [hr, hr'] at hc
      exact hc
    rw [hs, hp'] at hp
    exact (congrArg Name.identity (some.inj hp)).symm
  · rw [hr, hr'] at hc
    exact absurd hc (hm hk hj hk' hn')
  · rw [hr, hr'] at hc
    exact absurd hc.symm (hm hk' hj' hk hn)
  · rw [hr, hr'] at hc ⊢
    exact hc

theorem Held.chain_resolves (h : s.Held) (hr : s.resolveIdentity valid declared kind id = .ok r)
    {name : String} (hn : InChain s.claims r.identity r.revision name) :
    (valid name = true → s.resolveIdentity valid declared kind name = .ok r) ∧
      ((s.joined kind id).isSome → s.resolveReference name = .ok r.identity) := by
  obtain ⟨⟨hk, hl⟩, hc⟩ := resolveIdentity_eq_ok.mp hr
  rcases hc with ⟨head, hj, hh, hb, hp⟩ | ⟨hjoined, hh, -⟩
  · obtain ⟨⟨claim, hi⟩, hg, hkind⟩ := joined_eq_some.mp hj
    have hrevision : r.revision = head.revision := congrArg ResolvedIdentity.revision hh
    rw [hrevision] at hn
    obtain ⟨claim', hnames⟩ := (h.sound.follows _ _ hg).names_of_inChain hn
    have ho : of name = some kind := by
      rw [h.sound.kind _ _ hnames, ← hk, h.sound.kind _ _ hi]
    refine ⟨fun hv => resolveIdentity_eq_ok.mpr ⟨⟨ho, hv⟩, .inl ⟨head, ?_, hh, hb, hp⟩⟩,
      fun _ => ?_⟩
    · exact joined_eq_some.mpr ⟨⟨claim', hnames⟩, hg, hkind⟩
    · simp [resolveReference, ho, hnames, hg, hb, hp]
  · rw [hh] at hn
    cases hn
    exact ⟨fun _ => hr, fun hs => by rw [hjoined] at hs; cases hs⟩

end

end

end Store

/-- Once flushed, what is held is what a rebuild computes. Two identities that resolve never have
one canonical name, and the names of an available identity's chain resolve to it. -/
theorem names_point_one_way (validSubject : String → Bool)
    (declarationToken : IdentityKind → String → Option String) (start : Store) (labels : List Label)
    (s : Store) (h : identities.run (start.reduce true) labels = some s) :
    ((identities.restrict Store.marked).run (start.reduce true) labels = some s → s.dirty = false →
      s.Rebuilt) ∧
    (∀ kind kind' id id' r r', s.resolveIdentity validSubject declarationToken kind id = .ok r →
      s.resolveIdentity validSubject declarationToken kind' id' = .ok r' →
        r.canonical = r'.canonical → r.identity = r'.identity) ∧
    ∀ kind id r name, s.resolveIdentity validSubject declarationToken kind id = .ok r →
      Store.InChain s.claims r.identity r.revision name →
        (validSubject name = true →
          s.resolveIdentity validSubject declarationToken kind name = .ok r) ∧
          ((s.joined kind id).isSome → s.resolveReference name = .ok r.identity) := by
  have hh := Store.held_run h
  refine ⟨fun hrun hdirty => ?_, fun _ _ _ _ _ _ hr hr' => hh.canonical_unique hr hr',
    fun _ _ _ _ hr hn => hh.chain_resolves hr hn⟩
  obtain ⟨hd, hm⟩ := Store.fresh_run hrun hdirty
  exact ⟨fun id => (hd id).trans (s.get?_reduce_true id).1.symm,
    fun id => (hm id).trans (s.get?_reduce_true id).2.symm⟩

def sampleDeclaration : Claim :=
  { kind := .intentDesired, subject := "agent/a", origin := "host",
    desired := some ⟨"agent", some "host"⟩ }

def sampleRename : Claim :=
  { kind := .agentRenamed, subject := "agent/a", origin := "host", source := some "agent/a",
    target := some "agent/b", declaration := some "d", ownerHost := some "host", operation :=
      some "key" }

def sampleLabels : List Label :=
  [.claim "r" sampleRename, .flush, .claim "d" sampleDeclaration,
    .record "record" { state := .valid, claim := some "r" }, .flush]

theorem sampleLabels_rebuilt :
    ∃ s : Store, identities.run (({} : Store).reduce true) sampleLabels = some s ∧
    s.dirty = false ∧ s.Rebuilt ∧ s.resolveReference "agent/b" = .ok "agent/a" := by
  have hm :
      ((identities.restrict Store.marked).run (({} : Store).reduce true) sampleLabels).map (fun s =>
      decide (s.dirty = false ∧ s.resolveReference "agent/b" = .ok "agent/a")) = some true := by
    decide +kernel
  obtain ⟨s, hs, hc⟩ := map_eq_some_iff.mp hm
  have hc := of_decide_eq_true hc
  have hr := Machine.run_of_restrict hs
  exact ⟨s, hr, hc.1, (names_point_one_way (fun _ => true) (fun _ _ => none) {} _ s hr).1 hs hc.1,
    hc.2⟩

/-- A renamed identity stays available after its operation has conflicting requests, where a
rebuild would fence it; so does one whose repaired record is stored late. -/
theorem unmarked_conflict_not_rebuilt :
    (∃ s : Store, identities.run (({} : Store).reduce true)
      (sampleLabels ++ [.conflict "key", .flush]) = some s ∧
      s.dirty = false ∧ ¬ s.Rebuilt) ∧ ∃ s : Store, identities.run (({} : Store).reduce true)
        (sampleLabels ++ [.record "late" { state := .repaired, claim := some "r" }, .flush]) =
          some s ∧
      s.dirty = false ∧ ¬ s.Rebuilt := by
  have ht : ∀ labels : List Label, (identities.run (({} : Store).reduce true) labels).map (fun s =>
      decide (s.dirty = false ∧
        s.heads.get? "agent/a" ≠ (s.reduce true).heads.get? "agent/a")) = some true →
        ∃ s : Store, identities.run (({} : Store).reduce true) labels = some s ∧ s.dirty = false ∧
        ¬ s.Rebuilt := by
    intro labels h
    obtain ⟨s, hs, hc⟩ := map_eq_some_iff.mp h
    have hc := of_decide_eq_true hc
    exact ⟨s, hs, hc.1, fun hr => hc.2 (hr.1 "agent/a")⟩
  exact ⟨ht _ (by decide +kernel), ht _ (by decide +kernel)⟩

end Smalltalk.Identities
