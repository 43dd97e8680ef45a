import Smalltalk.Identities.Names

/-!
# What the naming claims reduce to

A head's canonical name is the end of a chain of edges that each won their target.
The keys of heads and names are decided by the held claims alone.
-/

namespace Smalltalk.Identities

open List Option Table

namespace Graph

variable {g : Graph}

/-! ## The passes end -/

theorem consider_cases (p : Progress) (fact : Fact) :
    g.consider p fact = p ∨ fact.id ∉ p.done ∧ (g.consider p fact).done = fact.id :: p.done := by
  unfold consider
  split
  · exact .inl rfl
  rename_i ho
  have ho : fact.id ∉ p.done := by simpa using ho
  split
  · exact .inr ⟨ho, rfl⟩
  split
  · exact .inl rfl
  split
  · exact .inl rfl
  · exact .inr ⟨ho, rfl⟩

theorem consider_done_subset (p : Progress) (fact : Fact) : p.done ⊆ (g.consider p fact).done := by
  rcases g.consider_cases p fact with hs | ⟨-, hd⟩
  · exact hs.symm ▸ fun _ h => h
  · rw [hd]
    exact subset_cons_self _ _

theorem foldl_done_subset (facts : List Fact) (p : Progress) :
    p.done ⊆ (facts.foldl g.consider p).done :=
  foldlRecOn (motive := fun q : Progress => p.done ⊆ q.done) _ _ (fun _ h => h)
    fun q hq other _ => List.Subset.trans hq (consider_done_subset q other)

theorem exists_done_of_advanced (facts : List Fact) :
    ∀ p : Progress, (facts.foldl g.consider p).advanced = true →
    p.advanced = true ∨ ∃ fact ∈ facts, fact.id ∉ p.done ∧
    fact.id ∈ (facts.foldl g.consider p).done := by
  induction facts with
  | nil => exact fun p h => .inl h
  | cons fact facts ih =>
    intro p h
    rcases ih _ h with ha | ⟨other, ht, ho, hd⟩
    · rcases g.consider_cases p fact with hs | ⟨ho, hd⟩
      · exact .inl (hs ▸ ha)
      · exact .inr ⟨fact, mem_cons_self, ho, foldl_done_subset facts _ (hd ▸ mem_cons_self)⟩
    · exact .inr ⟨other, mem_cons_of_mem _ ht, fun h => ho (consider_done_subset p fact h), hd⟩

def openFacts (g : Graph) (p : Progress) : List Fact := g.facts.filter (·.id ∉ p.done)

theorem openFacts_pass {p : Progress} (h : (g.pass p).advanced = true) :
    (g.openFacts (g.pass p)).length < (g.openFacts p).length := by
  rcases exists_done_of_advanced g.facts _ h with hf | ⟨fact, hm, hp, hd⟩
  · cases hf
  have hd : fact.id ∈ (g.pass p).done := hd
  have hl : g.openFacts (g.pass p) = (g.openFacts p).filter (·.id ∉ (g.pass p).done) := by
    rw [openFacts, openFacts, List.filter_filter]
    refine filter_congr fun other _ => ?_
    have hs : other.id ∈ p.done → other.id ∈ (g.pass p).done :=
      fun h => foldl_done_subset g.facts _ h
    by_cases ho : other.id ∈ (g.pass p).done <;> simp [ho]
    exact fun h => ho (hs h)
  rw [hl, length_filter_lt_length_iff_exists]
  exact ⟨fact, mem_filter.mpr ⟨hm, by simpa using hp⟩, by simpa using hd⟩

/-- With more turns than open facts, the passes end at one that advances nothing. -/
theorem passes_settle (f : Nat) :
    ∀ p : Progress, (g.openFacts p).length < f → (g.passes f p).advanced = false := by
  induction f with
  | zero => exact fun p h => absurd h (Nat.not_lt_zero _)
  | succ f ih =>
    intro p h
    unfold passes
    split
    · rename_i ha
      have := openFacts_pass ha
      exact ih _ (by omega)
    · rename_i ha
      simpa using ha

theorem passes_end (p : Progress) : (g.passes (g.facts.length + 1) p).advanced = false :=
  passes_settle _ p (Nat.lt_succ_of_le (length_filter_le _ _))

end Graph

namespace Store

section
variable {s t : Store}

/-! ## The facts -/

theorem mem_namings {r : String × Claim × IdentityKind} :
    r ∈ (namings s.claims) ↔ s.claims.get? r.1 = some r.2.1 ∧ r.2.1.kind.naming = some r.2.2 := by
  unfold namings
  rw [mem_mergeSort, mem_filterMap]
  constructor
  · rintro ⟨row, hr, h⟩
    obtain ⟨k, hk, rfl⟩ := map_eq_some_iff.mp h
    exact ⟨mem_rows.mp hr, hk⟩
  · rintro ⟨hc, hk⟩
    exact ⟨(r.1, r.2.1), mem_rows.mpr hc, by rw [hk]; rfl⟩

variable {fact : Fact} {id : String} {name : Name} {p : Progress}

theorem claim_of_mem_facts (h : fact ∈ s.graph.facts) :
    ∃ claim, s.claims.get? fact.id = some claim ∧
    claim.kind.naming = some fact.kind ∧
    claim.edge fact.kind = some (fact.source, fact.target, fact.declaration) ∧
    fact.identity = claim.subject ∧ fact.previous = claim.previousRevision ∧
    fact.origin = claim.origin ∧ fact.repaired = s.repaired fact.id ∧
    fact.operationConflict = claim.operation.any s.conflicts.contains := by
  obtain ⟨r, hr, h⟩ := mem_filterMap.mp h
  obtain ⟨edge, he, rfl⟩ := map_eq_some_iff.mp h
  obtain ⟨hc, hk⟩ := mem_namings.mp hr
  exact ⟨r.2.1, hc, hk, he, rfl, rfl, rfl, rfl, rfl⟩

variable {claim : Claim} {edge : String × String × String}

theorem mem_facts {k : IdentityKind}
    (hc : s.claims.get? id = some claim) (hk : claim.kind.naming = some k)
    (he : claim.edge k = some edge) :
    ∃ fact ∈ s.graph.facts, fact.id = id ∧ fact.source = edge.1 ∧ fact.target = edge.2.1 := by
  have hm : (id, claim, k) ∈ (namings s.claims) := mem_namings.mpr ⟨hc, hk⟩
  exact ⟨_, mem_filterMap.mpr ⟨(id, claim, k), hm, by rw [he]; rfl⟩, rfl, rfl, rfl⟩

theorem facts_unique {f second : Fact} (hf : f ∈ s.graph.facts) (hs : second ∈ s.graph.facts)
    (h : f.id = second.id) : f = second := by
  obtain ⟨claim, hc, hk, he, hi, hp, ho, hr, hconflict⟩ := claim_of_mem_facts hf
  obtain ⟨claim', hc', hk', he', hi', hp', ho', hr', hconflict'⟩ := claim_of_mem_facts hs
  rw [h, hc'] at hc
  obtain rfl := some.inj hc
  rw [hk'] at hk
  have hn := some.inj hk
  rw [← hn, he'] at he
  obtain ⟨hsource, ht, hd⟩ : _ ∧ _ ∧ _ := by simpa using he
  cases f
  cases second
  simp_all

theorem kind_of_edge {kind : IdentityKind}
    (h : claim.edge kind = some edge) : claim.source = some edge.1 ∧ claim.target = some edge.2.1 ∧
      IdentityKind.of claim.subject = some kind ∧ IdentityKind.of edge.1 = some kind ∧
      IdentityKind.of edge.2.1 = some kind := by
  unfold Claim.edge at h
  split at h
  · rename_i source target d hs ht _
    split at h
    · rename_i hk
      obtain rfl := some.inj h
      exact ⟨hs, ht, hk.1, hk.2.1, hk.2.2.1⟩
    · cases h
  · cases h

def Base (s : Store) (id : String) : Prop :=
  id ∈ (declared s.claims).map (·.1) ∨ ∃ r ∈ (namings s.claims), r.2.1.subject = id

theorem baseHeads_ne_none : (baseHeads s.claims).get? id ≠ none ↔ s.Base id := by
  have ha : ∀ (heads : Table String Head) (r : String × Claim × IdentityKind) (id : String),
      (let heads := heads.insert r.2.1.subject
        ⟨r.2.2, r.2.1.subject, none, some .pendingReplication⟩
       if (r.2.1.edge r.2.2).isSome then heads
       else heads.update r.2.1.subject fun head =>
        { head with blocked := some .conflict }).get? id ≠ none ↔
        heads.get? id ≠ none ∨ r.2.1.subject = id := by
    intro heads r id
    dsimp only
    split
    · rw [get?_insert_ne_none, eq_comm (a := id)]
    · rw [get?_update_ne_none, get?_insert_ne_none, eq_comm (a := id)]
  unfold baseHeads
  rw [foldl_ne_none ha, get?_putAll_ne_none, List.map_map]
  exact or_congr_left (or_iff_left fun h => h rfl)

theorem baseNames_ne_none : (baseNames s.claims).get? id ≠ none ↔ s.Base id := by
  have ha : ∀ (names : Table String Name) (r : String × Claim × IdentityKind) (id : String),
      (names.insert r.2.1.subject ⟨r.2.1.subject, none⟩).get? id ≠ none ↔
      names.get? id ≠ none ∨ r.2.1.subject = id := by
    intro names r id
    rw [get?_insert_ne_none, eq_comm (a := id)]
  unfold baseNames
  rw [foldl_ne_none ha, get?_putAll_ne_none, List.map_map]
  exact or_congr_left (or_iff_left fun h => h rfl)

theorem baseNames_eq (h : (baseNames s.claims).get? id = some name) : name = ⟨id, none⟩ := by
  revert id name
  refine foldlRecOn (motive := fun names : Table String Name =>
    ∀ {id name}, names.get? id = some name → name = ⟨id, none⟩) _ _ ?_ ?_
  · intro id name hg
    rw [get?_putAll] at hg
    rcases hr : ((declared s.claims).map fun r => (r.1, (⟨r.1, none⟩ : Name))).reverse.find?
      (·.1 = id) with _ | row
    · rw [hr] at hg
      cases hg
    · rw [hr] at hg
      obtain ⟨r, -, rfl⟩ := mem_map.mp (mem_reverse.mp (mem_of_find?_eq_some hr))
      have hi : r.1 = id := by simpa using find?_some hr
      obtain rfl := some.inj hg
      rw [← hi]
  · intro names hn r _ id name hg
    rcases of_get?_insert hg with hold | ⟨rfl, rfl⟩
    · exact hn hold
    · rfl

/-! ## The chains of edges -/

/-- An identity's revision and canonical name, after edges that won their targets. -/
inductive Chain (s : Store) (identity : String) : Option String → String → Prop
  | start : Chain s identity none identity
  | rename {fact : Fact} (before : Chain s identity fact.previous fact.source)
      (mem : fact ∈ s.graph.facts)
      (own : fact.identity = identity) (wins : s.graph.winners.get? fact.target = some fact.id) :
      Chain s identity (some fact.id) fact.target

def Chained (s : Store) (heads : Table String Head) : Prop :=
  ∀ identity head, heads.get? identity = some head → s.Chain identity head.revision head.canonical

theorem Chained.update {heads : Table String Head} (h : s.Chained heads) {identity : String}
    {f : Head → Head} (hf : ∀ head, heads.get? identity = some head →
      s.Chain identity (f head).revision (f head).canonical) :
    s.Chained (heads.update identity f) := by
  intro other head hg
  rw [get?_update] at hg
  by_cases ho : other = identity
  · rw [if_pos ho] at hg
    obtain ⟨old, hold, rfl⟩ := map_eq_some_iff.mp hg
    rw [ho]
    exact hf old hold
  · rw [if_neg ho] at hg
    exact h other head hg

theorem chained_baseHeads : s.Chained (baseHeads s.claims) := by
  refine foldlRecOn (motive := s.Chained) _ _ ?_ ?_
  · intro identity head hg
    rw [get?_putAll] at hg
    rcases hr :
      ((declared s.claims).map fun r => (r.1, (⟨r.2, r.1, none, none⟩ : Head))).reverse.find?
        (·.1 = identity) with _ | row
    · rw [hr] at hg
      cases hg
    · rw [hr] at hg
      obtain ⟨r, -, rfl⟩ := mem_map.mp (mem_reverse.mp (mem_of_find?_eq_some hr))
      have hd : r.1 = identity := by simpa using find?_some hr
      obtain rfl := some.inj hg
      rw [← hd]
      exact .start
  · intro heads hchained r _
    have hi :
        s.Chained (heads.insert r.2.1.subject ⟨r.2.2, r.2.1.subject, none,
          some .pendingReplication⟩) := by
      intro identity head hg
      rcases of_get?_insert hg with hold | ⟨rfl, rfl⟩
      · exact hchained identity head hold
      · exact .start
    dsimp only
    split
    · exact hi
    · exact hi.update fun head hh => hi _ head hh

/-- A fact whose turn it is extends its identity's chain, or leaves it. -/
theorem Chain.apply {head : Head} (h : s.Chain fact.identity head.revision head.canonical)
    (hm : fact ∈ s.graph.facts) (ht : fact.previous = head.revision) :
    s.Chain fact.identity (s.graph.apply head fact).revision
      (s.graph.apply head fact).canonical := by
  unfold Graph.apply
  cases hr : s.graph.refusal head fact with
  | some r => exact h
  | none =>
    unfold Graph.refusal at hr
    dsimp only at hr ⊢
    split at hr
    · cases hr
    · rename_i hc
      simp only [not_or, not_not] at hc
      split
      · exact h
      · refine .rename ?_ hm rfl hc.2.2.1
        rw [ht, hc.2.2.2.1]
        exact h

theorem Chained.consider (h : s.Chained p.heads) {fact : Fact} (hm : fact ∈ s.graph.facts) :
    s.Chained (s.graph.consider p fact).heads := by
  unfold Graph.consider
  split
  · exact h
  split
  · exact h
  split
  · exact h
  · rename_i head hh
    split
    · exact h
    · rename_i ht
      refine h.update fun old hold => ?_
      rw [hh] at hold
      obtain rfl := some.inj hold
      exact (h _ _ hh).apply hm (not_not.mp ht)

theorem Chained.pass (h : s.Chained p.heads) : s.Chained (s.graph.pass p).heads :=
  foldlRecOn (motive := fun p : Progress => s.Chained p.heads) _ _ h fun _ hp _ hf => hp.consider hf

theorem Chained.passes (h : s.Chained p.heads) (f : Nat) :
    s.Chained (s.graph.passes f p).heads := by
  induction f generalizing p with
  | zero => exact h
  | succ f ih =>
    unfold Graph.passes
    split
    · exact ih h.pass
    · exact h.pass

theorem chained_reducedHeads : s.Chained s.graph.heads := by
  refine foldlRecOn (motive := s.Chained) _ _ (chained_baseHeads.passes _) fun heads hh fact _ => ?_
  split
  · exact hh
  · refine hh.update fun head hheads => ?_
    split
    · exact hh _ head hheads
    · exact hh _ head hheads

/-! ## The keys of what is reduced -/

theorem consider_ne_none :
    (s.graph.consider p fact).heads.get? id ≠ none ↔ p.heads.get? id ≠ none := by
  unfold Graph.consider
  split
  · rfl
  split
  · rfl
  split
  · rfl
  split
  · rfl
  · exact get?_update_ne_none

theorem pass_ne_none : (s.graph.pass p).heads.get? id ≠ none ↔ p.heads.get? id ≠ none :=
  foldlRecOn (motive := fun q : Progress => q.heads.get? id ≠ none ↔
    p.heads.get? id ≠ none) _ _ Iff.rfl
    fun _ hq _ _ => consider_ne_none.trans hq

theorem passes_ne_none (f : Nat) :
    (s.graph.passes f p).heads.get? id ≠ none ↔ p.heads.get? id ≠ none := by
  induction f generalizing p with
  | zero => rfl
  | succ f ih =>
    unfold Graph.passes
    split
    · exact ih.trans pass_ne_none
    · exact pass_ne_none

theorem reducedHeads_ne_none : s.graph.heads.get? id ≠ none ↔ s.Base id := by
  have ha : ∀ (d : List String) (heads : Table String Head) (fact : Fact) (id : String),
      (if d.contains fact.id then heads
       else heads.update fact.identity fun head =>
        if head.blocked = none then
          { head with
            blocked := some (s.graph.waitsFor fact (s.graph.facts.length + 1) fact.previous []) }
        else head).get? id ≠ none ↔ heads.get? id ≠ none ∨ False := by
    intro d heads fact id
    rw [or_false]
    split
    · rfl
    · exact get?_update_ne_none
  unfold Graph.heads
  rw [foldl_ne_none (ha _), passes_ne_none]
  change ((baseHeads s.claims).get? id ≠ none ∨ _) ↔ _
  rw [baseHeads_ne_none]
  simp

/-! ## What the names are -/

theorem winners_target {target : String} (h : s.graph.winners.get? target = some id) :
    (baseNames s.claims).get? target = none ∧ ∃ fact ∈ s.graph.facts, fact.target = target ∧
    fact.id = id := by
  revert target id
  refine foldlRecOn (motive := fun winners : Table String String =>
    ∀ {target id}, winners.get? target = some id →
    (baseNames s.claims).get? target = none ∧ ∃ fact ∈ s.graph.facts, fact.target = target ∧
    fact.id = id) _ _ ?_ ?_
  · intro target id hg
    cases hg
  · intro winners hw fact hm target id hg
    split at hg
    · exact hw hg
    · rename_i hb
      rcases of_get?_insert hg with hold | ⟨rfl, rfl⟩
      · exact hw hold
      · have hn : (baseNames s.graph.claims).get? fact.target = none := by simpa using hb
        exact ⟨hn, fact, hm, rfl, rfl⟩

theorem exists_winner (hm : fact ∈ s.graph.facts)
    (hb : (baseNames s.claims).get? fact.target = none) :
    ∃ winner ∈ s.graph.facts, winner.target = fact.target ∧
    s.graph.winners.get? fact.target = some winner.id := by
  have ha : ∀ (winners : Table String String) (fact : Fact) (target : String),
      (if ((baseNames s.claims).get? fact.target).isSome then winners
        else winners.insert fact.target fact.id).get? target ≠ none ↔
        winners.get? target ≠ none ∨
        ((baseNames s.claims).get? fact.target = none ∧ target = fact.target) := by
    intro winners fact target
    cases hb : (baseNames s.claims).get? fact.target with
    | some name => simp
    | none => simp [get?_insert_ne_none]
  have hn : s.graph.winners.get? fact.target ≠ none := by
    unfold Graph.winners
    exact (foldl_ne_none ha _ _ _).mpr (.inr ⟨fact, hm, hb, rfl⟩)
  obtain ⟨id, hi⟩ := ne_none_iff_exists'.mp hn
  obtain ⟨-, winner, hw, ht, rfl⟩ := winners_target hi
  exact ⟨winner, hw, ht, hi⟩

def wonNames (s : Store) : Table String Name :=
  s.graph.facts.foldl (fun names fact =>
    if s.graph.winners.get? fact.target = some fact.id then
      names.put fact.target ⟨fact.identity, some fact.id⟩ else names)
    (baseNames s.claims)

inductive Origin (s : Store) (id : String) (name : Name) : Prop
  | base (h : (baseNames s.claims).get? id = some name)
  | target (fact : Fact) (mem : fact ∈ s.graph.facts) (named : fact.target = id)
      (is : name = ⟨fact.identity, some fact.id⟩)
  | source (fact : Fact) (mem : fact ∈ s.graph.facts) (named : fact.source = id)
      (is : name = ⟨fact.identity, some fact.id⟩)

theorem origin_of_reducedNames (h : s.graph.names.get? id = some name) : s.Origin id name := by
  revert id name
  refine foldlRecOn (motive := fun names : Table String Name =>
    ∀ {id name}, names.get? id = some name → s.Origin id name) _ _ ?_ ?_
  · refine foldlRecOn (motive := fun names : Table String Name =>
      ∀ {id name}, names.get? id = some name → s.Origin id name) _ _ (fun hb => .base hb) ?_
    intro names hn fact hm id name hg
    split at hg
    · rw [get?_put] at hg
      split at hg
      · rename_i hi
        exact .target fact hm hi.symm (some.inj hg).symm
      · exact hn hg
    · exact hn hg
  · intro names hn fact hm id name hg
    rcases of_get?_insert hg with hold | ⟨hi, hname⟩
    · exact hn hold
    · exact .source fact hm hi.symm hname.symm

/-- Reserving prior spellings takes no name away. -/
theorem reducedNames_of_won (h : s.wonNames.get? id = some name) :
    s.graph.names.get? id = some name := by
  refine foldlRecOn (motive := fun names : Table String Name => names.get? id = some name) _ _ h ?_
  intro names hn fact _
  rw [get?_insert]
  split
  · rename_i hi
    rw [← hi, hn]
    rfl
  · exact hn

theorem reducedNames_base (h : (baseNames s.claims).get? id = some name) :
    s.graph.names.get? id = some name := by
  refine reducedNames_of_won
    (foldlRecOn (motive := fun names : Table String Name => names.get? id = some name) _ _ h ?_)
  intro names hn fact _
  split
  · rename_i hw
    rw [get?_put, if_neg]
    · exact hn
    · rintro rfl
      rw [(winners_target hw).1] at h
      cases h
  · exact hn

theorem reducedNames_target (hm : fact ∈ s.graph.facts)
    (hw : s.graph.winners.get? fact.target = some fact.id) :
    s.graph.names.get? fact.target = some ⟨fact.identity, some fact.id⟩ := by
  have hl : ∀ (facts : List Fact) (names : Table String Name),
      (∀ other ∈ facts, other ∈ s.graph.facts) →
        (names.get? fact.target = some ⟨fact.identity, some fact.id⟩ ∨ fact ∈ facts) →
          (facts.foldl (fun names fact =>
          if s.graph.winners.get? fact.target = some fact.id then
            names.put fact.target ⟨fact.identity, some fact.id⟩
          else names) names).get? fact.target = some ⟨fact.identity, some fact.id⟩ := by
    intro facts
    induction facts with
    | nil => exact fun names _ hn => hn.resolve_right not_mem_nil
    | cons other facts ih =>
      intro names hf hn
      refine ih _ (fun other ho => hf other (mem_cons_of_mem _ ho)) ?_
      by_cases hs : other = fact
      · left
        rw [hs]
        dsimp only
        rw [if_pos hw, get?_put, if_pos rfl]
      · rcases hn with hn | hn
        · left
          dsimp only
          split
          · rename_i ho
            rw [get?_put, if_neg]
            · exact hn
            · intro ht
              rw [← ht, hw] at ho
              exact hs (facts_unique (hf other mem_cons_self) hm (some.inj ho).symm)
          · exact hn
        · exact .inr ((mem_cons.mp hn).resolve_left fun h => hs h.symm)
  exact reducedNames_of_won (hl s.graph.facts _ (fun _ hc => hc) (.inr hm))

def Named (s : Store) (id : String) : Prop :=
  s.Base id ∨ ∃ key claim kind edge, s.claims.get? key = some claim ∧
    claim.kind.naming = some kind ∧ claim.edge kind = some edge ∧ (edge.1 = id ∨ edge.2.1 = id)

theorem names_ne_none : s.graph.names.get? id ≠ none ↔ s.Named id := by
  constructor
  · intro hne
    obtain ⟨name, hn⟩ := ne_none_iff_exists'.mp hne
    cases origin_of_reducedNames hn with
    | base h => exact .inl (baseNames_ne_none.mp (by simp [h]))
    | target fact mem named is =>
      obtain ⟨claim, hc, hk, he, -⟩ := claim_of_mem_facts mem
      exact .inr ⟨_, claim, _, _, hc, hk, he, .inr named⟩
    | source fact mem named is =>
      obtain ⟨claim, hc, hk, he, -⟩ := claim_of_mem_facts mem
      exact .inr ⟨_, claim, _, _, hc, hk, he, .inl named⟩
  · rintro (hb | ⟨key, claim, kind, edge, hc, hk, he, hi⟩)
    · obtain ⟨name, hn⟩ := ne_none_iff_exists'.mp (baseNames_ne_none.mpr hb)
      simp [reducedNames_base hn]
    · obtain ⟨fact, hm, -, hs, ht⟩ := mem_facts hc hk he
      rcases hi with rfl | rfl
      · have ha : ∀ (names : Table String Name) (fact : Fact) (id : String),
            (names.insert fact.source ⟨fact.identity, some fact.id⟩).get? id ≠ none ↔
              names.get? id ≠ none ∨ fact.source = id := by
          intro names fact id
          rw [get?_insert_ne_none, eq_comm (a := id)]
        exact (foldl_ne_none ha _ _ _).mpr (.inr ⟨fact, hm, hs⟩)
      · rw [← ht]
        cases hb : (baseNames s.claims).get? fact.target with
        | some name => simp [reducedNames_base hb]
        | none =>
          obtain ⟨winner, hfacts, htarget, hw⟩ := exists_winner hm hb
          rw [← htarget] at hw ⊢
          simp [reducedNames_target hfacts hw]

end

end Store

end Smalltalk.Identities
