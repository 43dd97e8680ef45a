import Smalltalk.Canonical.Order

/-!
# Document bindings

A version of a document is bound by the earliest claim that binds it, in whatever order
the claims arrive.
-/

namespace Smalltalk.Documents

open Canonical List Table Option

structure BindingClaim where
  id : Text
  name : Option Text
  hash : Option Text
  createdIndex : Nat
  deriving DecidableEq

structure Binding where
  bindingClaimId : Text
  bindingKey : List UInt8
  createdIndex : Nat
  deriving DecidableEq

inductive SelectError where
  | noName (id : Text)
  | noHash (id : Text)
  | invalidDocumentName
  | internal (error : KeyError)

/-- `doc/NAME`, without `@` or `..` and with no `/` at the end. -/
def validateDocumentName (name : Text) : Bool :=
  [100, 111, 99, 47] <+: name ∧ 4 < name.length ∧ 64 ∉ name ∧ ¬ [46, 46] <:+: name ∧
  name.getLast? ≠ some 47

section
variable (db : Db)

def selectReplicatedDocument (documents : Table (Text × Text) Binding) (claim : BindingClaim) :
    Except SelectError (Table (Text × Text) Binding) :=
  match claim.name, claim.hash with
  | none, _ => .error (.noName claim.id)
  | some _, none => .error (.noHash claim.id)
  | some name, some hash =>
    if validateDocumentName name = false then .error .invalidDocumentName
    else match claimKey db claim.id with
      | .error error => .error (.internal error)
      | .ok key =>
        let binding := ⟨claim.id, sortableKey key, claim.createdIndex⟩
        match documents.get? (name, hash) with
        | none => .ok (documents.insert (name, hash) binding)
        | some row => match claimKey db row.bindingClaimId with
          | .error error => .error (.internal error)
          | .ok previous =>
            .ok (if key.compare previous = .lt then
              documents.update (name, hash) fun _ => binding else documents)

/-- A claim that is refused leaves the table as it was. -/
def applyBindings (claims : List BindingClaim) : Table (Text × Text) Binding :=
  claims.foldl (fun documents claim =>
    (selectReplicatedDocument db documents claim).toOption.getD documents) ∅

def Binds (version : Text × Text) (claim : BindingClaim) : Prop :=
  claim.name = some version.1 ∧ claim.hash = some version.2 ∧ validateDocumentName version.1 = true

structure Earliest (claims : List BindingClaim) (version : Text × Text) (claim : BindingClaim)
    (key : ClaimKey) :
    Prop where
  mem : claim ∈ claims
  binds : Binds version claim
  key_eq : claimKey db claim.id = .ok key
  first : ∀ other ∈ claims, Binds version other → ∀ key', claimKey db other.id = .ok key' →
    (key.compare key').isLE

/-- The row is that of the earliest claim, and there is none for a version that no claim binds. -/
def BoundTo (claims : List BindingClaim) (version : Text × Text) : Option Binding → Prop
  | none => ∀ claim ∈ claims, ¬ Binds version claim
  | some row => ∃ claim key, Earliest db claims version claim key ∧
      row = ⟨claim.id, sortableKey key, claim.createdIndex⟩

end

instance : Std.TransCmp compareByte where
  eq_swap := (compareByte_swap _ _).symm
  isLE_trans := fun h hc => @Std.TransCmp.isLE_trans Nat compare _ _ _ _ h hc

theorem isLE_trans {a b c : ClaimKey} (h : (a.compare b).isLE) (hc : (b.compare c).isLE) :
    (a.compare c).isLE := by
  rw [← compare_sortableKey] at *
  exact @Std.TransCmp.isLE_trans _ (List.compareLex compareByte) _ _ _ _ h hc

theorem claimKey_id {db : Db} {id : Text} {key : ClaimKey} (h : claimKey db id = .ok key) :
    key.id = id := by
  unfold claimKey at h
  split at h
  · cases h
  · split at h
    · cases h
    · split at h
      · cases h
      · cases h
        rfl

variable {db : Db} {claims : List BindingClaim} {c : BindingClaim} {version : Text × Text}
    {row : Option Binding}
  {documents : Table (Text × Text) Binding} {key : ClaimKey}

theorem Binds.version_eq {other : Text × Text} (h : Binds version c) (ho : Binds other c) :
    version = other :=
  Prod.ext (Option.some.inj (h.1.symm.trans ho.1)) (Option.some.inj (h.2.1.symm.trans ho.2.1))

theorem Earliest.append {e : BindingClaim} (h : Earliest db claims version e key)
    (hn : Binds version c → ∀ key', claimKey db c.id = .ok key' → (key.compare key').isLE) :
    Earliest db (claims ++ [c]) version e key where
  mem := mem_append_left _ h.mem
  binds := h.binds
  key_eq := h.key_eq
  first := by
    intro other ho hb
    rcases mem_append.mp ho with ho | ho
    · exact h.first other ho hb
    · obtain rfl := mem_singleton.mp ho
      exact hn hb

theorem BoundTo.append (h : BoundTo db claims version row) (hn : ¬ Binds version c) :
    BoundTo db (claims ++ [c]) version row := by
  cases row with
  | none =>
    intro claim hm
    rcases mem_append.mp hm with hm | hm
    · exact h claim hm
    · rwa [mem_singleton.mp hm]
  | some row =>
    obtain ⟨e, key, he, hr⟩ := h
    exact ⟨e, key, he.append fun hb => absurd hb hn, hr⟩

theorem boundTo_new (hb : Binds version c) (hk : claimKey db c.id = .ok key)
    (h : ∀ other ∈ claims, Binds version other → ∀ key', claimKey db other.id = .ok key' →
      (key.compare key').isLE) :
    BoundTo db (claims ++ [c]) version (some ⟨c.id, sortableKey key, c.createdIndex⟩) := by
  refine ⟨c, key, ⟨mem_append_right _ mem_cons_self, hb, hk, fun other ho ht key' hk' => ?_⟩, rfl⟩
  rcases mem_append.mp ho with ho | ho
  · exact h other ho ht key' hk'
  · rw [mem_singleton.mp ho, hk] at hk'
    cases hk'
    rw [ClaimKey.compare_eq_eq.mpr rfl]
    rfl

theorem isLE_of_not_lt {a b : ClaimKey} (h : a.compare b ≠ .lt) : (b.compare a).isLE := by
  rw [← ClaimKey.compare_swap]
  cases hc : a.compare b <;> simp_all

theorem boundTo_select (h : ∀ version, BoundTo db claims version (documents.get? version))
    (hk : claimKey db c.id = .ok key) (version : Text × Text) : BoundTo db (claims ++ [c]) version
      (((selectReplicatedDocument db documents c).toOption.getD documents).get? version) := by
  by_cases hb : ∃ version, Binds version c
  · obtain ⟨bound, hb⟩ := hb
    have hn : version ≠ bound → ¬ Binds version c := fun hn h => hn (h.version_eq hb)
    have hold := h bound
    unfold selectReplicatedDocument
    simp only [hb.1, hb.2.1, hb.2.2, hk, Bool.true_eq_false, if_false, Prod.mk.eta]
    cases hg : documents.get? bound with
    | none =>
      rw [hg] at hold
      simp only [Except.toOption, getD_some]
      rw [get?_insert]
      split
      · rename_i he
        rw [he, hg]
        exact boundTo_new hb hk fun other ho ht => absurd ht (hold other ho)
      · rename_i he
        exact (h version).append (hn he)
    | some row =>
      rw [hg] at hold
      obtain ⟨e, p, he, rfl⟩ := hold
      simp only [he.key_eq]
      by_cases hl : key.compare p = .lt
      · simp only [if_pos hl, Except.toOption, getD_some]
        rw [get?_update]
        split
        · rename_i hv
          rw [hv, hg]
          exact boundTo_new hb hk fun other ho ht key' hk' =>
            isLE_trans (by rw [hl]; rfl) (he.first other ho ht key' hk')
        · rename_i hv
          exact (h version).append (hn hv)
      · simp only [if_neg hl, Except.toOption, getD_some]
        by_cases hv : version = bound
        · rw [hv, hg]
          refine ⟨e, p, he.append fun _ key' hk' => ?_, rfl⟩
          rw [hk] at hk'
          cases hk'
          exact isLE_of_not_lt hl
        · exact (h version).append (hn hv)
  · have hs : (selectReplicatedDocument db documents c).toOption.getD documents = documents := by
      unfold selectReplicatedDocument
      split
      · rfl
      · rfl
      · rename_i name hash hn hh
        rw [if_pos]
        · rfl
        · exact Bool.eq_false_iff.mpr fun hv => hb ⟨(name, hash), hn, hh, hv⟩
    rw [hs]
    exact (h version).append fun hv => hb ⟨version, hv⟩

theorem boundTo_applyBindings (hdb : db.Sound)
    (hs : ∀ c ∈ claims, ∃ row, db.claims.get? c.id = some row) (version : Text × Text) :
    BoundTo db claims version ((applyBindings db claims).get? version) := by
  induction claims using List.reverseRecOn generalizing version with
  | nil => exact nofun
  | append_singleton claims c ih =>
    obtain ⟨row, hr⟩ := hs c (mem_append_right _ mem_cons_self)
    obtain ⟨key, hk, -⟩ := claimKey_columns hdb hr
    rw [applyBindings, foldl_append]
    exact boundTo_select (ih fun c hc => hs c (mem_append_left _ hc)) hk version

/-- However the stored claims are ordered, a version ends with the binding of the earliest claim
that binds it, and there is one as soon as any claim binds it. -/
theorem bindings_order_independent (hdb : db.Sound) (claims : List BindingClaim)
    (hs : ∀ c ∈ claims, ∃ row, db.claims.get? c.id = some row)
    (hi : ∀ a ∈ claims, ∀ b ∈ claims, a.id = b.id → a = b) (version : Text × Text) :
    (∀ claim key, Earliest db claims version claim key → (applyBindings db claims).get? version =
      some ⟨claim.id, sortableKey key, claim.createdIndex⟩) ∧
    ((∃ claim ∈ claims, Binds version claim) → ∃ claim key, Earliest db claims version claim key) ∧
    ((∀ claim ∈ claims, ¬ Binds version claim) →
      (applyBindings db claims).get? version = none) := by
  have hb := boundTo_applyBindings hdb hs version
  cases hg : (applyBindings db claims).get? version with
  | none =>
    rw [hg] at hb
    exact ⟨fun c key he => absurd he.binds (hb c he.mem), fun ⟨c, hc, hv⟩ => absurd hv (hb c hc),
      fun _ => rfl⟩
  | some row =>
    rw [hg] at hb
    obtain ⟨e, p, he, rfl⟩ := hb
    refine ⟨fun c key hc => ?_, fun _ => ⟨e, p, he⟩, fun hn => absurd he.binds (hn e he.mem)⟩
    -- each of two earliest claims comes before the other
    have hle := he.first c hc.mem hc.binds key hc.key_eq
    have hge := hc.first e he.mem he.binds p he.key_eq
    rw [← ClaimKey.compare_swap] at hge
    have : p = key := ClaimKey.compare_eq_eq.mp (by cases hp : p.compare key <;> simp_all)
    subst this
    rw [hi c hc.mem e he.mem ((claimKey_id hc.key_eq).symm.trans (claimKey_id he.key_eq))]

/-- The claims a store applied: each is held, with the `store_index` of its row. -/
structure Applied (db : Db) (claims : List BindingClaim) : Prop where
  sound : db.Sound
  held : ∀ c ∈ claims, ∃ row, db.claims.get? c.id = some row ∧ c.createdIndex = row.storeIndex
  ids : ∀ a ∈ claims, ∀ b ∈ claims, a.id = b.id → a = b

theorem Applied.eq_of_index {a b : BindingClaim} (h : Applied db claims) (ha : a ∈ claims)
    (hb : b ∈ claims) (hi : a.createdIndex = b.createdIndex) : a = b := by
  obtain ⟨row, hr, hx⟩ := h.held a ha
  obtain ⟨other, ho, hy⟩ := h.held b hb
  have := inj_on_of_nodup_map h.sound.distinct (mem_rows.mpr hr) (mem_rows.mpr ho)
    (hx.symm.trans (hi.trans hy))
  exact h.ids a ha b hb (Prod.mk.inj this).1

theorem Applied.exists_earliest (h : Applied db claims) {row : Binding}
    (hr : (applyBindings db claims).get? version = some row) : ∃ claim key,
      Earliest db claims version claim key ∧
      row = ⟨claim.id, sortableKey key, claim.createdIndex⟩ := by
  have hb := boundTo_applyBindings h.sound (fun c hc => (h.held c hc).imp fun _ => And.left) version
  rwa [hr] at hb

def sampleBindings : List BindingClaim :=
  [⟨[99, 0], some [100, 111, 99, 47, 97], some [1], 1⟩,
    ⟨[99], some [100, 111, 99, 47, 97], some [1], 2⟩]

theorem sampleBindings_earliest :
    ∃ claim key, Earliest sampleDb sampleBindings ([100, 111, 99, 47, 97], [1]) claim key ∧
    (applyBindings sampleDb sampleBindings).get? ([100, 111, 99, 47, 97], [1]) =
      some ⟨claim.id, sortableKey key, claim.createdIndex⟩ := by
  have hs : ∀ c ∈ sampleBindings, ∃ row, sampleDb.claims.get? c.id = some row := by
    simp only [sampleBindings, forall_mem_cons]
    exact ⟨⟨_, rfl⟩, ⟨_, rfl⟩, forall_mem_nil _⟩
  obtain ⟨hb, hx, -⟩ :=
    bindings_order_independent sampleDb_sound sampleBindings hs (by decide)
      ([100, 111, 99, 47, 97], [1])
  obtain ⟨c, key, he⟩ := hx ⟨_, mem_cons_self, rfl, rfl, by decide⟩
  exact ⟨c, key, he, hb c key he⟩

end Smalltalk.Documents
