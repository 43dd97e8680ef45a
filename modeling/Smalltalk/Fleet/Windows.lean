import Smalltalk.Fleet.Membership

/-!
# Windows as a property of the counted claims

`Membership.build` read backwards: a key's window under a name starts at the first counted
admission of that key, and ends at the largest high water among the counted removals and
leaves of it.
-/

namespace Smalltalk

open List Incarnation Smalltalk.Membership

namespace FleetClaim

def admits (claim : FleetClaim) (name key : String) : Bool :=
  claim.kind = memberAdmitted ∧ claim.name = some name ∧ claim.text "member_key" = some key

def endsAt (claim : FleetClaim) (name key : String) : Option Nat :=
  if (claim.kind = memberRemoved ∨ claim.kind = memberLeft) ∧ claim.name = some name ∧
      claim.text "member_key" = some key then claim.number "high_water" else none

end FleetClaim

def EndReaches (counted : List FleetClaim) (name key : String) (sequence : Nat) : Prop :=
  (∀ claim ∈ counted, claim.endsAt name key = none) ∨
    ∃ claim ∈ counted, ∃ highWater, claim.endsAt name key = some highWater ∧ sequence ≤ highWater

/-- Among `counted`, in id order, the window of `key` under `name` holds `sequence`. -/
def WindowHolds (counted : List FleetClaim) (name key : String) (sequence : Nat) : Prop :=
  (∃ admission, counted.find? (·.admits name key) = some admission ∧ admission.start ≤ sequence) ∧
    EndReaches counted name key sequence

section
variable {m : Membership} {claim : FleetClaim} {name key : String}

def Membership.find (m : Membership) (name key : String) : Option Incarnation :=
  (m.incarnations.getD name []).find? (·.memberKey = key)

def Membership.DistinctKeys (m : Membership) : Prop :=
  ∀ name, ((m.incarnations.getD name []).map (·.memberKey)).Nodup

theorem mem_keysFor (h : m.DistinctKeys) {sequence : Nat} :
    key ∈ m.keysFor name sequence ↔ ∃ i, m.find name key = some i ∧ i.holds sequence := by
  unfold keysFor find
  have hn := h name
  simp only [mem_toFinset, mem_map, mem_filter]
  constructor
  · rintro ⟨i, ⟨hi, hs⟩, rfl⟩
    obtain ⟨j, hj⟩ : ∃ j, (m.incarnations.getD name []).find?
        (·.memberKey = i.memberKey) = some j :=
      Option.isSome_iff_exists.mp (find?_isSome.mpr ⟨i, hi, by simp⟩)
    have hk : j.memberKey = i.memberKey := by simpa using find?_some hj
    have : j = i := inj_on_of_nodup_map hn (mem_of_find?_eq_some hj) hi hk
    exact ⟨i, this ▸ hj, hs⟩
  · rintro ⟨i, hi, hs⟩
    exact ⟨i, ⟨mem_of_find?_eq_some hi, hs⟩, by simpa using find?_some hi⟩

variable {f : Incarnation → Incarnation}

section
variable (hf : ∀ i, (f i).memberKey = i.memberKey)
include hf

theorem map_key_updateKey
    (all : List Incarnation) : (updateKey key f all).map (·.memberKey) = all.map (·.memberKey) := by
  induction all with
  | nil => rfl
  | cons i all ih =>
    unfold updateKey
    split
    · simp [hf]
    · simp [ih]

theorem find?_updateKey (key' : String) (all : List Incarnation) :
    (updateKey key f all).find? (·.memberKey = key') =
      (all.find? (·.memberKey = key')).map (if key = key' then f else id) := by
  induction all with
  | nil => rfl
  | cons i all ih =>
    unfold updateKey
    by_cases hk : i.memberKey = key' <;> by_cases hi : i.memberKey = key <;> grind

theorem find_updateIncarnation (name' key' : String) :
    (m.updateIncarnation name key f).find name' key' =
      (m.find name' key').map (if name = name' ∧ key = key' then f else id) := by
  unfold find updateIncarnation
  simp only [Std.ExtTreeMap.getD_modify, Std.compare_eq_iff_eq]
  split
  · rename_i h
    subst h
    rw [Std.ExtTreeMap.getD_eq_getD_getElem?]
    cases m.incarnations[name]? with
    | none => simp
    | some all => simp [find?_updateKey hf]
  · rename_i h
    simp [h]

end

theorem distinctKeys_updateIncarnation (h : m.DistinctKeys)
    (hf : ∀ i, (f i).memberKey = i.memberKey) : (m.updateIncarnation name key f).DistinctKeys := by
  intro name'
  have hn := h name'
  unfold updateIncarnation
  simp only [Std.ExtTreeMap.getD_modify, Std.compare_eq_iff_eq]
  split
  · rename_i hname
    subst hname
    rw [Std.ExtTreeMap.getD_eq_getD_getElem?] at hn
    cases hm : m.incarnations[name]? with
    | none => simp
    | some all => simpa [hm, map_key_updateKey hf] using hn
  · exact hn

theorem find_addIncarnation (name' key' : String) : (m.addIncarnation claim).find name' key' =
      (m.find name' key').or (if claim.name = some name' ∧ claim.text "member_key" = some key' then
        some (.admitted claim name' key') else none) := by
  unfold addIncarnation
  split
  · rename_i name key hm hy
    simp only [find, Std.ExtTreeMap.getD_insert, Std.compare_eq_iff_eq, hm, hy, Option.some.injEq]
    by_cases hn : name = name'
    · subst hn
      by_cases hk : key = key'
      · subst hk
        cases hf : (m.incarnations.getD name []).find? (·.memberKey = key) with
        | none =>
          have : (m.incarnations.getD name []).any (·.memberKey = key) = false := by
            simpa using hf
          simp [this, hf, admitted]
        | some i =>
          have : (m.incarnations.getD name []).any (·.memberKey = key) = true :=
            any_eq_true.mpr ⟨i, mem_of_find?_eq_some hf, by simpa using find?_some hf⟩
          simp [this, hf]
      · simp only [if_true, true_and, hk, if_false]
        split
        · simp
        · simp [admitted, hk]
    · simp [hn]
  · rename_i h
    rw [if_neg fun ⟨h₁, h₂⟩ => h _ _ h₁ h₂, Option.or_none]

theorem distinctKeys_addIncarnation (h : m.DistinctKeys) :
    (m.addIncarnation claim).DistinctKeys := by
  intro name'
  have hn := h name'
  unfold addIncarnation
  split
  · rename_i name key hm hk
    simp only [Std.ExtTreeMap.getD_insert, Std.compare_eq_iff_eq]
    split
    · rename_i hm
      subst hm
      split
      · exact hn
      · rename_i hw
        simp only [any_eq_true, decide_eq_true_eq, not_exists, not_and] at hw
        rw [map_append, nodup_append]
        refine ⟨hn, by simp, ?_⟩
        rintro _ hold _ hk rfl
        obtain ⟨i, hi, rfl⟩ := mem_map.mp hold
        exact hw i hi (by simpa [admitted] using hk)
    · exact hn
  · exact hn

section
variable (i : Incarnation)
include i

@[simp] theorem close_memberKey (hw : Nat) : (i.close claim hw).memberKey = i.memberKey := by
  unfold close; grind

@[simp] theorem close_start (hw : Nat) : (i.close claim hw).start = i.start := by
  unfold close; grind

@[simp] theorem close_end (hw : Nat) :
    (i.close claim hw).end = some (i.end.elim hw (max · hw)) := by
  unfold close; grind

@[simp] theorem listen_memberKey : (i.listen claim).memberKey = i.memberKey := by
  unfold Incarnation.listen; grind

@[simp] theorem listen_start : (i.listen claim).start = i.start := by
  unfold Incarnation.listen; grind

@[simp] theorem listen_end : (i.listen claim).end = i.end := by
  unfold Incarnation.listen; grind

end

theorem distinctKeys_amend (h : m.DistinctKeys) : (m.amend claim).DistinctKeys := by
  unfold amend
  split
  · exact h
  · split
    · split
      · exact h
      · exact distinctKeys_updateIncarnation h fun i => close_memberKey i _
      · exact h
    · split
      · split
        · exact h
        · exact distinctKeys_updateIncarnation h fun i => listen_memberKey i
      · exact h

def raiseEnd («end» highWater : Option Nat) : Option Nat :=
  match highWater with
  | none => «end»
  | some highWater => some («end».elim highWater (max · highWater))

def Incarnation.span (i : Incarnation) : Nat × Option Nat := (i.start, i.end)

@[simp] theorem raiseEnd_none («end» : Option Nat) : raiseEnd «end» none = «end» := rfl

theorem span_find_amend (name key : String) : ((m.amend claim).find name key).map (·.span) =
      (m.find name key).map fun i => (i.start, raiseEnd i.end (claim.endsAt name key)) := by
  unfold amend
  cases hn : claim.name with
  | none => simp [FleetClaim.endsAt, hn, Incarnation.span]
  | some name' =>
    simp only
    split
    · rename_i hkind
      cases hw : claim.number "high_water" with
      | none => simp [FleetClaim.endsAt, hw, Incarnation.span]
      | some hi =>
        cases hk : claim.text "member_key" with
        | none => simp [FleetClaim.endsAt, hk, find, Incarnation.span]
        | some key' =>
          simp only [find_updateIncarnation (fun i => close_memberKey i hi), Option.map_map]
          congr 1
          funext i
          by_cases h : name' = name ∧ key' = key
          · simp [FleetClaim.endsAt, hkind, hn, hk, hw, h, Incarnation.span, raiseEnd]
          · simp [FleetClaim.endsAt, hn, hk, h, Incarnation.span]
    · rename_i hkind
      have hnone : claim.endsAt name key = none := by simp [FleetClaim.endsAt, hkind]
      simp only [hnone, raiseEnd_none]
      split
      · split
        · rfl
        · rw [find_updateIncarnation listen_memberKey, Option.map_map]
          congr 1
          funext i
          simp only [Function.comp_apply]
          split <;> simp [Incarnation.span]
      · rfl

/-! ## The two passes -/

theorem find_foldl_addIncarnation (counted : List FleetClaim) (m : Membership) :
    ((counted.filter (·.kind = memberAdmitted)).foldl addIncarnation m).find name key =
      (m.find name key).or ((counted.find? (·.admits name key)).map (.admitted · name key)) := by
  induction counted generalizing m with
  | nil => simp
  | cons c counted ih =>
    by_cases hk : c.kind = memberAdmitted
    · rw [filter_cons_of_pos (by simpa using hk), foldl_cons, ih, find_addIncarnation,
        Option.or_assoc]
      by_cases h : c.name = some name ∧ c.text "member_key" = some key
      · simp [h, FleetClaim.admits, hk]
      · simp [h, FleetClaim.admits, hk]
    · rw [filter_cons_of_neg (by simpa using hk), ih,
        find?_cons_of_neg (by simp [FleetClaim.admits, hk])]

def lastEnd (counted : List FleetClaim) (name key : String) : Option Nat → Option Nat :=
  counted.foldl fun «end» claim => raiseEnd «end» (claim.endsAt name key)

section
variable (counted : List FleetClaim)
include counted

theorem span_find_foldl_amend (m : Membership) :
    ((counted.foldl amend m).find name key).map (·.span) =
      (m.find name key).map fun i => (i.start, lastEnd counted name key i.end) := by
  induction counted generalizing m with
  | nil => rfl
  | cons c counted ih =>
    have step : ((m.amend c).find name key).map (·.span) = _ := span_find_amend name key
    rw [foldl_cons, ih]
    cases hm : m.find name key with
    | none => simp_all
    | some i =>
      rw [hm] at step
      obtain ⟨i', hi', hp⟩ := Option.map_eq_some_iff.mp step
      obtain ⟨hs, he⟩ := Prod.mk.inj hp
      rw [hi', Option.map_some, Option.map_some, hs, he]
      rfl

theorem all_lastEnd (s : Nat) («end» : Option Nat) : (lastEnd counted name key «end»).all (s ≤ ·) ↔
      («end» = none ∧ ∀ claim ∈ counted, claim.endsAt name key = none) ∨
      (∃ e, «end» = some e ∧ s ≤ e) ∨
      ∃ claim ∈ counted, ∃ h, claim.endsAt name key = some h ∧ s ≤ h := by
  induction counted generalizing «end» with
  | nil => cases «end» <;> simp [lastEnd]
  | cons c counted ih =>
    have : lastEnd (c :: counted) name key «end» =
      lastEnd counted name key (raiseEnd «end» (c.endsAt name key)) := rfl
    rw [this, ih]
    cases hc : c.endsAt name key with
    | none => simp [hc]
    | some h => cases «end» <;> simp [hc, raiseEnd, or_assoc]

theorem all_lastEnd_none (sequence : Nat) :
    (lastEnd counted name key none).all (sequence ≤ ·) ↔ EndReaches counted name key sequence := by
  rw [all_lastEnd, EndReaches]
  simp

end

theorem distinctKeys_build (a : String) (claims : List FleetClaim) (v : Finset String) :
    (build a claims v).DistinctKeys := by
  unfold build
  refine foldlRecOn _ _ (foldlRecOn _ _ ?_ fun _ h _ _ => distinctKeys_addIncarnation h)
    fun _ h _ _ => distinctKeys_amend h
  intro name
  simp

def countedIn (claims : List FleetClaim) (valid : Finset String) : List FleetClaim :=
  claims.filter (·.id ∈ valid)

theorem span_find_build (a : String) (claims : List FleetClaim) (v : Finset String) :
    ((build a claims v).find name key).map (·.span) =
      ((countedIn claims v).find? (·.admits name key)).map fun admission =>
        (admission.start, lastEnd (countedIn claims v) name key none) := by
  rw [build, span_find_foldl_amend, find_foldl_addIncarnation]
  simp [find, countedIn, admitted, Function.comp_def]

/-- A built membership's window holds a sequence exactly when the claims it counts say so. -/
theorem mem_keysFor_build {a : String} {claims : List FleetClaim} {v : Finset String}
    {sequence : Nat} :
    key ∈ (build a claims v).keysFor name sequence ↔
    WindowHolds (countedIn claims v) name key sequence := by
  have hp : ((build a claims v).find name key).map (·.span) = _ := span_find_build a claims v
  rw [mem_keysFor (distinctKeys_build a claims v), WindowHolds, ← all_lastEnd_none]
  constructor
  · rintro ⟨i, hi, hs⟩
    rw [hi] at hp
    obtain ⟨admission, ha, hp⟩ := Option.map_eq_some_iff.mp hp.symm
    obtain ⟨ht, hn⟩ := Prod.mk.inj hp
    simp only [holds, Bool.and_eq_true, decide_eq_true_eq] at hs
    exact ⟨⟨admission, ha, ht ▸ hs.1⟩, hn ▸ hs.2⟩
  · rintro ⟨⟨admission, ha, ht⟩, hn⟩
    rw [ha] at hp
    obtain ⟨i, hi, hi'⟩ := Option.map_eq_some_iff.mp hp
    obtain ⟨hs, he⟩ := Prod.mk.inj hi'
    refine ⟨i, hi, ?_⟩
    simp only [holds, Bool.and_eq_true, decide_eq_true_eq]
    exact ⟨hs ▸ ht, he ▸ hn⟩

end

end Smalltalk
