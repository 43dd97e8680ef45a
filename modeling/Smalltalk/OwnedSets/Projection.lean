import Smalltalk.Lib.Results
import Smalltalk.OwnedSets.Receipts

/-!
# Projecting owned sets

`project_tx` writes the rows of the effective members of every set whose selected revision
has no blockers. An ownership conflict blocks a revision only over the subjects it lists.
-/

namespace Smalltalk.OwnedSets

open List Table
open Option hiding or_assoc

open Retention (pointer)

structure DesiredRow where
  kind : String
  revision : String
  claimId : String
  body : Value
  member : Option MemberSpec
  ownerRun : Option String := none
  ownerGeneration : Option String := none
  ownerStep : Option String := none

structure MissionRow where
  revision : String
  state : String
  claimId : String

structure Projections where
  desired : Table String DesiredRow := ∅
  missionDefinitions : Table String MissionRow := ∅

def trimChars (pre : List Char) : Nat → List Char → List Char
  | 0, text => text
  | fuel + 1, text =>
    if pre.isPrefixOf text then trimChars pre fuel (text.drop pre.length) else text

/-- `trim_start_matches("mission/")`, which strips the prefix over and over. -/
def missionId (subject : String) : String :=
  String.ofList (trimChars "mission/".toList subject.toList.length subject.toList)

inductive Write where
  | desired (subject : String) (row : DesiredRow)
  | mission (subject : String) (row : MissionRow)

inductive RowKey where
  | desired (subject : String)
  | mission (id : String)
  deriving DecidableEq

def Write.subject : Write → String
  | .desired subject _ => subject
  | .mission subject _ => subject

def Write.key : Write → RowKey
  | .desired subject _ => .desired subject
  | .mission subject _ => .mission (missionId subject)

inductive Row where
  | desired (row : DesiredRow)
  | mission (row : MissionRow)

def Projections.rowAt (tables : Projections) : RowKey → Option Row
  | .desired subject => (tables.desired.get? subject).map .desired
  | .mission id => (tables.missionDefinitions.get? id).map .mission

def Write.apply (tables : Projections) : Write → Projections
  | .desired subject row => { tables with desired := tables.desired.put subject row }
  | .mission subject row =>
    { tables with missionDefinitions := tables.missionDefinitions.put (missionId subject) row }

section
variable (forms : Forms) (db : Db)

def projectedDeclaration (subject : String) (effective : Effective) : Except Error DesiredSubject :=
  if effective.implicit then forms.stopDeclaration subject
  else
    match (claim db effective.member.claim).bind fun row => forms.decodeDesired row.body with
    | some desired => .ok desired
    | none => .error ⟨"internal", "invalid declaration"⟩

def projectMember (subject : String) (effective : Effective) : Except Error (Option Write) :=
  let member := effective.member
  if member.kind = "mission" then
    match claim db member.claim with
    | none => .ok none
    | some row => .ok (some (.mission subject
        { revision := member.revision
          state :=
            if effective.retired then "retired"
            else ((pointer row.body ["state"]).bind Value.asStr).getD "draft"
          claimId := member.claim }))
  else do
    let desired ← projectedDeclaration forms db subject effective
    return some (.desired subject
      { kind := desired.kind, revision := member.revision, claimId := member.claim,
        body := desired.desired
        member := desired.member })

def projectView (view : View) : Except Error (List Write) := do
  let members ← effectiveMembers forms db view
  let writes ← (sortByKey members.rows).mapM fun r => projectMember forms db r.1 r.2
  return writes.reduceOption

/-- The writes of `project_tx`. A revision with blockers is passed over. -/
def projectWrites : Except Error (List Write) := do
  let writes ← ((selected forms db).filter (·.blockers = [])).mapM (projectView forms db)
  return writes.flatten

def projectTx (tables : Projections) : Except Error Projections := do
  return (← projectWrites forms db).foldl Write.apply tables

end

/-! ## Effective members -/

section
variable {forms : Forms} {db : Db}

variable {view : View} {views : List View} {set subject : String} {member : Member}

theorem better_eq_some {b : Option View} {v : View} (h : better b view = some v) :
    (v = view ∨ b = some v) ∧ view.key ≤ v.key ∧ ∀ old ∈ b, old.key ≤ v.key := by
  unfold better at h
  split at h
  · rename_i ha
    obtain rfl := some.inj h
    refine ⟨.inl rfl, le_rfl, fun old hold => ?_⟩
    rw [mem_def] at hold
    rw [hold] at ha
    exact le_of_lt (by simpa using ha)
  · rename_i ha
    rw [h] at ha
    refine ⟨.inr h, by simpa using ha, fun old hold => ?_⟩
    rw [h, mem_some_iff] at hold
    rw [hold]

theorem better_isSome (b : Option View) (view : View) : ∃ v, better b view = some v := by
  unfold better
  cases b with
  | none => exact ⟨view, rfl⟩
  | some old =>
    split
    · exact ⟨view, rfl⟩
    · exact ⟨old, rfl⟩

theorem foldl_better (l : List View) :
    ∀ {best : Option View} {view : View}, l.foldl better best = some view →
    (view ∈ l ∨ best = some view) ∧ (∀ v ∈ l, v.key ≤ view.key) ∧
    ∀ old ∈ best, old.key ≤ view.key := by
  induction l with
  | nil =>
    intro best view h
    rw [foldl_nil] at h
    exact ⟨.inr h, by simp, by simp [h]⟩
  | cons a l ih =>
    intro best view h
    rw [foldl_cons] at h
    obtain ⟨hm, hl, hs⟩ := ih h
    obtain ⟨b, hb⟩ := better_isSome best a
    obtain ⟨hf, ha, hold⟩ := better_eq_some hb
    have hle : b.key ≤ view.key := hs b hb
    refine ⟨?_, ?_, fun old hm => (hold old hm).trans hle⟩
    · rcases hm with hm | heq
      · exact .inl (mem_cons_of_mem _ hm)
      · rw [hb, some.injEq] at heq
        subst heq
        rcases hf with rfl | hs
        · exact .inl mem_cons_self
        · exact .inr hs
    · intro v hv
      rcases mem_cons.mp hv with rfl | hv
      · exact ha.trans hle
      · exact hl v hv

theorem mem_rows_of_winner (h : winner views set = some view) :
    view ∈ views ∧ view.id = set ∧ ∀ v ∈ views, v.id = set → v.key ≤ view.key := by
  obtain ⟨hm, hx, _⟩ := foldl_better _ h
  rcases hm with hm | hn
  · obtain ⟨hw, hs⟩ := mem_filter.mp hm
    refine ⟨hw, by simpa using hs, fun v hv hi => hx v (mem_filter.mpr ⟨hv, by simpa using hi⟩)⟩
  · cases hn

theorem mem_selected (h : view ∈ selected forms db) :
    ∃ base ∈ rows forms db, winner (rows forms db) view.id = some base ∧
      view = { base with blockers := blockersOf (rows forms db) forms db base } := by
  unfold selected at h
  obtain ⟨set, _, hs⟩ := mem_filterMap.mp h
  obtain ⟨base, hw, rfl⟩ := map_eq_some_iff.mp hs
  obtain ⟨hm, rfl, _⟩ := mem_rows_of_winner hw
  exact ⟨base, hm, hw, rfl⟩

theorem mem_ownersOf :
    set ∈ ownersOf views subject ↔ ∃ view ∈ views, view.id = set ∧ view.names subject = true := by
  rw [ownersOf, ← OrdSet.mem_def, OrdSet.mem_ofList, List.mem_map]
  constructor
  · rintro ⟨view, hv, rfl⟩
    obtain ⟨hm, hn⟩ := mem_filter.mp hv
    exact ⟨view, hm, rfl, hn⟩
  · rintro ⟨view, hm, rfl, hn⟩
    exact ⟨view, mem_filter.mpr ⟨hm, hn⟩, rfl⟩

theorem isSome_knownMembers :
    ((knownMembers views set).get? subject).isSome = true ↔
    ∃ view ∈ views, view.id = set ∧ view.names subject = true := by
  have hf : ∀ (l : List View) (members : Table String Member),
      (((l.foldl (fun members view =>
        (members.putAll view.receipt.members.rows).putAll view.receipt.retired.rows)
        members).get? subject).isSome = true ↔
        (members.get? subject).isSome = true ∨ ∃ view ∈ l, view.names subject = true) := by
    intro l
    induction l with
    | nil => simp
    | cons view l ih =>
      intro members
      rw [foldl_cons, ih, get?_putAll_rows, get?_putAll_rows]
      simp only [isSome_or, exists_mem_cons_iff, Bool.or_eq_true, ← or_assoc]
      apply or_congr_left
      simp only [View.names, decide_eq_true_eq]
      tauto
  have he : ((∅ : Table String Member).get? subject).isSome = false := rfl
  rw [knownMembers, hf, he]
  simp only [Bool.false_eq_true, false_or, mem_insertionSort, mem_filter,
    decide_eq_true_eq, and_assoc]

/-- The member a view has for a subject: as it lists it, or as a losing branch named it. -/
def namedMember (views : List View) (view : View) (subject : String) : Option Member :=
  ((view.receipt.retired.get? subject).or (view.receipt.members.get? subject)).or
    ((knownMembers views view.id).get? subject)

theorem owner_of_namedMember (hv : view ∈ views)
    (h : namedMember views view subject = some member) :
    view.id ∈ ownersOf views subject := by
  rw [mem_ownersOf]
  by_cases hn : view.names subject = true
  · exact ⟨view, hv, rfl, hn⟩
  · simp only [View.names, decide_eq_true_eq, not_or, Bool.not_eq_true, isSome_eq_false_iff,
      isNone_iff_eq_none] at hn
    rw [namedMember, hn.1, hn.2] at h
    exact isSome_knownMembers.mp (by rw [isSome_iff_exists]; exact ⟨member, h⟩)

variable {e : Effective} {writes : List Write}

theorem implicitMember_ok (h : implicitMember forms db view subject member = .ok e) :
    e.member.kind = member.kind ∧ (member.kind = "mission" → e.member = member) := by
  unfold implicitMember at h
  split at h
  · cases h
    exact ⟨rfl, fun _ => rfl⟩
  · rename_i hk
    obtain ⟨stop, _, h⟩ := except_bind_eq_ok.mp h
    cases h
    exact ⟨rfl, fun hm => absurd hm hk⟩

theorem oneShotRetirement_ok {stop : String}
    (h : oneShotRetirement forms db set subject member = .ok (some stop)) :
    (claim db member.claim).isSome = true ∧ (claim db stop).isSome = true := by
  unfold oneShotRetirement at h
  split at h
  · cases h
  · rename_i d hd
    split at h
    · cases h
    · split at h
      · cases h
      · rename_i l _
        obtain ⟨r, hr, rfl⟩ := map_eq_some_iff.mp (Except.ok.inj h)
        have hs := (mem_insertionSort _).mp (mem_of_head? hr)
        obtain ⟨hm, hc⟩ := mem_filter.mp hs
        simp only [decide_eq_true_eq] at hc
        exact ⟨by rw [hd]; rfl, by simp [claim, mem_rows.mp hm, hc.2.2.2.2.2.2.2]⟩

theorem listedMember_ok (h : listedMember forms db view subject member = .ok e) :
    e.member.kind = member.kind ∧
    (claim db e.member.claim).isSome = (claim db member.claim).isSome := by
  unfold listedMember at h
  obtain ⟨r, hr, h⟩ := except_bind_eq_ok.mp h
  cases r with
  | none =>
    cases h
    exact ⟨rfl, rfl⟩
  | some stop =>
    obtain ⟨d, _, h⟩ := except_bind_eq_ok.mp h
    cases h
    refine ⟨rfl, ?_⟩
    split at hr
    · obtain ⟨hm, hs⟩ := oneShotRetirement_ok hr
      rw [hm, hs]
    · cases hr

/-- Each effective member is of the kind of the member it comes from, and where it is a mission the
two refer to claims of the store alike. -/
theorem get?_effectiveMembers {members : Table String Effective}
    (h : effectiveMembers forms db view = .ok members) (subject : String) :
    match namedMember (rows forms db) view subject with
    | none => members.get? subject = none
    | some member => ∃ e, members.get? subject = some e ∧ e.member.kind = member.kind ∧
        (member.kind = "mission" →
          (claim db e.member.claim).isSome = (claim db member.claim).isSome) := by
  unfold effectiveMembers at h
  obtain ⟨i, hi, h⟩ := except_bind_eq_ok.mp h
  obtain ⟨l, hl, h⟩ := except_bind_eq_ok.mp h
  cases h
  have hb := nodup_sortByKey view.receipt.members.nodup
  have hs :
      (((sortByKey (knownMembers (rows forms db) view.id).rows).filter
        fun r => ¬ view.names r.1).map
      (·.1)).Nodup :=
        (nodup_sortByKey (knownMembers (rows forms db) view.id).nodup).sublist
          (filter_sublist.map _)
  simp only [get?_putAll_map]
  cases ht : view.receipt.retired.get? subject with
  | some member => simp [namedMember, ht, retiredMember]
  | none =>
    cases hm : view.receipt.members.get? subject with
    | some member =>
      obtain ⟨e, ho, hg⟩ :=
        get?_putAll_of_mem hb hl (Table.putAll ∅ i) (mem_sortByKey.mpr (mem_rows.mpr hm))
      obtain ⟨hn, hc⟩ := listedMember_ok ho
      simpa [namedMember, ht, hm, hg] using ⟨hn, fun _ => hc⟩
    | none =>
      have hnot : subject ∉ (sortByKey view.receipt.members.rows).map (·.1) := by
        intro hmem
        obtain ⟨r, hr, rfl⟩ := mem_map.mp hmem
        rw [mem_rows.mp (mem_sortByKey.mp hr)] at hm
        cases hm
      rw [get?_putAll_of_not_mem hl _ hnot]
      cases hk : (knownMembers (rows forms db) view.id).get? subject with
      | some member =>
        have hmem : (subject, member) ∈
            (sortByKey (knownMembers (rows forms db) view.id).rows).filter
            fun r => ¬ view.names r.1 := by
          refine mem_filter.mpr ⟨mem_sortByKey.mpr (mem_rows.mpr hk), ?_⟩
          simp [View.names, ht, hm]
        obtain ⟨e, ho, hg⟩ := get?_putAll_of_mem hs hi ∅ hmem
        obtain ⟨hn, hmember⟩ := implicitMember_ok ho
        simpa [namedMember, ht, hm, hk, hg] using ⟨hn, fun hkind => by rw [hmember hkind]⟩
      | none =>
        have hnoKey : subject ∉ ((sortByKey (knownMembers (rows forms db) view.id).rows).filter
            fun r => ¬ view.names r.1).map (·.1) := by
          intro hmem
          obtain ⟨r, hr, rfl⟩ := mem_map.mp hmem
          rw [mem_rows.mp (mem_sortByKey.mp (mem_filter.mp hr).1)] at hk
          cases hk
        rw [get?_putAll_of_not_mem hi _ hnoKey]
        simp [namedMember, ht, hm, hk]
        rfl

/-! ## Writes -/

def rowKey (subject kind : String) : RowKey :=
  if kind = "mission" then .mission (missionId subject) else .desired subject

theorem projectMember_ok {write : Option Write} (h : projectMember forms db subject e = .ok write) :
    match write with
    | none => e.member.kind = "mission" ∧ (claim db e.member.claim).isSome = false
    | some write => write.subject = subject ∧ write.key = rowKey subject e.member.kind ∧
        (e.member.kind = "mission" → (claim db e.member.claim).isSome = true) := by
  unfold projectMember at h
  by_cases hk : e.member.kind = "mission"
  · cases hc : claim db e.member.claim with
    | none =>
      simp only [hk, if_true, hc] at h
      cases h
      exact ⟨hk, rfl⟩
    | some row =>
      simp only [hk, if_true, hc] at h
      cases h
      exact ⟨rfl, by simp [rowKey, hk, Write.key], fun _ => rfl⟩
  · simp only [hk, if_false] at h
    obtain ⟨d, _, h⟩ := except_bind_eq_ok.mp h
    cases h
    exact ⟨rfl, by simp [rowKey, hk, Write.key], fun hm => absurd hm hk⟩

theorem mem_projectWrites (h : projectWrites forms db = .ok writes) {write : Write} :
    write ∈ writes ↔ ∃ view ∈ selected forms db, view.blockers = [] ∧
      ∃ members, effectiveMembers forms db view = .ok members ∧
      ∃ subject e, members.get? subject = some e ∧
      projectMember forms db subject e = .ok (some write) := by
  obtain ⟨projections, ht, h⟩ := except_bind_eq_ok.mp h
  cases h
  simp only [mem_flatten, mem_of_mapM_ok _ ht, mem_filter, decide_eq_true_eq]
  constructor
  · rintro ⟨p, ⟨view, ⟨hv, hb⟩, hp⟩, hw⟩
    obtain ⟨members, hm, hp⟩ := except_bind_eq_ok.mp hp
    obtain ⟨out, ho, hp⟩ := except_bind_eq_ok.mp hp
    cases hp
    rw [reduceOption_mem_iff, mem_of_mapM_ok _ ho] at hw
    obtain ⟨r, hr, hj⟩ := hw
    exact ⟨view, hv, hb, members, hm, r.1, r.2, mem_rows.mp (mem_sortByKey.mp hr), hj⟩
  · rintro ⟨view, hv, hb, members, hm, subject, e, hg, hj⟩
    obtain ⟨p, hp⟩ := exists_of_mapM_ok _ ht view (mem_filter.mpr ⟨hv, by simpa using hb⟩)
    refine ⟨p, ⟨view, ⟨hv, hb⟩, hp⟩, ?_⟩
    obtain ⟨members', hm', hp⟩ := except_bind_eq_ok.mp hp
    obtain ⟨out, ho, hp⟩ := except_bind_eq_ok.mp hp
    cases hp
    rw [hm] at hm'
    cases hm'
    rw [reduceOption_mem_iff, mem_of_mapM_ok _ ho]
    exact ⟨(subject, e), mem_sortByKey.mpr (mem_rows.mpr hg), hj⟩

/-- Every effective member of an unblocked set is projected. -/
theorem projectMember_of_ok (h : projectWrites forms db = .ok writes) {view : View}
    (hv : view ∈ selected forms db) (hb : view.blockers = []) :
    ∃ members, effectiveMembers forms db view = .ok members ∧
    ∀ subject e, members.get? subject = some e →
    ∃ write, projectMember forms db subject e = .ok write := by
  obtain ⟨projections, hr, _⟩ := except_bind_eq_ok.mp h
  obtain ⟨p, hp⟩ := exists_of_mapM_ok _ hr view (mem_filter.mpr ⟨hv, by simpa using hb⟩)
  obtain ⟨members, hm, hp⟩ := except_bind_eq_ok.mp hp
  obtain ⟨out, ho, _⟩ := except_bind_eq_ok.mp hp
  refine ⟨members, hm, fun subject e hg => ?_⟩
  exact exists_of_mapM_ok _ ho (subject, e) (mem_sortByKey.mpr (mem_rows.mpr hg))

theorem rowAt_apply_of_ne {tables : Projections} {write : Write} {key : RowKey}
    (h : write.key ≠ key) :
    (write.apply tables).rowAt key = tables.rowAt key := by
  cases write <;> cases key <;>
    simp_all [Write.apply, Write.key, Projections.rowAt, get?_put, eq_comm]

theorem rowAt_apply_key (tables : Projections) (write : Write) :
    ((write.apply tables).rowAt write.key).isSome = true := by
  cases write <;> simp [Write.apply, Write.key, Projections.rowAt, get?_put]

theorem rowAt_foldl_of_not (writes : List Write) (key : RowKey) : ∀ tables : Projections,
    (∀ write ∈ writes, write.key ≠ key) →
    (writes.foldl Write.apply tables).rowAt key = tables.rowAt key := by
  induction writes with
  | nil => intro tables _; rfl
  | cons write writes ih =>
    intro tables hn
    rw [foldl_cons, ih _ fun w hw => hn w (mem_cons_of_mem _ hw)]
    exact rowAt_apply_of_ne (hn write mem_cons_self)

theorem rowAt_foldl_isSome (writes : List Write) (key : RowKey) : ∀ tables : Projections,
    (∃ write ∈ writes, write.key = key) ∨ (tables.rowAt key).isSome = true →
      ((writes.foldl Write.apply tables).rowAt key).isSome = true := by
  induction writes with
  | nil => intro tables h; simpa using h
  | cons write writes ih =>
    intro tables h
    rw [foldl_cons]
    apply ih
    by_cases hk : write.key = key
    · exact .inr (hk ▸ rowAt_apply_key tables write)
    · rcases h with ⟨w, hw, hkey⟩ | hs
      · rcases mem_cons.mp hw with rfl | hw
        · exact absurd hkey hk
        · exact .inl ⟨w, hw, hkey⟩
      · right
        rwa [rowAt_apply_of_ne hk]

/-! ## Contested subjects -/

/-- The subject is named by receipts of more than one set. -/
def Contested (views : List View) (subject : String) : Prop := 1 < (ownersOf views subject).length

/-- The rows of a subject, of the kinds the receipts name it with. -/
def rowsOf (views : List View) (subject : String) : List RowKey :=
  views.flatMap fun view =>
    ([view.receipt.members, view.receipt.retired].filterMap (·.get? subject)).map
      fun member => rowKey subject member.kind

structure LeavesContestedAlone (forms : Forms) (db : Db) (writes : List Write) : Prop where
  owned : ∀ write ∈ writes, ∃ view ∈ selected forms db, view.blockers = [] ∧
    ownersOf (rows forms db) write.subject = [view.id]
  kept : ∀ subject, Contested (rows forms db) subject → ∀ tables tables' : Projections,
    projectTx forms db tables = .ok tables' →
      ∀ key ∈ rowsOf (rows forms db) subject, tables'.rowAt key = tables.rowAt key
  refused : ∀ subject, Contested (rows forms db) subject →
    ∃ error, owner (rows forms db) subject = .error error

/-- No unblocked set has a named subject whose row is the row of a contested subject. A mission
left over from a losing branch counts only while its claim is held. -/
def RowsApart (forms : Forms) (db : Db) : Prop :=
  ∀ view ∈ selected forms db, view.blockers = [] →
    ∀ subject member, namedMember (rows forms db) view subject = some member →
      (member.kind = "mission" → (claim db member.claim).isSome = true) →
        ∀ other, Contested (rows forms db) other →
          rowKey subject member.kind ∉ rowsOf (rows forms db) other

theorem owner_of_contested (h : Contested views subject) :
    ∃ error, owner views subject = .error error := ⟨_, if_pos h⟩

theorem ownersOf_eq_singleton (hs : set ∈ ownersOf views subject)
    (h : ¬ Contested views subject) : ownersOf views subject = [set] := by
  unfold Contested at h
  match hl : ownersOf views subject with
  | [] => rw [hl] at hs; cases hs
  | [a] => rw [hl, mem_singleton] at hs; rw [hs]
  | _ :: _ :: _ => rw [hl] at h; simp at h

theorem not_contested_of_owner (set : String)
    (h : ∀ view ∈ views, view.names subject = true → view.id = set) :
    ¬ Contested views subject := by
  have ho : ∀ owner ∈ ownersOf views subject, owner = set := by
    intro owner hw
    obtain ⟨view, hv, rfl, hm⟩ := mem_ownersOf.mp hw
    exact h view hv hm
  have hn : (ownersOf views subject).Nodup := OrdSet.nodup _
  unfold Contested
  match hl : ownersOf views subject with
  | [] => simp
  | [_] => simp
  | a :: b :: _ =>
    rw [hl] at ho hn
    have ha : a = b := (ho a (by simp)).trans (ho b (by simp)).symm
    simp [ha] at hn

theorem mem_rowsOf (hv : view ∈ views) (h : view.receipt.members.get? subject = some member ∨
    view.receipt.retired.get? subject = some member) :
    rowKey subject member.kind ∈ rowsOf views subject := by
  refine mem_flatMap.mpr ⟨view, hv, mem_map.mpr ⟨member, mem_filterMap.mpr ?_, rfl⟩⟩
  rcases h with h | h
  · exact ⟨_, mem_cons_self, h⟩
  · exact ⟨_, mem_cons_of_mem _ mem_cons_self, h⟩

theorem rowKey_of_known (h : (knownMembers views set).get? subject = some member) :
    rowKey subject member.kind ∈ rowsOf views subject := by
  have hf : ∀ (l : List View) (known : Table String Member), (∀ view ∈ l, view ∈ views) →
      (∀ m, known.get? subject = some m → rowKey subject m.kind ∈ rowsOf views subject) →
      ∀ m, (l.foldl (fun known view => (known.putAll view.receipt.members.rows).putAll
        view.receipt.retired.rows) known).get? subject = some m →
            rowKey subject m.kind ∈ rowsOf views subject := by
    intro l
    induction l with
    | nil => exact fun _ _ hk => hk
    | cons view l ih =>
      intro known hl hk
      refine ih _ (fun v hv => hl v (mem_cons_of_mem _ hv)) fun m hm => ?_
      have hv := hl view mem_cons_self
      rw [get?_putAll_rows, get?_putAll_rows, or_eq_some_iff, or_eq_some_iff] at hm
      rcases hm with hm | ⟨_, hm | ⟨_, hm⟩⟩
      · exact mem_rowsOf hv (.inr hm)
      · exact mem_rowsOf hv (.inl hm)
      · exact hk m hm
  exact hf _ ∅ (fun v hv => (mem_filter.mp ((mem_insertionSort _).mp hv)).1)
    (fun m hm => by cases hm) _ h

theorem rowKey_of_namedMember (hv : view ∈ views)
    (h : namedMember views view subject = some member) :
    rowKey subject member.kind ∈ rowsOf views subject := by
  unfold namedMember at h
  rw [or_eq_some_iff, or_eq_some_iff] at h
  rcases h with (h | ⟨_, h⟩) | ⟨_, h⟩
  · exact mem_rowsOf hv (.inr h)
  · exact mem_rowsOf hv (.inl h)
  · exact rowKey_of_known h

theorem projectTx_of_writes (h : projectWrites forms db = .ok writes) (tables : Projections) :
    projectTx forms db tables = .ok (writes.foldl Write.apply tables) := by
  rw [projectTx, h]
  rfl

/-- The writes of a projection, by the members they come from. -/
theorem exists_write_iff (h : projectWrites forms db = .ok writes) {subject : String}
    {key : RowKey} :
    (∃ write ∈ writes, write.subject = subject ∧ write.key = key) ↔
      ∃ view ∈ selected forms db, view.blockers = [] ∧
        ∃ member, namedMember (rows forms db) view subject = some member ∧
        (member.kind = "mission" → (claim db member.claim).isSome = true) ∧
        rowKey subject member.kind = key := by
  constructor
  · rintro ⟨write, hw, rfl, rfl⟩
    obtain ⟨view, hv, hb, members, hm, subject, e, hg, hr⟩ := (mem_projectWrites h).mp hw
    obtain ⟨hsubject, hy, hc⟩ := projectMember_ok hr
    have hn := get?_effectiveMembers hm subject
    rw [hsubject]
    cases hmember : namedMember (rows forms db) view subject with
    | none =>
      rw [hmember] at hn
      rw [hn] at hg
      cases hg
    | some member =>
      rw [hmember] at hn
      obtain ⟨e', hg', hk, hclaim⟩ := hn
      rw [hg] at hg'
      cases hg'
      refine ⟨view, hv, hb, member, hmember, fun hs => ?_, by rw [hy, hk]⟩
      rw [← hclaim hs]
      exact hc (hk.trans hs)
  · rintro ⟨view, hv, hb, member, hmember, hc, rfl⟩
    obtain ⟨members, hm, hr⟩ := projectMember_of_ok h hv hb
    have hn := get?_effectiveMembers hm subject
    rw [hmember] at hn
    obtain ⟨e, hg, hk, hclaim⟩ := hn
    obtain ⟨write, hw⟩ := hr subject e hg
    have hp := projectMember_ok hw
    cases write with
    | none =>
      have hs := hk.symm.trans hp.1
      have hclaim' := hc hs
      rw [← hclaim hs, hp.2] at hclaim'
      cases hclaim'
    | some write =>
      refine ⟨write, (mem_projectWrites h).mpr
        ⟨view, hv, hb, members, hm, subject, e, hg, hw⟩, hp.1, ?_⟩
      rw [hp.2.1, hk]

/-- A projection leaves contested subjects alone exactly when no unblocked set has a named
subject in their rows. -/
theorem leavesContestedAlone_iff {writes : List Write} (h : projectWrites forms db = .ok writes) :
    LeavesContestedAlone forms db writes ↔ RowsApart forms db := by
  constructor
  · intro halone view hv hb subject member hm hl other ht hk
    obtain ⟨write, hw, _, hkey⟩ := (exists_write_iff h).mpr ⟨view, hv, hb, member, hm, hl, rfl⟩
    -- over empty tables the row of the contested subject appears
    have hp := halone.kept other ht {} _ (projectTx_of_writes h {}) _ hk
    have hs := rowAt_foldl_isSome writes _ {} (.inl ⟨write, hw, hkey⟩)
    rw [hp] at hs
    have he (key : RowKey) : (({} : Projections).rowAt key).isSome = false := by cases key <;> rfl
    rw [he] at hs
    cases hs
  · intro ha
    refine ⟨?_, ?_, fun subject hc => owner_of_contested hc⟩
    · intro write hw
      obtain ⟨view, hv, hb, member, hm, hl, _⟩ := (exists_write_iff h).mp ⟨write, hw, rfl, rfl⟩
      obtain ⟨base, hforms, _, rfl⟩ := mem_selected hv
      have hn : namedMember (rows forms db) base write.subject = some member := hm
      have ho : base.id ∈ ownersOf (rows forms db) write.subject := owner_of_namedMember hforms hn
      refine ⟨_, hv, hb, ownersOf_eq_singleton ho fun hc => ?_⟩
      exact ha _ hv hb _ member hm hl _ hc (rowKey_of_namedMember hforms hn)
    · intro subject hc tables tables' ht key hk
      rw [projectTx_of_writes h tables] at ht
      cases ht
      apply rowAt_foldl_of_not
      intro write hw hkey
      obtain ⟨view, hv, hb, member, hm, hl, hr⟩ := (exists_write_iff h).mp ⟨write, hw, rfl, hkey⟩
      exact ha view hv hb _ member hm hl subject hc (hr ▸ hk)

end

def sampleReceipt (sequence : Nat) (digest : String) (members : List String) : Revision :=
  { previous := none
    source := { repository := "acme/graph", ref := "refs/heads/main", sha := "00", sequence }
    bundleDigest := digest
    members := (∅ : Table String Member).putAll
      (members.map fun subject => (subject, { kind := "agent", claim := "c1", revision := "r1" }))
    retired := ∅ }

/-- Set `a` names the agent in a revision that loses to one without it. Set `b`
names it too. -/
def sampleForms : Forms where
  decodeDesired _ := none
  decodeRevision
    | .string "a1" => some (sampleReceipt 1 "a1" ["agent/ada"])
    | .string "a2" => some (sampleReceipt 2 "a2" [])
    | .string "b1" => some (sampleReceipt 1 "b1" ["agent/ada"])
    | _ => none
  desiredRevision desired := desired.subject ++ " " ++ desired.kind
  revisionHash receipt := receipt.bundleDigest
  scheduleStopped _ := none
  stopDeclaration subject := .ok { subject, kind := "stop" }
  manual _ := false

def sampleClaims (receipts : List (String × String)) : Db :=
  { claims := (∅ : Table String ClaimRow).putAll (receipts.map fun r =>
      (r.1, { batchId := "b", subject := r.2, kind := revisedKind, origin := "n", actor := none
              body :=
                .object [("fields", .object [("revision", .string r.1), ("body", .string r.1)])]
              predecessors := [], acceptedAt := 0 })) }

theorem losing_branch_stops_contested_subject :
    (projectWrites sampleForms
      (sampleClaims [("a1", "owned-set/a"), ("a2", "owned-set/a"),
        ("b1", "owned-set/b")])).toOption.map (·.map Write.subject) = some ["agent/ada"] ∧
      ownersOf (rows sampleForms
        (sampleClaims [("a1", "owned-set/a"), ("a2", "owned-set/a"), ("b1", "owned-set/b")]))
        "agent/ada" = ["owned-set/a", "owned-set/b"] := by
  decide +kernel

theorem sole_set_projected :
    ∃ writes, projectWrites sampleForms
      (sampleClaims [("a1", "owned-set/a"), ("a2", "owned-set/a")]) = .ok writes ∧
      LeavesContestedAlone sampleForms (sampleClaims [("a1", "owned-set/a"), ("a2", "owned-set/a")])
        writes := by
  have hi : ∀ view ∈ rows sampleForms (sampleClaims [("a1", "owned-set/a"), ("a2", "owned-set/a")]),
      view.id = "owned-set/a" := by decide +kernel
  have ho :
      (projectWrites sampleForms
        (sampleClaims [("a1", "owned-set/a"), ("a2", "owned-set/a")])).isOk = true := by
    decide +kernel
  cases hw : projectWrites sampleForms
      (sampleClaims [("a1", "owned-set/a"), ("a2", "owned-set/a")]) with
  | error error =>
    rw [hw] at ho
    cases ho
  | ok writes =>
    refine ⟨writes, rfl, (leavesContestedAlone_iff hw).mpr ?_⟩
    intro view hv hb subject member hm hc other ht
    exact absurd ht (not_contested_of_owner _ fun view hv _ => hi view hv)

end Smalltalk.OwnedSets
