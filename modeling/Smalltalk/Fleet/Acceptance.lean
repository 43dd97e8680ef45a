import Smalltalk.Fleet.Windows

/-!
# Who may exchange

The replication worker accepts the sender of a message by a view of the membership: one
entry for each incarnation, labelled current, conflicted or ended. Over a folded membership
the labels say what `Membership.state` says.
-/

namespace Smalltalk

open List Option Smalltalk.Membership

inductive MemberLabel where
  | current
  | conflicted
  | ended
  deriving DecidableEq

structure MemberView where
  name : String
  memberKey : String
  label : MemberLabel
  mode : String
  endpoints : List Value
  start : Nat
  «end» : Option Nat
  ended : Option Ended
  removedBy : Option String
  removalReason : Option String

structure FleetView where
  anchor : Option String
  members : List MemberView
  legacyRemoved : List String

namespace FleetView

/-- An ended incarnation is labelled conflicted when its key is among the current ones. -/
def labelOf (state : MemberState) (incarnation : Incarnation) : MemberLabel :=
  let unended := if incarnation.end.isNone then MemberLabel.current else .ended
  match state with
  | .conflicted current =>
    if current.any (·.memberKey = incarnation.memberKey) then .conflicted else unended
  | _ => unended

def member (state : MemberState) (incarnation : Incarnation) : MemberView where
  name := incarnation.name
  memberKey := incarnation.memberKey
  label := labelOf state incarnation
  mode := incarnation.mode
  endpoints := incarnation.endpoints
  start := incarnation.start
  «end» := incarnation.end
  ended := incarnation.ended
  removedBy := incarnation.removedBy
  removalReason := incarnation.removalReason

def names (membership : Membership) : List String :=
  ((membership.incarnationList.map (·.name)).dedup).insertionSort (· ≤ ·)

def fromMembership (membership : Membership) : FleetView where
  anchor := membership.anchor
  members := (names membership).flatMap fun name =>
    (membership.incarnationList.filter (·.name = name)).map (member (membership.state name))
  legacyRemoved := membership.legacyEnds.keys.filter (· ∉ names membership)

def current (view : FleetView) (name : String) : List MemberView :=
  view.members.filter fun m => m.name = name ∧ m.label ≠ .ended

def endedKeys (view : FleetView) (name : String) : List MemberView :=
  view.members.filter fun m => m.name = name ∧ m.label = .ended

end FleetView

structure Sender where
  name : String
  memberKey : Option String
  memberSignatureValid : Bool

inductive Acceptance where
  | member
  | legacy
  deriving DecidableEq

structure Refusal where
  status : Nat
  code : String
  message : String
  memberKey : Option String
  deriving DecidableEq

/-- The refusal of a sender whose incarnation ended. -/
def endedRefusal (sender : Sender) (member : MemberView) : Refusal :=
  let left := member.ended = some .left
  let by' := member.removedBy.getD ""
  let reason := member.removalReason.getD ""
  let name := sender.name
  { status := 403
    code := if left then "member-left" else "member-removed"
    message :=
      if member.removedBy.isSome ∧ member.removalReason.isSome ∧ ¬ left then
        "`" ++ name ++ "` was removed from this fleet by " ++ by' ++ ": " ++ reason
      else "`" ++ name ++ "` is no longer a member of this fleet"
    memberKey := some member.memberKey }

/-- A message without a key is from the legacy incarnation, or from an old build of the ended
one. -/
def endedMatch (sender : Sender) (ended : List MemberView) : Option MemberView :=
  match sender.memberKey with
  | some key => ended.find? (·.memberKey = key)
  | none => ended.getLast?

def accept (view : FleetView) (sender : Sender) (configPeer legacy : Bool) :
    Except Refusal Acceptance :=
  match view.current sender.name with
  | _ :: _ :: _ =>
    .error ⟨409, "member-conflicted",
      "`" ++ sender.name ++ "` has more than one current member key", none⟩
  | [member] =>
    if sender.memberSignatureValid && sender.memberKey = some member.memberKey then .ok .member
    else if legacy && configPeer then .ok .legacy
    else .error ⟨401, "member-signature-required",
      "`" ++ sender.name ++ "` must sign with its member key", none⟩
  | [] =>
    let ended := view.endedKeys sender.name
    let removedLegacy := sender.name ∈ view.legacyRemoved
    match endedMatch sender ended with
    | some member => .error (endedRefusal sender member)
    | none =>
      if removedLegacy ∧ sender.memberKey.isNone then
        .error ⟨403, "member-removed", "`" ++ sender.name ++ "` was removed from this fleet", none⟩
      else if configPeer && legacy && ended.isEmpty && !removedLegacy then .ok .legacy
      else .error ⟨403, "not-a-member",
        "`" ++ sender.name ++ "` is not a member of this fleet", none⟩

/-! ## Folded memberships -/

def Membership.Named (m : Membership) : Prop :=
  ∀ name, ∀ i ∈ m.incarnations.getD name [], i.name = name

section
variable {m : Membership} {claim : FleetClaim} {name key : String}

variable {f : Incarnation → Incarnation}

theorem mem_updateKey {all : List Incarnation} {i : Incarnation}
    (h : i ∈ updateKey key f all) : i ∈ all ∨ ∃ j ∈ all, i = f j := by
  induction all with
  | nil => simp [updateKey] at h
  | cons j all ih =>
    unfold updateKey at h
    split at h
    · rcases mem_cons.mp h with rfl | h
      · exact .inr ⟨j, mem_cons_self, rfl⟩
      · exact .inl (mem_cons_of_mem _ h)
    · rcases mem_cons.mp h with rfl | h
      · exact .inl mem_cons_self
      · rcases ih h with h | ⟨k, hk, rfl⟩
        · exact .inl (mem_cons_of_mem _ h)
        · exact .inr ⟨k, mem_cons_of_mem _ hk, rfl⟩

theorem Membership.Named.updateIncarnation (h : m.Named)
    (hf : ∀ i, (f i).name = i.name) : (m.updateIncarnation name key f).Named := by
  intro name' i hi
  simp only [Membership.updateIncarnation, Std.ExtTreeMap.getD_modify, Std.compare_eq_iff_eq] at hi
  split at hi
  next heq =>
    subst heq
    have hn := h name
    rw [Std.ExtTreeMap.getD_eq_getD_getElem?] at hn
    cases hm : m.incarnations[name]? with
    | none => simp [hm] at hi
    | some all =>
      rw [hm, getD_some] at hn
      rw [hm, map_some, getD_some] at hi
      rcases mem_updateKey hi with hi | ⟨j, hj, rfl⟩
      · exact hn i hi
      · rw [hf, hn j hj]
  next => exact h name' i hi

theorem Membership.Named.addIncarnation (h : m.Named) : (m.addIncarnation claim).Named := by
  intro name' i hi
  unfold Membership.addIncarnation at hi
  split at hi
  next name key _ _ =>
    simp only [Std.ExtTreeMap.getD_insert, Std.compare_eq_iff_eq] at hi
    split at hi
    next heq =>
      subst heq
      split at hi
      · exact h name i hi
      · rcases mem_append.mp hi with hi | hi
        · exact h name i hi
        · rw [mem_singleton.mp hi]
          rfl
    next => exact h name' i hi
  next => exact h name' i hi

theorem close_name (i : Incarnation) (hw : Nat) : (i.close claim hw).name = i.name := by
  unfold Incarnation.close; grind

theorem listen_name (i : Incarnation) : (i.listen claim).name = i.name := by
  unfold Incarnation.listen; grind

theorem Membership.Named.amend (h : m.Named) : (m.amend claim).Named := by
  unfold Membership.amend
  split
  · exact h
  · split
    · split
      · exact h
      · exact h.updateIncarnation fun i => close_name i _
      · exact h
    · split
      · split
        · exact h
        · exact h.updateIncarnation fun i => listen_name i
      · exact h

theorem named_foldl {f : Membership → FleetClaim → Membership}
    (hf : ∀ m claim, m.Named → (f m claim).Named) (claims : List FleetClaim) :
    ∀ m : Membership, m.Named → (claims.foldl f m).Named := by
  induction claims with
  | nil => exact fun _ h => h
  | cons claim claims ih => exact fun m h => ih _ (hf m claim h)

theorem named_fold (anchor : Option String) (claims : List FleetClaim) :
    (fold anchor claims).Named := by
  have he : ∀ anchor valid, Membership.Named { anchor, valid } := by
    intro anchor valid name i hi
    simp at hi
  unfold fold
  cases anchor with
  | none => exact he _ _
  | some anchor =>
    refine named_foldl (fun m claim h => h.amend)
      _ _ (named_foldl (fun m claim h => h.addIncarnation) _ _ ?_)
    exact he _ _

end

/-! ## The view of a membership -/

section
variable {m : Membership}

theorem filter_flatMap_of_key {α β : Type*} [DecidableEq β] (key : α → β) (rows : List (β × List α))
    (hn : (rows.map (·.1)).Nodup) (hk : ∀ row ∈ rows, ∀ a ∈ row.2, key a = row.1) (b : β) :
    (rows.flatMap (·.2)).filter (key · = b) = ((rows.find? (·.1 = b)).map (·.2)).getD [] := by
  induction rows with
  | nil => rfl
  | cons row rows ih =>
    have hw := hk row mem_cons_self
    rw [map_cons, nodup_cons] at hn
    have hs := ih hn.2 fun r hr => hk r (mem_cons_of_mem _ hr)
    rw [flatMap_cons, filter_append, hs, find?_cons]
    by_cases hb : row.1 = b
    · have hl : row.2.filter (key · = b) = row.2 :=
        filter_eq_self.mpr fun a ha => by simpa [hb] using hw a ha
      have hrows : rows.find? (·.1 = b) = none := by
        rw [find?_eq_none]
        intro r hr
        simp only [decide_eq_true_eq]
        rintro rfl
        exact hn.1 (hb ▸ List.mem_map_of_mem hr)
      simp [hb, hl, hrows]
    · have hl : row.2.filter (key · = b) = [] :=
        filter_eq_nil_iff.mpr fun a ha => by simpa [hw a ha] using hb
      simp [hb, hl]

theorem values_eq_map_toList {α β : Type} {cmp : α → α → Ordering} [Std.TransCmp cmp]
    (t : Std.ExtTreeMap α β cmp) :
    t.values = t.toList.map (·.2) := by
  rcases t with ⟨⟨q⟩⟩
  induction q using Quotient.ind with
  | _ a =>
    change a.values = (Std.DTreeMap.Const.toList a).map (·.2)
    rw [Std.DTreeMap.values, Std.DTreeMap.Internal.Impl.values_eq_map_snd,
      Std.DTreeMap.Const.toList, Std.DTreeMap.Internal.Impl.Const.toList_eq_toListModel_map]
    simp

section
variable (h : m.Named)
include h

theorem Membership.Named.filter_name (name : String) :
    m.incarnationList.filter (·.name = name) = m.incarnations.getD name [] := by
  have hd : (m.incarnations.toList.map (·.1)).Nodup := by
    rw [Std.ExtTreeMap.map_fst_toList_eq_keys]
    exact Std.ExtTreeMap.nodup_keys
  have hk : ∀ row ∈ m.incarnations.toList, ∀ i ∈ row.2, i.name = row.1 := by
    rintro ⟨name', all⟩ hr i hi
    refine h name' i ?_
    rw [Std.ExtTreeMap.getD_eq_getD_getElem?, Std.ExtTreeMap.mem_toList_iff_getElem?_eq_some.mp hr]
    exact hi
  rw [incarnationList, values_eq_map_toList, ← flatMap_def, filter_flatMap_of_key _ _ hd hk,
    Std.ExtTreeMap.getD_eq_getD_getElem?]
  congr 1
  cases hg : m.incarnations[name]? with
  | none =>
    rw [map_eq_none_iff, find?_eq_none]
    rintro ⟨name', all⟩ hr
    simp only [decide_eq_true_eq]
    rintro rfl
    rw [Std.ExtTreeMap.mem_toList_iff_getElem?_eq_some, hg] at hr
    cases hr
  | some all =>
    have hm := Std.ExtTreeMap.mem_toList_iff_getElem?_eq_some.mpr hg
    obtain ⟨⟨name', all'⟩, hn⟩ : ∃ row, m.incarnations.toList.find? (·.1 = name) = some row :=
      isSome_iff_exists.mp (find?_isSome.mpr ⟨(name, all), hm, by simp⟩)
    obtain rfl : name' = name := by simpa using find?_some hn
    have hf := Std.ExtTreeMap.mem_toList_iff_getElem?_eq_some.mp (mem_of_find?_eq_some hn)
    rw [hg, Option.some.injEq] at hf
    rw [hn, map_some, hf]

theorem mem_names {name : String} :
    name ∈ FleetView.names m ↔ m.incarnations.getD name [] ≠ [] := by
  rw [FleetView.names, mem_insertionSort, mem_dedup, ← h.filter_name, ne_eq, filter_eq_nil_iff]
  simp [eq_comm]

theorem filter_members (name : String) :
    (FleetView.fromMembership m).members.filter (·.name = name) =
      (m.incarnations.getD name []).map (FleetView.member (m.state name)) := by
  let rows :=
    (FleetView.names m).map fun n =>
      (n, (m.incarnations.getD n []).map (FleetView.member (m.state n)))
  have hmembers : (FleetView.fromMembership m).members = rows.flatMap (·.2) := by
    simp only [FleetView.fromMembership, h.filter_name, rows, flatMap_map]
  have hd : (rows.map (·.1)).Nodup := by
    simp only [rows, List.map_map, Function.comp_def, List.map_id']
    exact (perm_insertionSort _ _).nodup_iff.mpr (nodup_dedup _)
  have hk : ∀ row ∈ rows, ∀ view ∈ row.2, view.name = row.1 := by
    intro row hr view hv
    obtain ⟨n, -, rfl⟩ := List.mem_map.mp hr
    obtain ⟨i, hi, rfl⟩ := List.mem_map.mp hv
    exact h n i hi
  rw [hmembers, filter_flatMap_of_key _ _ hd hk]
  by_cases hm : name ∈ FleetView.names m
  · have hf : rows.find? (·.1 = name) =
        some (name, (m.incarnations.getD name []).map (FleetView.member (m.state name))) := by
      simp only [rows, find?_map, Function.comp_def]
      have hnames : (FleetView.names m).find? (· = name) = some name := by
        obtain ⟨n, hn⟩ : ∃ n, (FleetView.names m).find? (· = name) = some n :=
          isSome_iff_exists.mp (find?_isSome.mpr ⟨name, hm, by simp⟩)
        obtain rfl : n = name := by simpa using find?_some hn
        exact hn
      rw [hnames, map_some]
    rw [hf, map_some, getD_some]
  · have hrows : rows.find? (·.1 = name) = none := by
      rw [find?_eq_none]
      intro row hr
      obtain ⟨n, hn, rfl⟩ := List.mem_map.mp hr
      simp only [decide_eq_true_eq]
      rintro rfl
      exact hm hn
    have he : m.incarnations.getD name [] = [] := by simpa [mem_names h] using hm
    rw [hrows, he]
    rfl

theorem current_fromMembership (name : String) : (FleetView.fromMembership m).current name =
      ((m.incarnations.getD name []).filter (FleetView.labelOf (m.state name) · ≠ .ended)).map
        (FleetView.member (m.state name)) := by
  have hf := congrArg (List.filter (·.label ≠ .ended)) (filter_members h name)
  rw [List.filter_filter, List.filter_map] at hf
  refine Eq.trans (filter_congr fun view _ => ?_) hf
  rw [Bool.decide_and, Bool.and_comm]

theorem endedKeys_fromMembership (name : String) : (FleetView.fromMembership m).endedKeys name =
      ((m.incarnations.getD name []).filter (FleetView.labelOf (m.state name) · = .ended)).map
        (FleetView.member (m.state name)) := by
  have hf := congrArg (List.filter (·.label = .ended)) (filter_members h name)
  rw [List.filter_filter, List.filter_map] at hf
  refine Eq.trans (filter_congr fun view _ => ?_) hf
  rw [Bool.decide_and, Bool.and_comm]

end

theorem latest_eq_none {all : List Incarnation} (h : latest all = none) : all = [] := by
  have hf : ∀ (all : List Incarnation) (b : Incarnation),
      (all.foldl (fun best i =>
        best.elim (some i) fun b => if b.start ≤ i.start then some i else some b)
        (some b)) ≠ none := by
    intro all
    induction all with
    | nil => exact fun b => some_ne_none b
    | cons i all ih =>
      intro b
      rw [foldl_cons, elim_some]
      split
      · exact ih i
      · exact ih b
  cases all with
  | nil => rfl
  | cons i all => exact absurd h (hf all i)

def MemberState.Says (all : List Incarnation) (legacyEnd : Option Nat) : MemberState → Prop
  | .current i => all.filter (·.end.isNone) = [i]
  | .conflicted unended => all.filter (·.end.isNone) = unended ∧ 2 ≤ unended.length
  | .ended _ => all ≠ [] ∧ all.filter (·.end.isNone) = []
  | .legacyRemoved h => all = [] ∧ legacyEnd = some h
  | .notMember => all = [] ∧ legacyEnd = none

theorem state_says (m : Membership) (name : String) :
    (m.state name).Says (m.incarnations.getD name []) m.legacyEnds[name]? := by
  cases hu : (m.incarnations.getD name []).filter (·.end.isNone) with
  | nil =>
    cases hl : latest (m.incarnations.getD name []) with
    | some i =>
      have hs : m.state name = .ended i := by simp only [state, hu, hl]
      rw [hs]
      refine ⟨fun he => ?_, hu⟩
      rw [he] at hl
      cases hl
    | none =>
      cases hg : m.legacyEnds[name]? with
      | some h =>
        have hs : m.state name = .legacyRemoved h := by simp only [state, hu, hl, hg]
        rw [hs]
        exact ⟨latest_eq_none hl, rfl⟩
      | none =>
        have hs : m.state name = .notMember := by simp only [state, hu, hl, hg]
        rw [hs]
        exact ⟨latest_eq_none hl, rfl⟩
  | cons i r =>
    cases r with
    | nil =>
      have hs : m.state name = .current i := by simp only [state, hu]
      rw [hs]
      exact hu
    | cons j r =>
      have hs : m.state name = .conflicted (i :: j :: r) := by simp only [state, hu]
      rw [hs]
      exact ⟨hu, by simp⟩

section
variable (h : m.Named) {name : String} (ht : ∀ all, m.state name ≠ .conflicted all)
include h ht

theorem current_of_not_conflicted : (FleetView.fromMembership m).current name =
      ((m.incarnations.getD name []).filter (·.end.isNone)).map
        (FleetView.member (m.state name)) := by
  rw [current_fromMembership h]
  congr 1
  refine filter_congr fun i _ => ?_
  unfold FleetView.labelOf
  cases hs : m.state name with
  | conflicted all => exact absurd hs (ht all)
  | _ => cases he : i.end <;> simp

theorem endedKeys_of_not_conflicted : (FleetView.fromMembership m).endedKeys name =
      ((m.incarnations.getD name []).filter (·.end.isSome)).map
        (FleetView.member (m.state name)) := by
  rw [endedKeys_fromMembership h]
  congr 1
  refine filter_congr fun i _ => ?_
  unfold FleetView.labelOf
  cases hs : m.state name with
  | conflicted all => exact absurd hs (ht all)
  | _ => cases he : i.end <;> simp

end

theorem two_le_current_of_conflicted (h : m.Named) {name : String} {all : List Incarnation}
    (hs : m.state name = .conflicted all) :
    2 ≤ ((FleetView.fromMembership m).current name).length := by
  obtain ⟨ha, hl⟩ : (m.incarnations.getD name []).filter (·.end.isNone) = all ∧ 2 ≤ all.length := by
    simpa only [hs, MemberState.Says] using state_says m name
  rw [current_fromMembership h, length_map, hs]
  refine hl.trans (ha ▸ (monotone_filter_right _ fun i hi => ?_).length_le)
  -- an unended incarnation is either conflicted or current
  simp only [FleetView.labelOf, hi, if_true, ne_eq, decide_not, Bool.not_eq_true',
    decide_eq_false_iff_not]
  split <;> nofun

variable {view : FleetView} {s : Sender}

theorem accept_current {member : MemberView} (hc : view.current s.name = [member])
    (configPeer l : Bool) :
    accept view s configPeer l = .ok .member ↔
    s.memberSignatureValid = true ∧ s.memberKey = some member.memberKey := by
  simp only [accept, hc]
  by_cases hl : s.memberSignatureValid = true ∧ s.memberKey = some member.memberKey
  · simp [hl]
  · rw [if_neg (by simpa using hl)]
    refine ⟨fun ha => ?_, fun hv => absurd hv hl⟩
    split at ha <;> cases ha

theorem accept_nil_ne_member (hc : view.current s.name = []) (configPeer l : Bool) :
    accept view s configPeer l ≠ .ok .member := by
  simp only [accept, hc]
  split
  · nofun
  · split
    · nofun
    · split <;> nofun

theorem accept_nil_of_gone (hc : view.current s.name = [])
    (hg : view.endedKeys s.name ≠ [] ∨ s.name ∈ view.legacyRemoved) (configPeer l : Bool) :
    ∃ refusal, accept view s configPeer l = .error refusal := by
  simp only [accept, hc]
  split
  · exact ⟨_, rfl⟩
  · split
    · exact ⟨_, rfl⟩
    · have hl : (configPeer && l && (view.endedKeys s.name).isEmpty &&
          !decide (s.name ∈ view.legacyRemoved)) = false := by
        rcases hg with h | h <;> simp [h]
      rw [hl]
      exact ⟨_, rfl⟩

theorem accept_conflicted (hc : 2 ≤ (view.current s.name).length) (configPeer legacy : Bool) :
    ∃ refusal, accept view s configPeer legacy = .error refusal ∧
    refusal.code = "member-conflicted" := by
  obtain ⟨a, rest, hr⟩ := exists_cons_of_length_pos (l := view.current s.name) (by omega)
  obtain ⟨b, rest, rfl⟩ :=
    exists_cons_of_length_pos (l := rest) (by rw [hr] at hc; exact Nat.le_of_succ_le_succ hc)
  refine ⟨⟨409, "member-conflicted", "`" ++ s.name ++ "` has more than one current member key",
    none⟩, ?_, rfl⟩
  simp only [accept, hr]

end

/-- Over the view of a folded membership a sender is a member exactly when the name is current
with the key that signed, nobody whose incarnations have ended, and never under a conflicted
name. -/
theorem accept_refines_membership (anchor : Option String) (claims : List FleetClaim)
    (sender : Sender) (configPeer legacy : Bool) :
    let m := fold anchor claims
    let view := FleetView.fromMembership m
    (accept view sender configPeer false = .ok .member ↔
      ∃ i, m.state sender.name = .current i ∧ sender.memberKey = some i.memberKey ∧
      sender.memberSignatureValid = true) ∧
    ((∃ i, m.state sender.name = .ended i) ∨ (∃ h, m.state sender.name = .legacyRemoved h) →
      ∃ refusal, accept view sender configPeer legacy = .error refusal) ∧
    ((∃ all, m.state sender.name = .conflicted all) →
      ∃ refusal, accept view sender configPeer legacy = .error refusal ∧
      refusal.code = "member-conflicted") := by
  intro m view
  have hn : m.Named := named_fold anchor claims
  have ht := state_says m sender.name
  refine ⟨?_, ?_, ?_⟩
  · cases hs : m.state sender.name with
    | current i =>
      rw [hs] at ht
      have hc : view.current sender.name = [FleetView.member (m.state sender.name) i] := by
        rw [current_of_not_conflicted hn (by simp [hs]), show _ = [i] from ht, map_singleton]
      rw [accept_current hc, and_comm]
      simp [FleetView.member]
    | conflicted all =>
      obtain ⟨refusal, hr, -⟩ :=
        accept_conflicted (two_le_current_of_conflicted hn hs) configPeer false
      simp [view, hr]
    | _ =>
      have hc : view.current sender.name = [] := by
        rw [current_of_not_conflicted hn (by simp [hs])]
        rw [hs] at ht
        first
          | rw [ht.2, map_nil]
          | rw [ht.1, filter_nil, map_nil]
      simp [accept_nil_ne_member hc]
  · rintro (⟨i, hs⟩ | ⟨h, hs⟩)
    · obtain ⟨hne, hl⟩ : m.incarnations.getD sender.name [] ≠ [] ∧
          (m.incarnations.getD sender.name []).filter (·.end.isNone) = [] := by rwa [hs] at ht
      refine accept_nil_of_gone ?_ (.inl ?_) configPeer legacy
      · rw [current_of_not_conflicted hn (by simp [hs]), hl, map_nil]
      · have ha : (m.incarnations.getD sender.name []).filter (·.end.isSome) =
            m.incarnations.getD sender.name [] := by
          rw [filter_eq_self]
          intro i hi
          simpa [isSome_iff_ne_none] using filter_eq_nil_iff.mp hl i hi
        rw [endedKeys_of_not_conflicted hn (by simp [hs]), ha, ne_eq, map_eq_nil_iff]
        exact hne
    · obtain ⟨hl, hg⟩ : m.incarnations.getD sender.name [] = [] ∧
          m.legacyEnds[sender.name]? = some h := by
        rwa [hs] at ht
      refine accept_nil_of_gone ?_ (.inr ?_) configPeer legacy
      · rw [current_of_not_conflicted hn (by simp [hs]), hl, filter_nil, map_nil]
      · simp only [view, FleetView.fromMembership, mem_filter, Std.ExtTreeMap.mem_keys,
          decide_eq_true_eq, mem_names hn, hl, ne_eq, not_true_eq_false,
          not_false_eq_true, and_true]
        rw [Std.ExtTreeMap.mem_iff_isSome_getElem?, hg]
        rfl
  · rintro ⟨all, ha⟩
    exact accept_conflicted (two_le_current_of_conflicted hn ha) configPeer legacy

def MemberState.currentKey : MemberState → Option String
  | .current i => some i.memberKey
  | _ => none

def MemberState.isEnded : MemberState → Bool
  | .ended _ => true
  | _ => false

theorem removedMember_refused :
    let view := FleetView.fromMembership (fold (some "ka") removedMember)
    accept view ⟨"b", some "kb", true⟩ true false = .ok .member ∧
      ∃ refusal, accept view ⟨"r", some "kr", true⟩ true true = .error refusal := by
  intro view
  refine ⟨(accept_refines_membership (some "ka") removedMember
    ⟨"b", some "kb", true⟩ true true).1.mpr ?_,
      (accept_refines_membership (some "ka") removedMember ⟨"r", some "kr", true⟩ true true).2.1
        (.inl ?_)⟩
  · have hk : ((fold (some "ka") removedMember).state "b").currentKey = some "kb" := by
      decide +kernel
    unfold MemberState.currentKey at hk
    split at hk
    next i hi => exact ⟨i, hi, hk.symm, rfl⟩
    next => cases hk
  · have he : ((fold (some "ka") removedMember).state "r").isEnded = true := by decide +kernel
    unfold MemberState.isEnded at he
    split at he
    next i hi => exact ⟨i, hi⟩
    next => cases he

end Smalltalk
