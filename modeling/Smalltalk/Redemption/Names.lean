import Smalltalk.Fleet.Acceptance
import Smalltalk.Redemption.SingleUse

/-!
# One key for each name

The floor of a name is read well before the admission that carries it is appended. If it is
still the same then, and the node's own claims are sealed by then, nobody is a current member
under the name.
-/

namespace Smalltalk

open List Option Smalltalk.Membership

section
variable {m : Membership} {claim : FleetClaim} {name : String}

def Membership.Unnamed (name : String) (m : Membership) : Prop :=
  m.incarnations.getD name [] = [] ∧ m.legacyEnds[name]? = none

theorem subject_of_name (h : claim.name = some name) : claim.subject = "host/" ++ name := by
  obtain ⟨r, hr, rfl⟩ := map_eq_some_iff.mp h
  exact String.eq_append_of_dropPrefix?_string_eq_some hr

theorem Membership.Unnamed.updateIncarnation (h : m.Unnamed name) {name' key : String}
    {f : Incarnation → Incarnation} :
    (m.updateIncarnation name' key f).Unnamed name := by
  refine ⟨?_, h.2⟩
  have hn := h.1
  simp only [Membership.updateIncarnation, Std.ExtTreeMap.getD_modify, Std.compare_eq_iff_eq]
  split
  next heq =>
    subst heq
    rw [Std.ExtTreeMap.getD_eq_getD_getElem?] at hn
    cases hg : m.incarnations[name']? with
    | none => rfl
    | some all =>
      obtain rfl : all = [] := by simpa [hg] using hn
      rfl
  next => exact hn

theorem Membership.Unnamed.addIncarnation (h : m.Unnamed name) (hn : claim.name ≠ some name) :
    (m.addIncarnation claim).Unnamed name := by
  unfold Membership.addIncarnation
  split
  next name' key hn' _ =>
    refine ⟨?_, h.2⟩
    have hne : name' ≠ name := by
      rintro rfl
      exact hn hn'
    simp only [Std.ExtTreeMap.getD_insert, Std.compare_eq_iff_eq, hne, if_false]
    exact h.1
  next => exact h

theorem Membership.Unnamed.amend (h : m.Unnamed name) (hn : claim.name ≠ some name) :
    (m.amend claim).Unnamed name := by
  unfold Membership.amend
  split
  · exact h
  next name' hn' =>
    have hne : name' ≠ name := by
      rintro rfl
      exact hn hn'
    split
    · split
      · exact h
      · exact h.updateIncarnation
      · refine ⟨h.1, ?_⟩
        rw [Std.ExtTreeMap.getElem?_insert, if_neg (by simpa using hne)]
        exact h.2
    · split
      · split
        · exact h
        · exact h.updateIncarnation
      · exact h

theorem unnamed_foldl {f : Membership → FleetClaim → Membership}
    (hf : ∀ m claim, claim.name ≠ some name → m.Unnamed name → (f m claim).Unnamed name)
    (claims : List FleetClaim) (hl : ∀ claim ∈ claims, claim.name ≠ some name) :
    ∀ m : Membership, m.Unnamed name → (claims.foldl f m).Unnamed name := by
  induction claims with
  | nil => exact fun _ h => h
  | cons claim claims ih =>
    intro m h
    exact ih (fun c hc => hl c (mem_cons_of_mem _ hc)) _ (hf m claim (hl claim mem_cons_self) h)

/-- A name no claim is about is unknown to the fold. -/
theorem unnamed_fold (anchor : Option String) {claims : List FleetClaim}
    (hl : ∀ claim ∈ claims, claim.name ≠ some name) :
    (fold anchor claims).Unnamed name := by
  have hf : ∀ claim ∈ fleetClaims claims, claim.name ≠ some name := by
    intro claim hc
    rw [fleetClaims, mem_insertionSort] at hc
    exact hl claim (mem_filter.mp hc).1
  have he : ∀ anchor valid, Membership.Unnamed name { anchor, valid } :=
    fun _ _ => ⟨by simp, by simp⟩
  unfold fold
  cases anchor with
  | none => exact he _ _
  | some anchor =>
    refine unnamed_foldl (fun m claim hn h => h.amend hn) _ ?_ _
      (unnamed_foldl (fun m claim hn h => h.addIncarnation hn) _ ?_ _ (he _ _))
    · exact fun claim hc => hf claim (mem_filter.mp hc).1
    · exact fun claim hc => hf claim (mem_filter.mp (mem_filter.mp hc).1).1

end

namespace Redemption

/-- Whoever was a member under the name has ended at or below the floor, and so has what the node
holds of the writer, unless a node migrates with its history. -/
structure Free (m : Membership) (held : Option Nat) (name : String) (migrate : Bool) (floor : Nat) :
    Prop where
  ended : ∀ i ∈ m.incarnations.getD name [], ∃ e, i.end = some e ∧ e ≤ floor
  legacy : ∀ highWater, m.state name = .legacyRemoved highWater → highWater ≤ floor
  held : migrate = false → ∀ h, held = some h → h ≤ floor

section
variable {a : Option String} {claims : List FleetClaim} {held : Option Nat} {name : String}
    {w migrate : Bool}
  {floor : Option Nat}

theorem unnamed_of_not_claimed (h : claimed claims name = false) :
    (fold a claims).Unnamed name := by
  refine unnamed_fold a fun claim hc hn => ?_
  simp only [claimed, List.any_eq_false, decide_eq_true_eq] at h
  exact h claim hc (subject_of_name hn)

theorem ends_of_ended {all : List Incarnation} (h : all.filter (·.end.isNone) = []) :
    ∀ i ∈ all, ∃ e, i.end = some e := by
  intro i hi
  have hn := filter_eq_nil_iff.mp h i hi
  exact ne_none_iff_exists'.mp (by simpa using hn)

/-- An ended name has a last end, and its ends are below it. -/
theorem endedEnd_of_ended {m : Membership} {i : Incarnation} (hs : m.state name = .ended i) :
    ∃ last, endedEnd m name = some last ∧ ∀ i ∈ m.incarnations.getD name [], ∃ e, i.end = some e ∧
    e ≤ last := by
  have ht := state_says m name
  rw [hs] at ht
  obtain ⟨hne, hnil⟩ := ht
  have hn := ends_of_ended hnil
  obtain ⟨j, hj⟩ := exists_mem_of_ne_nil _ hne
  obtain ⟨e, he⟩ := hn j hj
  have hm : e ∈ (m.incarnations.getD name []).filterMap (·.end) := mem_filterMap.mpr ⟨j, hj, he⟩
  obtain ⟨last, hl⟩ : ∃ last, ((m.incarnations.getD name []).filterMap (·.end)).max? = some last :=
    ne_none_iff_exists'.mp fun hmax => by
      rw [max?_eq_none_iff.mp hmax] at hm
      cases hm
  refine ⟨last, by simp only [endedEnd, hs, hl], fun i hi => ?_⟩
  obtain ⟨e, he⟩ := hn i hi
  exact ⟨e, he, (max?_eq_some_iff.mp hl).2 e (mem_filterMap.mpr ⟨i, hi, he⟩)⟩

theorem free_of_endedEnd {m : Membership} (hstate : ∀ i, m.state name ≠ .current i)
    (hstate' : ∀ all, m.state name ≠ .conflicted all) {floor : Nat}
    (hf : ∀ l, endedEnd m name = some l → l ≤ floor)
    (hh : migrate = false → ∀ h, held = some h → h ≤ floor) : Free m held name migrate floor := by
  have ht := state_says m name
  cases hs : m.state name with
  | current i => exact absurd hs (hstate i)
  | conflicted all => exact absurd hs (hstate' all)
  | ended i =>
    obtain ⟨l, hl, hn⟩ := endedEnd_of_ended hs
    refine ⟨fun i hi => ?_, fun hw h => absurd (hs.symm.trans h) nofun, hh⟩
    obtain ⟨e, he, hle⟩ := hn i hi
    exact ⟨e, he, hle.trans (hf l hl)⟩
  | legacyRemoved hw =>
    rw [hs] at ht
    refine ⟨fun i hi => ?_, fun hw' h => ?_, hh⟩
    · rw [ht.1] at hi
      cases hi
    · rw [hs, MemberState.legacyRemoved.injEq] at h
      exact hf _ (by simp only [endedEnd, hs, h])
  | notMember =>
    rw [hs] at ht
    refine ⟨fun i hi => ?_, fun hw h => absurd (hs.symm.trans h) nofun, hh⟩
    rw [ht.1] at hi
    cases hi

theorem free_of_fleetNameFloor
    (h : fleetNameFloor (fold a claims) claims held name w migrate = .ok floor) :
    Free (fold a claims) held name migrate (floor.getD 0) := by
  have hc : ∀ i, (fold a claims).state name ≠ .current i := by
    intro i hs
    simp [fleetNameFloor, hs] at h
  have hn : ∀ all, (fold a claims).state name ≠ .conflicted all := by
    intro all hs
    simp [fleetNameFloor, hs] at h
  unfold fleetNameFloor at h
  split at h
  next i hs => exact absurd hs (hc i)
  next all hs => exact absurd hs (hn all)
  dsimp only at h
  split at h
  next hg =>
    split at h
    next => cases h
    next hnoEnd =>
      refine free_of_endedEnd hc hn (fun l hl => ?_) (fun hm => absurd hg (by simp [hm]))
      rw [hl] at hnoEnd
      exact absurd rfl hnoEnd
  next =>
    split at h
    next hu =>
      obtain ⟨hheld, hclaimed⟩ : held = none ∧ claimed claims name = false := by simpa using hu
      -- nothing is held, and no claim is about the name
      obtain ⟨hnil, hends⟩ : (fold a claims).Unnamed name := unnamed_of_not_claimed hclaimed
      refine ⟨fun i hi => ?_, fun hw hs => ?_, fun _ h hh => by rw [hheld] at hh; cases hh⟩
      · rw [hnil] at hi
        cases hi
      · have ht := state_says (fold a claims) name
        rw [hs, hends] at ht
        cases ht.2
    next =>
      split at h
      next => cases h
      next l hl =>
        split at h
        next => cases h
        next =>
          cases h
          refine free_of_endedEnd hc hn (fun l' hl' => ?_) (fun _ h hh => ?_)
          · rw [hl, Option.some.injEq] at hl'
            exact hl' ▸ le_max_right _ _
          · rw [hh]
            exact le_max_left _ _

end

/-- When an admission is appended, the node's claims are sealed, and the floor of the name is what
the request carries. -/
def freshNames (node : Node) (s : State) : Label → Bool
  | .advance i _ =>
    (s.threads[i]?).all fun t => match t.phase with
      | .redeemed _ _ floor _ =>
        (s.admitted.get? t.request.invite).isSome ||
          s.claims.all (fun c => c.writer ≠ node.origin || node.memberKey ∈ c.signers) &&
          match fleetNameFloor (s.membership node) s.claims
              (s.held.get? t.request.name) t.request.name
              t.request.wroteAsName t.request.migrate with
          | .ok current => current = floor
          | .error _ => false
      | _ => true
  | _ => true

def Admission.Free (node : Node) (a : Admission) : Prop :=
  Redemption.Free (fold node.anchor (sealClaims node a.claims)) a.held a.input.name a.input.migrate
    (a.input.writerFloor.getD 0)

theorem sealClaims_of_sealed {n : Node} {claims : List FleetClaim}
    (h : claims.all (fun c => c.writer ≠ n.origin || n.memberKey ∈ c.signers) = true) :
    sealClaims n claims = claims := by
  have hs : ∀ c ∈ claims, (if c.writer = n.origin then
      { c with signers := insert n.memberKey c.signers } else c) = c := by
    intro c hc
    have hg := List.all_eq_true.mp h c hc
    split
    next hw =>
      have hm : n.memberKey ∈ c.signers := by simpa [hw] using hg
      rw [Finset.insert_eq_of_mem hm]
    next => rfl
  rw [sealClaims, map_congr_left hs, List.map_id']

theorem Advances.admissions {n : Node} {s s' : State} {written : Written} {r : Request}
    {p p' : Phase} (h : Advances n s written r p s' p') :
    s'.admissions = s.admissions ∨ ∃ t createdBy floor f, p = .redeemed t createdBy floor f ∧
      s.admitted.get? r.invite = none ∧
      s'.admissions = ⟨r.invite, admissionInput r createdBy floor, s.claims, s.held.get? r.name⟩ ::
        s.admissions := by
  cases h with
  | append t createdBy floor f hn => exact .inr ⟨t, createdBy, floor, f, rfl, hn, rfl⟩
  | _ => exact .inl rfl

theorem machine_keeps_free (node : Node) :
    ((machine node).restrict (freshNames node)).Keeps (fun _ => True)
      (fun s => ∀ a ∈ s.admissions, a.Free node) := by
  intro s label s' _ h hs
  obtain ⟨hr, hs⟩ := Machine.step_of_restrict hs
  cases label with
  | advance i written =>
    obtain ⟨⟨r, phase⟩, ht, rfl⟩ := map_eq_some_iff.mp hs
    rcases (advance_cases node s written r phase).admissions
      with hm | ⟨token, createdBy, floor, first, rfl, hadmitted, hn⟩
    · exact fun a ha => h a (hm ▸ ha)
    · intro a ha
      replace ha := hn ▸ ha
      rcases mem_cons.mp ha with rfl | ha
      · simp only [freshNames, ht, all_some, hadmitted, isSome_none, Bool.false_or,
          Bool.and_eq_true] at hr
        obtain ⟨hl, hf⟩ := hr
        unfold Admission.Free
        rw [sealClaims_of_sealed hl]
        split at hf
        next current hc =>
          obtain rfl : current = floor := by simpa using hf
          exact free_of_fleetNameFloor hc
        next => cases hf
      · exact h a ha
  | abort i =>
    obtain ⟨t, -, rfl⟩ := map_eq_some_iff.mp hs
    exact h
  | create | sweep | request | crash | sealClaims | claim | envelope =>
    cases hs
    exact h

/-- In runs whose admissions are appended at a floor that is still current, no key is a current
member under the name, and the floor is at or above every end and sequence known of it. -/
theorem fresh_admissions_free (node : Node) (labels : List Label) (s : State)
    (h : ((machine node).restrict (freshNames node)).run State.initial labels = some s) :
    ∀ a ∈ s.admissions, a.Free node :=
  (machine_keeps_free node).run (fun _ _ => trivial) (fun _ ha => absurd ha not_mem_nil) h

def twoInvites : List Label :=
  [.claim (.admission "0a" "oak" "ko" "anchor" "oak" 1 "ko"), .create "i" 7 none false none,
    .create "j" 8 none false none, .request ⟨"i", "elm", "listening", "ke", false, false, 7⟩,
    .request ⟨"j", "elm", "listening", "kf", false, false, 8⟩]

def firstWritten : Written := ⟨"c1", 2⟩

def secondWritten : Written := ⟨"c2", 3⟩

def inTurn : List Label :=
  twoInvites ++ List.replicate 7 (.advance 0 firstWritten) ++ [.sealClaims] ++
    List.replicate 3 (.advance 1 secondWritten)

theorem inTurn_free :
    ∃ s, ((machine oak).restrict (freshNames oak)).run State.initial inTurn = some s ∧
    s.threads.map (·.phase) =
      [.answered (.admitted 7 none "c1" true), .answered (.refused "name-in-use")] ∧
    ∀ a ∈ s.admissions, a.Free oak := by
  have hr : (((machine oak).restrict (freshNames oak)).run State.initial inTurn).map
      (fun s => decide (s.threads.map (·.phase) =
      [.answered (.admitted 7 none "c1" true), .answered (.refused "name-in-use")])) =
        some true := by
    decide +kernel
  obtain ⟨s, hs, hp⟩ := map_eq_some_iff.mp hr
  exact ⟨s, hs, of_decide_eq_true hp, fresh_admissions_free oak inTurn s hs⟩

def atOnce : List Label :=
  twoInvites ++ [.sealClaims] ++ [0, 0, 0, 1, 1, 1].map (fun i => .advance i firstWritten) ++
    List.replicate 4 (.advance 0 firstWritten) ++ [.sealClaims] ++
      List.replicate 4 (.advance 1 secondWritten) ++ [.sealClaims]

def MemberState.conflictedKeys : MemberState → List String
  | .conflicted all => all.map (·.memberKey)
  | _ => []

theorem two_keys_admitted :
    ((machine oak).run State.initial atOnce).map (fun s => (s.threads.map (·.phase),
        MemberState.conflictedKeys ((s.membership oak).state "elm"))) =
      some ([.answered (.admitted 7 none "c1" true), .answered (.admitted 8 none "c2" true)],
        ["ke", "kf"]) := by
  decide +kernel

end Redemption

end Smalltalk
