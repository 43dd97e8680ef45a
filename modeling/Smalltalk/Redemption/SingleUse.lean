import Smalltalk.Redemption.Step

/-!
# An invite admits once

A binding is written once. The admission claim of an invite is appended under one operation,
by requests that found the invite bound to them, so there is at most one.
-/

namespace Smalltalk.Redemption

open List Option Table Join.Invite

def BoundTo (invites : Table String Invite) (id key name : String) : Prop :=
  ∃ row, invites.get? id = some row ∧ row.boundKey = some key ∧ row.boundName = some name

variable {invites : Table String Invite} {id key name : String} {s' : State}

theorem BoundTo.unique {key' name' : String}
    (h : BoundTo invites id key name) (h' : BoundTo invites id key' name') :
    key = key' ∧ name = name' := by
  obtain ⟨row, hr, hk, hn⟩ := h
  obtain ⟨row', hr', hk', hn'⟩ := h'
  rw [hr, some.injEq] at hr'
  subst hr'
  rw [hk, some.injEq] at hk'
  rw [hn, some.injEq] at hn'
  exact ⟨hk', hn'⟩

theorem BoundTo.update (h : BoundTo invites id key name)
    (id' : String) {f : Invite → Invite}
    (hf : ∀ row, (f row).boundKey = row.boundKey ∧ (f row).boundName = row.boundName) :
    BoundTo (invites.update id' f) id key name := by
  obtain ⟨row, hr, hk, hn⟩ := h
  by_cases hi : id' = id
  · subst hi
    refine ⟨f row, ?_, (hf row).1.trans hk, (hf row).2.trans hn⟩
    rw [get?_update, if_pos rfl, hr, map_some]
  · refine ⟨row, ?_, hk, hn⟩
    rw [get?_update, if_neg (Ne.symm hi), hr]

/-- Binding one invite leaves every bound one alone. -/
theorem BoundTo.bind (h : BoundTo invites id key name)
    {request : Request} {f : Option Nat} (hu : (invites.get? request.invite).any unbound = true) :
    BoundTo (invites.update request.invite (bind request.memberKey request.name f)) id
      key name := by
  obtain ⟨row, hr, hk, hn⟩ := h
  have hi : id ≠ request.invite := by
    rintro rfl
    simp [hr, unbound, hk] at hu
  refine ⟨row, ?_, hk, hn⟩
  rw [get?_update, if_neg hi, hr]

def AdmittedAs (s : State) (request : Request) : Prop :=
  ∃ input claim, s.admitted.get? request.invite = some (input, claim) ∧
    input.memberKey = request.memberKey ∧ input.name = request.name

def Relies (s : State) (request : Request) : Phase → Prop
  | .admitting .. | .redeemed .. => BoundTo s.invites request.invite request.memberKey request.name
  | .appended .. | .answered (.admitted ..) => AdmittedAs s request
  | _ => True

structure Keeps (s s' : State) : Prop where
  bound : ∀ id key name, BoundTo s.invites id key name → BoundTo s'.invites id key name
  admitted : ∀ id v, s.admitted.get? id = some v → s'.admitted.get? id = some v

theorem Keeps.relies {s : State} (h : Keeps s s') {request : Request} {phase : Phase}
    (hr : Relies s request phase) :
    Relies s' request phase := by
  have ha : AdmittedAs s request → AdmittedAs s' request := fun ⟨i, claim, hg, hf⟩ =>
    ⟨i, claim, h.admitted _ _ hg, hf⟩
  cases phase with
  | admitting | redeemed => exact h.bound _ _ _ hr
  | appended => exact ha hr
  | answered answer =>
    cases answer with
    | admitted => exact ha hr
    | _ => trivial
  | _ => trivial

structure Consistent (s : State) : Prop where
  noted : ∀ id row claim, s.invites.get? id = some row → row.admittedClaim = some claim →
    ∃ v, s.admitted.get? id = some v
  bound : ∀ id v, s.admitted.get? id = some v → BoundTo s.invites id v.1.memberKey v.1.name
  recorded : ∀ a ∈ s.admissions, ∃ claim, s.admitted.get? a.invite = some (a.input, claim)
  known : ∀ id v, s.admitted.get? id = some v → ∃ a ∈ s.admissions, a.invite = id ∧ a.input = v.1
  once : (s.admissions.map (·.invite)).Nodup

theorem Consistent.of_eq {s : State} (h : Consistent s) (hi : s'.invites = s.invites)
    (hd : s'.admitted = s.admitted) (ha : s'.admissions = s.admissions) : Consistent s' := by
  obtain ⟨h1, h2, h3, h4, h5⟩ := h
  exact ⟨by rwa [hi, hd], by rwa [hi, hd], by rwa [ha, hd], by rwa [ha, hd], by rwa [ha]⟩

theorem Keeps.of_eq {s : State} (hi : s'.invites = s.invites) (ha : s'.admitted = s.admitted) :
    Keeps s s' :=
  ⟨fun _ _ _ h => hi ▸ h, fun _ _ h => ha ▸ h⟩

section
variable {s : State}

/-- A write to the rows that keeps bindings and notes no new admission. -/
theorem Consistent.rows (h : Consistent s) {invites : Table String Invite}
    (hb : ∀ id key name, BoundTo s.invites id key name → BoundTo invites id key name)
    (hn : ∀ id row claim, invites.get? id = some row → row.admittedClaim = some claim →
      ∃ v, s.admitted.get? id = some v) :
    Consistent { s with invites } where
  noted := hn
  bound id v hv := hb _ _ _ (h.bound id v hv)
  recorded := h.recorded
  known := h.known
  once := h.once

theorem Consistent.noted_update (h : Consistent s) (id' : String) {f : Invite → Invite}
    (hf : ∀ row, (f row).admittedClaim = row.admittedClaim) :
    ∀ id row claim, (s.invites.update id' f).get? id = some row → row.admittedClaim = some claim →
      ∃ v, s.admitted.get? id = some v := by
  intro id row claim hg hc
  rw [get?_update] at hg
  split at hg
  next heq =>
    obtain ⟨row', hr', rfl⟩ := map_eq_some_iff.mp hg
    exact h.noted id row' claim (heq ▸ hr') ((hf row').symm.trans hc)
  next => exact h.noted id row claim hg hc

theorem Consistent.update (h : Consistent s) (id : String) {f : Invite → Invite}
    (hf : ∀ row, (f row).boundKey = row.boundKey ∧ (f row).boundName = row.boundName ∧
      (f row).admittedClaim = row.admittedClaim) :
    Consistent { s with invites := s.invites.update id f } ∧
    Keeps s { s with invites := s.invites.update id f } := by
  have hn : ∀ id' key name, BoundTo s.invites id' key name →
      BoundTo (s.invites.update id f) id' key name :=
    fun id' key name hb => hb.update id fun row => ⟨(hf row).1, (hf row).2.1⟩
  exact ⟨h.rows hn (h.noted_update id fun row => (hf row).2.2), hn, fun _ _ hv => hv⟩

theorem Keeps.refl (s : State) : Keeps s s := ⟨fun _ _ _ h => h, fun _ _ h => h⟩

theorem relies_decideRow (h : Consistent s) (n : Node) (request : Request) (t : Nat) {row : Invite}
    (hr : s.invites.get? request.invite = some row) :
    Relies s request (decideRow n request t row) := by
  unfold decideRow
  split
  · trivial
  · trivial
  · split
    · trivial
    · split
      · trivial
      · split
        · trivial
        next bound hkey =>
          split
          · trivial
          next hs =>
            obtain ⟨rfl, hn⟩ : bound = request.memberKey ∧ row.boundName = some request.name := by
              simpa using hs
            have hb : BoundTo s.invites request.invite request.memberKey request.name :=
              ⟨row, hr, hkey, hn⟩
            split
            next claim hc =>
              obtain ⟨v, hv⟩ := h.noted _ row claim hr hc
              obtain ⟨hk, hn'⟩ := (h.bound _ v hv).unique hb
              exact ⟨v.1, v.2, hv, hk, hn'⟩
            next => exact hb

theorem Consistent.append (h : Consistent s) (n : Node) {request : Request}
    (hb' : BoundTo s.invites request.invite request.memberKey request.name)
    (hn : s.admitted.get? request.invite = none) (createdBy : Option String) (f : Option Nat)
    (written : Written) :
    Consistent (s.append n request.invite (admissionInput request createdBy f) written) ∧
      Keeps s (s.append n request.invite (admissionInput request createdBy f) written) ∧
      AdmittedAs (s.append n request.invite (admissionInput request createdBy f) written)
        request := by
  set input := admissionInput request createdBy f
  have hg : ∀ id v, (s.admitted.insert request.invite (input, written.id)).get? id = some v ↔
      s.admitted.get? id = some v ∨ id = request.invite ∧ v = (input, written.id) := by
    intro id v
    constructor
    · intro hv
      rcases of_get?_insert hv with hv | ⟨hi, hv⟩
      · exact .inl hv
      · exact .inr ⟨hi, hv.symm⟩
    · rintro (hv | ⟨rfl, rfl⟩)
      · have hi : id ≠ request.invite := by
          rintro rfl
          rw [hn] at hv
          cases hv
        rw [get?_insert, if_neg hi, hv]
      · rw [get?_insert, if_pos rfl, hn, getD_none]
  have hk : ∀ id v, s.admitted.get? id = some v →
      (s.admitted.insert request.invite (input, written.id)).get? id = some v :=
    fun id v hv => (hg id v).mpr (.inl hv)
  have hw : (s.admitted.insert request.invite (input, written.id)).get? request.invite =
      some (input, written.id) :=
    (hg _ _).mpr (.inr ⟨rfl, rfl⟩)
  refine ⟨⟨?_, ?_, ?_, ?_, ?_⟩, ⟨fun _ _ _ hb => hb, hk⟩, input, written.id, hw, rfl, rfl⟩
  · intro id row claim hr hc
    obtain ⟨v, hv⟩ := h.noted id row claim hr hc
    exact ⟨v, hk id v hv⟩
  · intro id v hv
    rcases (hg id v).mp hv with hv | ⟨rfl, rfl⟩
    · exact h.bound id v hv
    · exact hb'
  · rintro a (_ | ⟨_, ha⟩)
    · exact ⟨written.id, hw⟩
    · obtain ⟨claim, hc⟩ := h.recorded a ha
      exact ⟨claim, hk _ _ hc⟩
  · intro id v hv
    rcases (hg id v).mp hv with hv | ⟨rfl, rfl⟩
    · obtain ⟨a, ha, hi, hin⟩ := h.known id v hv
      exact ⟨a, mem_cons_of_mem _ ha, hi, hin⟩
    · exact ⟨_, mem_cons_self, rfl, rfl⟩
  · refine nodup_cons.mpr ⟨fun hm => ?_, h.once⟩
    obtain ⟨a, ha, hi⟩ := List.mem_map.mp hm
    obtain ⟨claim, hc⟩ := h.recorded a ha
    rw [hi, hn] at hc
    cases hc

theorem Advances.keeps {n : Node} {written : Written} {r : Request} {p phase' : Phase} {s' : State}
    (hs : Advances n s written r p s' phase') (h : Consistent s) (hr : Relies s r p) :
    Consistent s' ∧ Keeps s s' ∧ Relies s' r phase' := by
  cases hs with
  | read row t hw _ => exact ⟨h, .refl s, relies_decideRow h n r t hw⟩
  | count failures =>
    obtain ⟨hc, hk⟩ :=
      h.update r.invite (f := fun row => { row with failures := failures }) fun _ => ⟨rfl, rfl, rfl⟩
    exact ⟨hc, hk, trivial⟩
  | revoke failures _ =>
    obtain ⟨hc, hk⟩ := h.update r.invite (f := erase) fun _ => ⟨rfl, rfl, rfl⟩
    exact ⟨hc, hk, trivial⟩
  | bind t createdBy floor hu =>
    have hn : ∀ id key name, BoundTo s.invites id key name →
        BoundTo (s.invites.update r.invite (Join.Invite.bind r.memberKey r.name floor)) id key
          name := fun _ _ _ hb => hb.bind hu
    refine ⟨h.rows hn (h.noted_update r.invite fun _ => rfl), ⟨hn, fun _ _ hv => hv⟩, ?_⟩
    obtain ⟨row, hw⟩ : ∃ row, s.invites.get? r.invite = some row := by
      cases hg : s.invites.get? r.invite with
      | none => simp [hg] at hu
      | some row => exact ⟨row, rfl⟩
    refine ⟨Join.Invite.bind r.memberKey r.name floor row, ?_, rfl, rfl⟩
    rw [get?_update, if_pos rfl, hw, map_some]
  | redeem t createdBy floor first => exact ⟨h.of_eq rfl rfl rfl, .of_eq rfl rfl, hr⟩
  | redeemAgain | answered => exact ⟨h, .refl s, hr⟩
  | append t createdBy floor first hadmitted =>
    exact h.append n hr hadmitted createdBy floor written
  | appendAgain t createdBy floor first claim hm => exact ⟨h, .refl s, _, claim, hm, rfl, rfl⟩
  | note t floor claim first =>
    have hn : ∀ id key name, BoundTo s.invites id key name →
        BoundTo (s.invites.update r.invite ({ · with admittedClaim := some claim })) id key name :=
      fun _ _ _ hb => hb.update r.invite fun _ => ⟨rfl, rfl⟩
    refine ⟨h.rows hn ?_, ⟨hn, fun _ _ hv => hv⟩, hr⟩
    intro id row claim' hg hl
    rw [get?_update] at hg
    split at hg
    next heq =>
      obtain ⟨i, claim, ha, -⟩ := hr
      exact ⟨_, heq ▸ ha⟩
    next => exact h.noted id row claim' hg hl
  | _ => exact ⟨h, .refl s, trivial⟩

end

structure Invariant (s : State) : Prop where
  consistent : Consistent s
  threads : ∀ t ∈ s.threads, Relies s t.request t.phase

theorem consistent_initial : Consistent State.initial := by
  have hi : ∀ id, State.initial.invites.get? id = none := fun _ => rfl
  have hd : ∀ id, State.initial.admitted.get? id = none := fun _ => rfl
  refine ⟨?_, ?_, ?_, ?_, nodup_nil⟩
  · intro id row claim hg
    rw [hi] at hg
    cases hg
  · intro id v hg
    rw [hd] at hg
    cases hg
  · exact fun _ ha => absurd ha not_mem_nil
  · intro id v hg
    rw [hd] at hg
    cases hg

theorem invariant_initial : Invariant State.initial :=
  ⟨consistent_initial, fun _ ht => absurd ht not_mem_nil⟩

theorem Invariant.of_keeps {s s' : State} (h : Invariant s) (hc : Consistent s') (hk : Keeps s s')
    (hh : ∀ t ∈ s'.threads, t ∈ s.threads ∨ Relies s' t.request t.phase) : Invariant s' := by
  refine ⟨hc, fun t ht => ?_⟩
  rcases hh t ht with ht | hr
  · exact hk.relies (h.threads t ht)
  · exact hr

theorem Invariant.create {s : State} (h : Invariant s) (id : String) (token : Nat)
    (name : Option String) (m : Bool) (createdBy : Option String) :
    Invariant { s with
      invites := s.invites.insert id (Join.newInvite token name m createdBy) } := by
  have hb : ∀ id' key name', BoundTo s.invites id' key name' →
      BoundTo (s.invites.insert id (Join.newInvite token name m createdBy)) id' key name' := by
    rintro id' key name' ⟨row, hr, hk, hn⟩
    refine ⟨row, ?_, hk, hn⟩
    rw [get?_insert]
    split
    next heq => rw [← heq, hr, getD_some]
    next => exact hr
  refine h.of_keeps (h.consistent.rows hb ?_) ⟨hb, fun _ _ hv => hv⟩ fun t ht => .inl ht
  intro id' row claim hg hc
  rcases of_get?_insert hg with hg | ⟨-, rfl⟩
  · exact h.consistent.noted id' row claim hg hc
  · cases hc

theorem relies_crashed {s : State} {r : Request} {p : Phase} (h : Relies s r p) :
    Relies s r p.crashed := by
  cases p with
  | answered answer => exact h
  | _ => trivial

theorem machine_keeps_invariant (node : Node) : (machine node).Keeps (fun _ => True) Invariant := by
  intro s label s' _ h hs
  cases label with
  | create id token name m createdBy =>
    cases hs
    exact h.create id token name m createdBy
  | sweep id =>
    cases hs
    obtain ⟨hc, hk⟩ := h.consistent.update id (f := erase) fun _ => ⟨rfl, rfl, rfl⟩
    exact h.of_keeps hc hk fun t ht => .inl ht
  | request request =>
    cases hs
    refine h.of_keeps (h.consistent.of_eq rfl rfl rfl) (.of_eq rfl rfl) fun t ht => ?_
    rcases mem_append.mp ht with ht | ht
    · exact .inl ht
    · rw [mem_singleton.mp ht]
      exact .inr trivial
  | advance i written =>
    obtain ⟨⟨r, phase⟩, ht, rfl⟩ := map_eq_some_iff.mp hs
    have ha := advance_cases node s written r phase
    generalize s.advance node written ⟨r, phase⟩ = next at ha ⊢
    obtain ⟨hc, hk, hr⟩ := ha.keeps h.consistent (h.threads _ (mem_of_getElem? ht))
    refine h.of_keeps (hc.of_eq rfl rfl rfl) ⟨hk.bound, hk.admitted⟩ fun t ht' => ?_
    rcases mem_or_eq_of_mem_set ht' with ht' | rfl
    · exact .inl ht'
    · exact .inr ((Keeps.of_eq rfl rfl).relies hr)
  | abort i =>
    obtain ⟨t, -, rfl⟩ := map_eq_some_iff.mp hs
    refine h.of_keeps (h.consistent.of_eq rfl rfl rfl) (.of_eq rfl rfl) fun t' ht' => ?_
    rcases mem_or_eq_of_mem_set ht' with ht' | rfl
    · exact .inl ht'
    · exact .inr trivial
  | crash =>
    cases hs
    refine h.of_keeps (h.consistent.of_eq rfl rfl rfl) (.of_eq rfl rfl) fun t' ht' => ?_
    obtain ⟨t, ht, rfl⟩ := List.mem_map.mp ht'
    exact .inr ((Keeps.of_eq rfl rfl).relies (relies_crashed (h.threads t ht)))
  | sealClaims | claim | envelope =>
    cases hs
    exact h.of_keeps (h.consistent.of_eq rfl rfl rfl) (.of_eq rfl rfl) fun t ht => .inl ht

def Thread.WasAdmitted (t : Thread) : Prop :=
  ∃ token floor claim first, t.phase = .answered (.admitted token floor claim first)

/-- However requests, crashes and arrivals interleave, an invite has at most one admission, and
every request answered as admitted has the key and the name of that one. -/
theorem invite_admits_once (node : Node) (labels : List Label) (s : State)
    (h : (machine node).run State.initial labels = some s) (id : String) :
    (s.admissions.filter (·.invite = id)).length ≤ 1 ∧ ∀ t ∈ s.threads, t.request.invite = id →
    t.WasAdmitted → ∃ a ∈ s.admissions, a.invite = id ∧ a.input.memberKey = t.request.memberKey ∧
    a.input.name = t.request.name := by
  have hi : Invariant s :=
    (machine_keeps_invariant node).run (fun _ _ => trivial) invariant_initial h
  constructor
  · have hn : ((s.admissions.filter (·.invite = id)).map (·.invite)).Nodup :=
      hi.consistent.once.sublist (filter_sublist.map _)
    have hl : ∀ x ∈ (s.admissions.filter (·.invite = id)).map (·.invite), x = id := by
      intro x hx
      obtain ⟨a, ha, rfl⟩ := List.mem_map.mp hx
      simpa using (mem_filter.mp ha).2
    rw [eq_replicate_of_mem hl, nodup_replicate, length_map] at hn
    exact hn
  · rintro t ht rfl ⟨token, floor, claim, first, hp⟩
    have hr := hi.threads t ht
    rw [hp] at hr
    obtain ⟨input, claim', hg, hk, hm⟩ := hr
    obtain ⟨a, ha, hd, hin⟩ := hi.consistent.known _ _ hg
    exact ⟨a, ha, hd, hin ▸ hk, hin ▸ hm⟩

def oak : Node :=
  ⟨"oak", some "ko", "ko",
    fun request token => if request.proof = token then .ok () else .error .proof⟩

def written : Written := ⟨"c1", 2⟩

def sampleLabels : List Label :=
  [.create "i" 7 none false none, .request ⟨"i", "elm", "listening", "ke", false, false, 7⟩,
    .request ⟨"i", "elm", "listening", "kf", false, false, 7⟩] ++
  [0, 0, 1, 1, 0, 1, 0, 1, 0, 0, 0].map fun i => .advance i written

theorem sampleLabels_admit_once : ∃ s, (machine oak).run State.initial sampleLabels = some s ∧
    s.threads.map (·.phase) =
      [.answered (.admitted 7 none "c1" true), .answered (.refused "bound-to-another-key")] ∧
    (s.admissions.filter (·.invite = "i")).length ≤ 1 ∧ ∀ t ∈ s.threads, t.request.invite = "i" →
      t.WasAdmitted → ∃ a ∈ s.admissions, a.invite = "i" ∧ a.input.memberKey = t.request.memberKey ∧
      a.input.name = t.request.name := by
  have hr : ((machine oak).run State.initial sampleLabels).map
      (fun s => decide (s.threads.map (·.phase) =
      [.answered (.admitted 7 none "c1" true), .answered (.refused "bound-to-another-key")])) =
        some true := by
    decide +kernel
  obtain ⟨s, hs, hp⟩ := map_eq_some_iff.mp hr
  exact ⟨s, hs, of_decide_eq_true hp, invite_admits_once oak sampleLabels s hs "i"⟩

end Smalltalk.Redemption
