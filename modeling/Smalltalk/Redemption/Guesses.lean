import Smalltalk.Redemption.SingleUse

/-!
# Wrong proofs of one invite

The count of failures is read with the row and written back one higher. As long as no wrong
proof reads it while another has yet to write, every answer to a wrong proof stands for a count
of its own.
-/

namespace Smalltalk.Redemption

open List Option Table Phase Bool

def Phase.isFailing : Phase → Bool
  | .failing _ => true
  | _ => false

def Phase.failedProof : Phase → Bool
  | .answered answer => answer = .refused "proof"
  | _ => false

def Phase.pastRead : Phase → Bool
  | .failing _ => true
  | .failed _ => true
  | _ => false

def Phase.counted : Phase → Bool
  | .failed failures => failures < Join.FLEET_INVITE_FAILURE_LIMIT
  | phase => phase.failedProof

/-- No wrong proof reads the count of an invite while another has yet to write it. -/
def serialGuesses (node : Node) (s : State) : Label → Bool
  | .advance i written =>
    (s.threads[i]?).all fun t => !(s.advance node written t).2.isFailing ||
      s.threads.all fun other => !(other.request.invite = t.request.invite && other.phase.isFailing)
  | _ => true

def about (id : String) (p : Phase → Bool) (t : Thread) : Bool := t.request.invite = id && p t.phase

def Revoked (id : String) (s : State) : Prop :=
  ∃ row, s.invites.get? id = some row ∧ row.token = none

/-- At most one wrong proof has yet to write its count, and it is the next one.
While the token is there, the answered ones are within the count and four. -/
structure Counted (id : String) (s : State) : Prop where
  known : ∀ t ∈ s.threads, t.request.invite = id → t.phase.pastRead = true →
    s.invites.get? id ≠ none
  single : s.threads.countP (about id isFailing) ≤ 1
  exact : ∀ t ∈ s.threads, t.request.invite = id → ∀ failures, t.phase = .failing failures →
    ∃ row, s.invites.get? id = some row ∧ failures = row.failures + 1
  bound : s.threads.countP (about id counted) = 0 ∨ ∃ row, s.invites.get? id = some row ∧
    (row.token = none ∨ s.threads.countP (about id counted) ≤ min row.failures 4)

/-! ## What happens to a row -/

def RowKept (id : String) (s s' : State) : Prop :=
  ∀ row, s.invites.get? id = some row →
    ∃ row', s'.invites.get? id = some row' ∧ (row.token = none → row'.token = none) ∧
    row'.failures = row.failures

theorem RowKept.refl (id : String) (s : State) : RowKept id s s :=
  fun row h => ⟨row, h, fun h => h, rfl⟩

theorem rowKept_update (id : String) {s : State} (id' : String) {f : Invite → Invite}
    (hf : ∀ row, (row.token = none → (f row).token = none) ∧ (f row).failures = row.failures) :
    RowKept id s { s with invites := s.invites.update id' f } := by
  intro row hr
  by_cases hi : id = id'
  · subst hi
    refine ⟨f row, ?_, (hf row).1, (hf row).2⟩
    rw [get?_update, if_pos rfl, hr, map_some]
  · refine ⟨row, ?_, fun h => h, rfl⟩
    rw [get?_update, if_neg hi, hr]

theorem RowKept.revoked {id : String} {s s' : State} (h : RowKept id s s') (hr : Revoked id s) :
    Revoked id s' := by
  obtain ⟨row, hw, ht⟩ := hr
  obtain ⟨row', hw', hk, -⟩ := h row hw
  exact ⟨row', hw', hk ht⟩

section
variable {n : Node} {s s' : State} {written : Written} {r : Request} {p phase' : Phase}

/-- A request keeps the row, except where it writes its own count. -/
theorem Advances.rowKept (id : String) (h : Advances n s written r p s' phase') :
    RowKept id s s' ∨ ∃ failures, r.invite = id ∧ p = .failing failures ∧
      phase' = .failed failures ∧ s'.invites = s.invites.update id ({ · with failures }) := by
  cases h with
  | count failures =>
    by_cases hi : r.invite = id
    · subst hi
      exact .inr ⟨failures, rfl, rfl, rfl, rfl⟩
    · refine .inl fun row hr => ⟨row, ?_, fun h => h, rfl⟩
      rw [get?_update, if_neg (Ne.symm hi), hr]
  | revoke failures _ => exact .inl (rowKept_update id r.invite fun _ => ⟨fun _ => rfl, rfl⟩)
  | bind | note => exact .inl (rowKept_update id r.invite fun _ => ⟨fun h => h, rfl⟩)
  | redeem | append => exact .inl fun row hr => ⟨row, hr, fun h => h, rfl⟩
  | _ => exact .inl (.refl id s)

theorem fleetNameFloor_ne_proof {membership : Membership} {claims : List FleetClaim}
    {held : Option Nat} {name : String} {w m : Bool} :
    fleetNameFloor membership claims held name w m ≠ .error "proof" := by
  unfold fleetNameFloor
  split
  · simp
  · simp
  · dsimp only
    repeat' split
    all_goals simp

theorem not_counted_decideRow (n : Node) (r : Request) (token : Nat) (row : Invite) :
    (decideRow n r token row).counted = false := by
  unfold decideRow
  repeat' split
  all_goals rfl

section
variable (h : Advances n s written r p s' phase')
include h

theorem Advances.counted (hc : phase'.counted = true) :
    p.counted = true ∨ (∃ failures, p = .failing failures ∧
      failures < Join.FLEET_INVITE_FAILURE_LIMIT) ∨
      Revoked r.invite s' ∨ p.pastRead = true ∧ s.invites.get? r.invite = none := by
  cases h with
  | read row token _ _ =>
    rw [not_counted_decideRow] at hc
    cases hc
  | count failures => exact .inr (.inl ⟨failures, rfl, by simpa [counted] using hc⟩)
  | revoke failures _ =>
    refine .inr (.inr ?_)
    cases hr : s.invites.get? r.invite with
    | none => exact .inr ⟨rfl, rfl⟩
    | some row =>
      refine .inl ⟨row.erase, ?_, rfl⟩
      rw [get?_update, if_pos rfl, hr, map_some]
  | refuse failures hl => exact .inl (by simpa [counted] using hl)
  | noFloor token createdBy reason hf =>
    obtain rfl : reason = "proof" := by simpa [counted, failedProof] using hc
    exact absurd hf fleetNameFloor_ne_proof
  | answered answer => exact .inl hc
  | _ => cases hc

theorem Advances.failing {failures : Nat} (hp : phase' = .failing failures) :
    s' = s ∧ ∃ row, s.invites.get? r.invite = some row ∧ failures = row.failures + 1 := by
  cases h with
  | read row token hr _ =>
    refine ⟨rfl, row, hr, ?_⟩
    unfold decideRow at hp
    repeat' split at hp
    all_goals cases hp
    rfl
  | _ => cases hp

theorem Advances.pastRead (hp : phase'.pastRead = true) :
    phase'.isFailing = true ∨ ∃ failures, p = .failing failures ∧ phase' = .failed failures := by
  cases h with
  | count failures => exact .inr ⟨failures, rfl, rfl⟩
  | read row token _ _ =>
    revert hp
    unfold decideRow
    repeat' split
    all_goals simp [pastRead, isFailing]
  | _ => cases hp

end

end

/-! ## One step -/

section
variable {α : Type} {l : List α} {i : Nat} {t t' : α} {p : α → Bool}

theorem countP_set_of_not (ht : l[i]? = some t) (hp : p t' = true → p t = true) :
    (l.set i t').countP p ≤ l.countP p := by
  obtain ⟨hi, rfl⟩ := List.getElem?_eq_some_iff.mp ht
  have hs : p l[i] = true → 0 < l.countP p := fun h => countP_pos_iff.mpr ⟨_, getElem_mem hi, h⟩
  rw [countP_set hi]
  by_cases h' : p t' = true
  · have := hs (hp h')
    simp only [h', hp h', if_true]
    omega
  · simp only [h', false_eq_true, if_false]
    omega

theorem countP_set_le_succ (ht : l[i]? = some t) : (l.set i t').countP p ≤ l.countP p + 1 := by
  obtain ⟨hi, rfl⟩ := List.getElem?_eq_some_iff.mp ht
  rw [countP_set hi]
  split <;> split <;> omega

theorem countP_set_eq_zero (ht : l[i]? = some t) (ho : l.countP p ≤ 1) (hp : p t = true)
    (hp' : p t' = false) :
    (l.set i t').countP p = 0 := by
  obtain ⟨hi, rfl⟩ := List.getElem?_eq_some_iff.mp ht
  rw [countP_set hi]
  simp only [hp, hp', if_true, false_eq_true, if_false]
  omega

end

section
variable {id : String} {n : Node} {s s' : State}

theorem isFailing_pastRead {phase : Phase} (h : phase.pastRead = false) :
    phase.isFailing = false := by
  cases phase <;> simp_all [pastRead, isFailing]

section
variable (h : Counted id s)
include h

theorem Counted.of_rowKept (hr : RowKept id s s')
    (hh : ∀ t ∈ s'.threads, t ∈ s.threads ∨ (t.request.invite = id → t.phase.pastRead = false))
    (hf : s'.threads.countP (about id isFailing) ≤ s.threads.countP (about id isFailing))
    (hc : s'.threads.countP (about id counted) ≤ s.threads.countP (about id counted) ∨
      Revoked id s') :
    Counted id s' := by
  refine ⟨?_, hf.trans h.single, ?_, ?_⟩
  · intro t ht hi hp
    rcases hh t ht with ht | hn
    · obtain ⟨row, hg⟩ := ne_none_iff_exists'.mp (h.known t ht hi hp)
      obtain ⟨row', hg', -⟩ := hr row hg
      rw [hg']
      exact some_ne_none row'
    · rw [hn hi] at hp
      cases hp
  · intro t ht hi failures hphase
    rcases hh t ht with ht | hn
    · obtain ⟨row, hg, hfailures⟩ := h.exact t ht hi failures hphase
      obtain ⟨row', hg', -, hs⟩ := hr row hg
      exact ⟨row', hg', hs ▸ hfailures⟩
    · have hp := hn hi
      rw [hphase] at hp
      cases hp
  · rcases hc with hc | ⟨row, hg, hk⟩
    swap
    · exact .inr ⟨row, hg, .inl hk⟩
    rcases h.bound with hz | ⟨row, hg, hb⟩
    · exact .inl (by omega)
    · obtain ⟨row', hg', hk, hs⟩ := hr row hg
      refine .inr ⟨row', hg', ?_⟩
      rcases hb with htoken | hl
      · exact .inl (hk htoken)
      · exact .inr (hc.trans (hs ▸ hl))

theorem Counted.congr (hi : s'.invites = s.invites) (ht : s'.threads = s.threads) :
    Counted id s' := by
  obtain ⟨h1, h2, h3, h4⟩ := h
  exact ⟨by rwa [hi, ht], by rwa [ht], by rwa [hi, ht], by rwa [hi, ht]⟩

theorem Counted.count {i : Nat} {r : Request} {failures : Nat} (hi : r.invite = id)
    (ht : s.threads[i]? = some ⟨r, .failing failures⟩) : Counted id { s with
      invites := s.invites.update id ({ · with failures })
      threads := s.threads.set i ⟨r, .failed failures⟩ } := by
  have hm := mem_of_getElem? ht
  obtain ⟨row, hg, hc⟩ := h.exact _ hm hi failures rfl
  have hg' : (s.invites.update id ({ · with failures })).get? id = some { row with failures } := by
    rw [get?_update, if_pos rfl, hg, map_some]
  have hn : (s.threads.set i ⟨r, .failed failures⟩).countP (about id isFailing) = 0 :=
    countP_set_eq_zero ht h.single (by simp [about, hi, isFailing]) (by simp [about, isFailing])
  refine ⟨?_, by rw [hn]; exact Nat.zero_le 1, ?_, .inr ⟨_, hg', ?_⟩⟩
  · intro _ _ _ _
    rw [hg']
    exact some_ne_none _
  · intro t hthreads hd f hp
    have := (countP_eq_zero.mp hn) t hthreads
    simp [about, hd, hp, isFailing] at this
  · by_cases hl : failures < Join.FLEET_INVITE_FAILURE_LIMIT
    · have hle : (s.threads.set i ⟨r, .failed failures⟩).countP (about id counted) ≤
          s.threads.countP (about id counted) + 1 := countP_set_le_succ ht
      have hle' : failures ≤ 4 := Nat.le_of_lt_succ hl
      rcases h.bound with hz | ⟨row', hg'', hb⟩
      · exact .inr (by simp only; omega)
      · rw [hg, some.injEq] at hg''
        subst hg''
        rcases hb with hn | hb
        · exact .inl hn
        · exact .inr (by simp only; omega)
    · have hle : (s.threads.set i ⟨r, .failed failures⟩).countP (about id counted) ≤
          s.threads.countP (about id counted) :=
        countP_set_of_not ht (by simp [about, counted, hl])
      rcases h.bound with hz | ⟨row', hg'', hb⟩
      · exact .inr (by simp only; omega)
      · rw [hg, some.injEq] at hg''
        subst hg''
        rcases hb with hn | hb
        · exact .inl hn
        · exact .inr (by simp only; omega)

/-- Finding a wrong proof, while no other has yet to be counted. -/
theorem Counted.find {i : Nat} {r : Request} {phase : Phase} {failures : Nat}
    (ht : s.threads[i]? = some ⟨r, phase⟩)
    (hr : ∃ row, s.invites.get? id = some row ∧ failures = row.failures + 1)
    (hs : s.threads.all (fun other => !(other.request.invite = id && other.phase.isFailing)) =
      true) :
    Counted id { s with threads := s.threads.set i ⟨r, .failing failures⟩ } := by
  have hn : s.threads.countP (about id isFailing) = 0 := by
    rw [countP_eq_zero]
    intro t hm
    simpa [about, imp_iff_not_or] using all_eq_true.mp hs t hm
  have hc : (s.threads.set i ⟨r, .failing failures⟩).countP (about id counted) ≤
      s.threads.countP (about id counted) :=
    countP_set_of_not ht (by simp [about, counted, failedProof])
  refine ⟨?_, ?_, ?_, ?_⟩
  · intro _ _ _ _
    obtain ⟨row, hg, -⟩ := hr
    rw [hg]
    exact some_ne_none row
  · exact (countP_set_le_succ ht).trans (by rw [hn])
  · intro t hm hd f hp
    rcases mem_or_eq_of_mem_set hm with hm | rfl
    · exact h.exact t hm hd f hp
    · cases hp
      exact hr
  · rcases h.bound with hz | ⟨row, hg, hb⟩
    · exact .inl (by simp only; omega)
    · exact .inr ⟨row, hg, hb.imp_right fun hl => hc.trans hl⟩

theorem Counted.advance {i : Nat} {written : Written} {t : Thread} (ht : s.threads[i]? = some t)
    (hs : serialGuesses n s (.advance i written) = true) :
    Counted id { (s.advance n written t).1 with
      threads := s.threads.set i { t with phase := (s.advance n written t).2 } } := by
  obtain ⟨r, phase⟩ := t
  have ha := advance_cases n s written r phase
  simp only [serialGuesses, ht, all_some, or_eq_true, not_eq_true'] at hs
  generalize s.advance n written ⟨r, phase⟩ = next at ha hs ⊢
  obtain ⟨s₁, phase'⟩ := next
  by_cases hi : r.invite = id
  · by_cases hf : phase'.isFailing = true
    · obtain ⟨failures, rfl⟩ : ∃ failures, phase' = .failing failures := by
        cases phase' <;> simp_all [isFailing]
      obtain ⟨rfl, hr⟩ := ha.failing rfl
      refine h.find ht (hi ▸ hr) ?_
      rw [← hi]
      exact hs.resolve_left (by simp [hf])
    · by_cases hl : ∃ failures, phase = .failing failures
      · obtain ⟨failures, rfl⟩ := hl
        cases ha
        subst hi
        exact h.count rfl ht
      · have hr : RowKept id s s₁ :=
          (ha.rowKept id).resolve_right fun ⟨failures, _, hp, _⟩ => hl ⟨failures, hp⟩
        refine h.of_rowKept hr (fun t hm => ?_) ?_ ?_
        · rcases mem_or_eq_of_mem_set hm with hm | rfl
          · exact .inl hm
          · refine .inr fun _ => eq_false_iff.mpr fun hread => ?_
            rcases ha.pastRead hread with hn | ⟨failures, hp, -⟩
            · exact hf hn
            · exact hl ⟨failures, hp⟩
        · exact countP_set_of_not ht (by simp [about, hf])
        · by_cases hc : phase'.counted = true
          · rcases ha.counted hc with hold | ⟨failures, hp, -⟩ | hv | ⟨hread, hinvites⟩
            · exact .inl (countP_set_of_not ht fun _ => by simp [about, hi, hold])
            · exact absurd ⟨failures, hp⟩ hl
            · exact .inr (hi ▸ hv)
            · exact absurd (hi ▸ hinvites) (h.known _ (mem_of_getElem? ht) hi hread)
          · exact .inl (countP_set_of_not ht (by simp [about, hc]))
  · have hr : RowKept id s s₁ := (ha.rowKept id).resolve_right fun ⟨_, heq, _⟩ => hi heq
    refine h.of_rowKept hr (fun t hm => ?_) ?_ (.inl ?_)
    · rcases mem_or_eq_of_mem_set hm with hm | rfl
      · exact .inl hm
      · exact .inr fun heq => absurd heq hi
    · exact countP_set_of_not ht (by simp [about, hi])
    · exact countP_set_of_not ht (by simp [about, hi])

end

theorem not_pastRead_crashed (phase : Phase) : phase.crashed.pastRead = false := by
  cases phase <;> rfl

theorem counted_crashed {phase : Phase} (h : phase.crashed.counted = true) :
    phase.counted = true := by
  cases phase <;> simp_all [crashed, counted, failedProof]

theorem rowKept_create (id' : String) (row : Invite) :
    RowKept id s { s with invites := s.invites.insert id' row } := by
  intro row' hr
  refine ⟨row', ?_, fun h => h, rfl⟩
  rw [get?_insert]
  split
  next heq => rw [← heq, hr, getD_some]
  next => exact hr

theorem machine_keeps_counted (n : Node) (id : String) :
    ((machine n).restrict (serialGuesses n)).Keeps (fun _ => True) (Counted id) := by
  intro s label s' _ h hs
  obtain ⟨hr, hs⟩ := Machine.step_of_restrict hs
  cases label with
  | create id' token name m createdBy =>
    cases hs
    exact h.of_rowKept (rowKept_create id' _) (fun t ht => .inl ht) le_rfl (.inl le_rfl)
  | sweep id' =>
    cases hs
    exact h.of_rowKept (rowKept_update id id' fun _ => ⟨fun _ => rfl, rfl⟩)
      (fun t ht => .inl ht) le_rfl (.inl le_rfl)
  | request request =>
    cases hs
    refine h.of_rowKept (.refl id s) (fun t ht => ?_) ?_ (.inl ?_)
    · rcases mem_append.mp ht with ht | ht
      · exact .inl ht
      · rw [mem_singleton.mp ht]
        exact .inr fun _ => rfl
    · simp [about, isFailing]
    · simp [about, counted, failedProof]
  | advance i written =>
    obtain ⟨t, ht, rfl⟩ := map_eq_some_iff.mp hs
    exact h.advance ht hr
  | abort i =>
    obtain ⟨t, ht, rfl⟩ := map_eq_some_iff.mp hs
    refine h.of_rowKept (.refl id s) (fun t' ht' => ?_) ?_ (.inl ?_)
    · rcases mem_or_eq_of_mem_set ht' with ht' | rfl
      · exact .inl ht'
      · exact .inr fun _ => rfl
    · exact countP_set_of_not ht (by simp [about, isFailing])
    · exact countP_set_of_not ht (by simp [about, counted, failedProof])
  | crash =>
    cases hs
    refine h.of_rowKept (.refl id s) (fun t' ht' => ?_) ?_ (.inl ?_)
    · obtain ⟨t, -, rfl⟩ := mem_map.mp ht'
      exact .inr fun _ => not_pastRead_crashed t.phase
    · rw [countP_map]
      refine countP_mono_left fun t _ hf => ?_
      have := isFailing_pastRead (not_pastRead_crashed t.phase)
      simp [about, this] at hf
    · rw [countP_map]
      refine countP_mono_left fun t _ hc => ?_
      simp only [Function.comp_apply, about, and_eq_true] at hc ⊢
      exact ⟨hc.1, counted_crashed hc.2⟩
  | sealClaims | claim | envelope =>
    cases hs
    exact h.congr rfl rfl

theorem counted_initial (id : String) : Counted id State.initial where
  known _ ht := absurd ht not_mem_nil
  single := Nat.zero_le 1
  exact _ ht := absurd ht not_mem_nil
  bound := .inl rfl

end

def Phase.barred : Phase → Bool
  | .arrived => true
  | .opened => true
  | .answered (.admitted ..) => false
  | .answered _ => true
  | .aborted => true
  | _ => false

def Barred (n : Nat) (id : String) (s : State) : Prop :=
  Revoked id s ∧ ∀ i t, n ≤ i → s.threads[i]? = some t → t.request.invite = id →
  t.phase.barred = true

theorem Advances.barred {node : Node} {s s' : State} {written : Written} {r : Request}
    {phase phase' : Phase} (h : Advances node s written r phase s' phase') (hv : Revoked r.invite s)
    (hb : phase.barred = true) :
    phase'.barred = true := by
  cases h with
  | read row token hr ht =>
    obtain ⟨row', hr', hn⟩ := hv
    rw [hr, some.injEq] at hr'
    subst hr'
    rw [hn] at ht
    cases ht
  | answered answer => exact hb
  | openInvites | closed | unknown | aborted => rfl
  | _ => cases hb

theorem barred_crashed {phase : Phase} (h : phase.barred = true) : phase.crashed.barred = true := by
  cases phase with
  | answered answer => exact h
  | _ => rfl

theorem machine_keeps_revoked (node : Node) (id : String) :
    (machine node).Keeps (fun _ => True) (Revoked id) := by
  intro s label s' _ h hs
  cases label with
  | create id' token name migrate createdBy =>
    cases hs
    exact (rowKept_create id' _).revoked h
  | sweep id' =>
    cases hs
    exact (rowKept_update id id' (f := Join.Invite.erase) fun _ => ⟨fun _ => rfl, rfl⟩).revoked h
  | advance i written =>
    obtain ⟨⟨r, phase⟩, -, rfl⟩ := map_eq_some_iff.mp hs
    rcases (advance_cases node s written r phase).rowKept id with hr | ⟨failures, -, -, -, hi⟩
    · exact hr.revoked h
    · obtain ⟨row, hg, ht⟩ := h
      refine ⟨{ row with failures }, ?_, ht⟩
      change Table.get? (s.advance node written ⟨r, phase⟩).1.invites id = _
      rw [hi, get?_update, if_pos rfl, hg, map_some]
  | abort i =>
    obtain ⟨t, -, rfl⟩ := map_eq_some_iff.mp hs
    exact h
  | request | crash | sealClaims | claim | envelope =>
    cases hs
    exact h

theorem machine_keeps_barred (node : Node) (n : Nat) (id : String) :
    (machine node).Keeps (fun _ => True) (Barred n id) := by
  intro s label s' _ h hs
  refine ⟨machine_keeps_revoked node id trivial h.1 hs, ?_⟩
  cases label with
  | request request =>
    cases hs
    intro i t hi ht hd
    rw [getElem?_append] at ht
    split at ht
    · exact h.2 i t hi ht hd
    · rw [mem_singleton.mp (mem_of_getElem? ht)]
      rfl
  | advance i written =>
    obtain ⟨⟨r, phase⟩, ht, rfl⟩ := map_eq_some_iff.mp hs
    intro j t hj hthreads hd
    rw [getElem?_set] at hthreads
    split at hthreads
    next heq =>
      subst heq
      split at hthreads
      · cases hthreads
        exact (advance_cases node s written r phase).barred (hd ▸ h.1) (h.2 i _ hj ht hd)
      · cases hthreads
    next => exact h.2 j t hj hthreads hd
  | abort i =>
    obtain ⟨t, ht, rfl⟩ := map_eq_some_iff.mp hs
    intro j t' hj hthreads hd
    rw [getElem?_set] at hthreads
    split at hthreads
    next heq =>
      split at hthreads
      · cases hthreads
        rfl
      · cases hthreads
    next => exact h.2 j t' hj hthreads hd
  | crash =>
    cases hs
    intro j t' hj hthreads hd
    rw [getElem?_map] at hthreads
    obtain ⟨t, ht, rfl⟩ := map_eq_some_iff.mp hthreads
    exact barred_crashed (h.2 j t hj ht hd)
  | create | sweep | sealClaims | claim | envelope =>
    cases hs
    exact h.2

/-- Where wrong proofs do not overlap, five answered ones leave the invite without
its token, and no later request redeems it, whatever happens. -/
theorem five_guesses_revoke (node : Node) (labels : List Label) (s : State) (id : String)
    (h : ((machine node).restrict (serialGuesses node)).run State.initial labels = some s)
    (hfive : 5 ≤ s.threads.countP (about id failedProof)) :
    Revoked id s ∧ ∀ labels' s', (machine node).run s labels' = some s' →
      ∀ i t, s.threads.length ≤ i → s'.threads[i]? = some t → t.request.invite = id →
      ¬ t.WasAdmitted := by
  have hc : Counted id s :=
    (machine_keeps_counted node id).run (fun _ _ => trivial) (counted_initial id) h
  have hl : s.threads.countP (about id failedProof) ≤ s.threads.countP (about id counted) := by
    refine countP_mono_left fun t _ hf => ?_
    simp only [about, and_eq_true] at hf ⊢
    refine ⟨hf.1, ?_⟩
    cases hp : t.phase <;> simp_all [counted, failedProof]
  have hr : Revoked id s := by
    rcases hc.bound with hz | ⟨row, hg, hk | hm⟩
    · omega
    · exact ⟨row, hg, hk⟩
    · omega
  refine ⟨hr, fun labels' s' hn i t hi ht hd hadmitted => ?_⟩
  have hb : Barred s.threads.length id s :=
    ⟨hr, fun i t hi ht => absurd (List.getElem?_eq_some_iff.mp ht).1 (not_lt.mpr hi)⟩
  have hp := ((machine_keeps_barred node _ id).run (fun _ _ => trivial) hb hn).2 i t hi ht hd
  obtain ⟨token, floor, claim, first, ha⟩ := hadmitted
  rw [ha] at hp
  cases hp

def guess (proof : Nat) : Request := ⟨"i", "elm", "listening", "ke", false, false, proof⟩

def serialLabels : List Label :=
  [.create "i" 7 none false none] ++ replicate 5 (.request (guess 1)) ++
    [0, 0, 0, 0, 1, 1, 1, 1, 2, 2, 2, 2, 3, 3, 3, 3, 4, 4, 4, 4].map fun i => .advance i written

theorem serialLabels_revoke :
    ∃ s, ((machine oak).restrict (serialGuesses oak)).run State.initial serialLabels = some s ∧
    s.threads.countP (about "i" failedProof) = 5 ∧ Revoked "i" s ∧
    ∀ labels' s', (machine oak).run s labels' = some s' →
      ∀ i t, s.threads.length ≤ i → s'.threads[i]? = some t → t.request.invite = "i" →
      ¬ t.WasAdmitted := by
  have hr : (((machine oak).restrict (serialGuesses oak)).run State.initial serialLabels).map
      (fun s => decide (s.threads.countP (about "i" failedProof) = 5)) = some true := by
    decide +kernel
  obtain ⟨s, hs, hf⟩ := map_eq_some_iff.mp hr
  have hf := of_decide_eq_true hf
  exact ⟨s, hs, hf, five_guesses_revoke oak serialLabels s "i" hs (by rw [hf])⟩

/-- Five wrong proofs read the same count, and a sixth request with the right one
comes after they are answered. -/
def overlappingLabels : List Label :=
  [.create "i" 7 none false none] ++ replicate 5 (.request (guess 1)) ++
    [0, 0, 1, 1, 2, 2, 3, 3, 4, 4, 0, 1, 2, 3, 4, 0, 1, 2, 3, 4].map
      (fun i => .advance i written) ++
    [.request (guess 7)] ++ replicate 7 (.advance 5 written)

theorem overlapping_guesses_redeem :
    ((machine oak).run State.initial overlappingLabels).map (fun s => s.threads.map (·.phase)) =
      some (replicate 5 (.answered (.refused "proof")) ++
        [.answered (.admitted 7 none "c1" true)]) := by
  decide +kernel

end Smalltalk.Redemption
