import Mathlib.Data.List.Induction
import Smalltalk.Lib.Results
import Smalltalk.Mailbox.Lease

/-!
# One channel holds custody

One token at most passes the fence of a component, a token with a newer binding behind it
never passes, and within one incarnation custody only moves up the provider's sequence or away
from a dead process.
-/

namespace Smalltalk.Mailbox

open List Table

variable {w : World} {s t : Mailboxes} {f : Fence} {seat : Seat} {held : Lease}
    {authority : Authority}

def Passes (w : World) (s : Mailboxes) (f : Fence) : Prop := checkMailboxFence w s f = .ok ()

/-! ## What the checks say -/

theorem ownerOf_eq_some {owner : Owner} : ownerOf s f = some owner ↔
    s.owners.get? f.seat = some owner ∧
    s.bindings.get? f.token = some ⟨f.seat, owner.incarnation, owner.epoch⟩ := by
  unfold ownerOf
  cases ho : s.owners.get? f.seat with
  | none => simp
  | some row =>
    cases hb : s.bindings.get? f.token with
    | none => simp
    | some b =>
      by_cases h : b = ⟨f.seat, row.incarnation, row.epoch⟩
      · simp only [Option.bind_eq_bind, Option.bind_some, h, if_true, Option.some.injEq]
        constructor
        · rintro rfl
          exact ⟨rfl, rfl⟩
        · exact fun h => h.1
      · simp only [Option.bind_eq_bind, Option.bind_some, if_neg h, reduceCtorEq, Option.some.injEq,
          false_iff, not_and]
        rintro rfl
        exact h

theorem passes_iff : Passes w s f ↔ ∃ subject, w.resolveReference f.subject = .ok subject ∧
    checkMailboxIncarnation w { f with subject } = .ok () ∧
    checkLeaseFence w s { f with subject } = .ok () ∧
    s.owners.get? ⟨subject, f.component⟩ = some ⟨f.incarnation, f.epoch⟩ ∧
    s.bindings.get? f.token = some ⟨⟨subject, f.component⟩, f.incarnation, f.epoch⟩ := by
  unfold Passes checkMailboxFence
  rw [except_bind_eq_ok]
  refine exists_congr fun subject => and_congr_right fun _ => ?_
  have ho : ownerOf s { f with subject } = some ⟨f.incarnation, f.epoch⟩ ↔ _ := ownerOf_eq_some
  simp only [Fence.seat] at ho
  rw [unit_bind_eq_ok, unit_bind_eq_ok, ← ho]
  split <;> simp_all [pure, Except.pure, throw, throwThe, MonadExceptOf.throw]

section
variable (h : s.leases.get? f.seat = some held)
include h

theorem checkArgvBinding_of_lease :
    checkArgvBinding w s f = .ok () ↔ s.argvBindings.get? f.token = none := by
  unfold checkArgvBinding
  cases s.argvBindings.get? f.token with
  | none => simp
  | some row =>
    by_cases hr : row.binding ≠ ⟨f.seat, f.incarnation, f.epoch⟩
    · simp [hr]
    · simp [hr, checkArgvDeclaration, h, except_bind_eq_ok, throw, throwThe, MonadExceptOf.throw]

theorem checkLeaseFence_of_lease : checkLeaseFence w s f = .ok () ↔
    s.argvBindings.get? f.token = none ∧ held.revoked = false ∧ held.token = f.token ∧
      held.epoch = f.epoch ∧ held.incarnation = f.incarnation ∧
      checkLeaseDeclaration w f held.authority.provider = .ok () := by
  unfold checkLeaseFence
  rw [unit_bind_eq_ok, checkArgvBinding_of_lease h, h]
  simp [refuse_bind_eq_ok, and_assoc]

end

structure Held (s : Mailboxes) (seat : Seat) (f : Fence) : Prop where
  owner : s.owners.get? seat = some ⟨f.incarnation, f.epoch⟩
  binding : s.bindings.get? f.token = some ⟨seat, f.incarnation, f.epoch⟩
  lease : ∀ held, s.leases.get? seat = some held →
    held.token = f.token ∧ held.epoch = f.epoch ∧ held.incarnation = f.incarnation ∧
    held.revoked = false

theorem Passes.rows (h : Passes w s f) :
    ∃ subject, w.resolveReference f.subject = .ok subject ∧ Held s ⟨subject, f.component⟩ f := by
  obtain ⟨subject, hs, -, hl, ho, hb⟩ := passes_iff.mp h
  refine ⟨subject, hs, ho, hb, fun held hh => ?_⟩
  have hf : s.leases.get? (Fence.seat { f with subject }) = some held := hh
  obtain ⟨-, hr, ht, he, hi, -⟩ := (checkLeaseFence_of_lease hf).mp hl
  exact ⟨ht, he, hi, hr⟩

/-! ## What one step can do -/

def leaseOf (f : Fence) (authority : Authority) : Lease :=
  ⟨f.incarnation, f.token, f.epoch, authority, false⟩

def Outranks (dead : Authority → Prop) (old new : Lease) : Prop :=
  old.authority.sequence < new.authority.sequence ∨ dead old.authority

def SameProcess (a b : Authority) : Prop := a.pid = b.pid ∧ a.processToken = b.processToken

structure Follows (dead : Authority → Prop) (old new : Lease) : Prop where
  provider : new.authority.provider = old.authority.provider
  sequence : old.authority.sequence ≤ new.authority.sequence
  custody : (new.token = old.token ∧ SameProcess new.authority old.authority) ∨
    Outranks dead old new

def Label.KnownDead : Label → Authority → Prop
  | .bind _ _ (.native _ liveness) _ => fun prior => liveness prior = .dead
  | _ => fun _ => False

def Label.authenticated : Label → Bool
  | .bind _ _ (.native _ _) _ => true
  | .promote _ _ _ _ => true
  | .repair _ _ _ _ => true
  | _ => false

inductive Change (label : Label) (s : Mailboxes) : Mailboxes → Prop
  | same : Change label s s
  | renewed (f : Fence) (seat : Seat) (authority : Authority) (hheld : Held s seat f)
      (hfollows : ∀ old, s.leases.get? f.seat = some old → old.incarnation = f.incarnation →
        Follows label.KnownDead old (leaseOf f authority)) :
      Change label s { s with leases := s.leases.put f.seat (leaseOf f authority) }
  | designated (f : Fence) (member : MemberSpec) (hlabel : label.authenticated = false) :
      Change label s (recordArgvBinding s f member)
  | bound (f : Fence) (authority : Authority) (hnew : s.bindings.get? f.token = none)
      (hfollows : ∀ old, s.leases.get? f.seat = some old → old.incarnation = f.incarnation →
        Follows label.KnownDead old (leaseOf f authority) ∧
        Outranks label.KnownDead old (leaseOf f authority)) :
      Change label s { s with
        bindings := s.bindings.insert f.token ⟨f.seat, f.incarnation, f.epoch⟩
        owners := s.owners.put f.seat ⟨f.incarnation, f.epoch⟩
        leases := s.leases.put f.seat (leaseOf f authority) }
  | boundArgv (f : Fence) (member : MemberSpec) (hnew : s.bindings.get? f.token = none)
      (hlease : s.leases.get? f.seat = none)
      (hepoch : f.epoch = ((s.owners.get? f.seat).map (·.epoch)).getD 0 + 1) :
      Change label s (recordArgvBinding { s with
        bindings := s.bindings.insert f.token ⟨f.seat, f.incarnation, f.epoch⟩
        owners := s.owners.put f.seat ⟨f.incarnation, f.epoch⟩ } f member)
  | restored (f : Fence) (held : Lease) (hlease : s.leases.get? f.seat = some held)
      (hlost : s.owners.get? f.seat = none) :
      Change label s { s with owners := s.owners.put f.seat ⟨f.incarnation, f.epoch⟩ }
  | lost (seat : Seat) (held : Lease) (hlabel : label.authenticated = false)
      (hlease : s.leases.get? seat = some held) :
      Change label s { s with owners := s.owners.delete seat }

theorem sequence_le_of_bootstrap {prior authority : Authority}
    (h : bootstrapPromotion prior authority) :
    prior.sequence ≤ authority.sequence ∧ prior.provider = authority.provider ∧
    SameProcess authority prior := by
  simp only [bootstrapPromotion, decide_eq_true_eq] at h
  exact ⟨by omega, h.2.2.1, h.2.2.2.1.symm, h.2.2.2.2.symm⟩

theorem admitted_follows {liveness : Authority → ChannelLiveness}
    (h : admitWithProbe s f authority liveness = .ok ()) (hheld : s.leases.get? f.seat = some held)
    (hi : held.incarnation = f.incarnation) (epoch : Nat) :
    Follows (liveness · = .dead) held (leaseOf { f with epoch } authority) ∧
      (s.bindings.get? f.token = none →
        Outranks (liveness · = .dead) held (leaseOf { f with epoch } authority)) := by
  unfold admitWithProbe at h
  rw [refuse_eq_ok, hheld] at h
  obtain ⟨-, h⟩ := h
  simp only [hi, ne_eq, not_true, if_false] at h
  rw [refuse_eq_ok] at h
  obtain ⟨-, h⟩ := h
  by_cases hm : f.token = held.token ∧
    (authority = held.authority ∨ bootstrapPromotion held.authority authority)
  · rw [if_pos hm] at h
    by_cases hb : (s.bindings.get? f.token).isSome
    · refine ⟨?_, fun hn => absurd hb (by simp [hn])⟩
      obtain ⟨ht, rfl | hpromotion⟩ := hm
      · exact ⟨rfl, Nat.le_refl _, .inl ⟨ht, rfl, rfl⟩⟩
      · obtain ⟨hs, hp, hr⟩ := sequence_le_of_bootstrap hpromotion
        exact ⟨hp.symm, hs, .inl ⟨ht, hr⟩⟩
    · simp [hb] at h
  · rw [if_neg hm, refuse_eq_ok] at h
    obtain ⟨hc, -⟩ := h
    simp only [not_or, not_and_or, not_not, Nat.not_lt] at hc
    obtain ⟨hp, hs, he⟩ := hc
    have ho : Outranks (liveness · = .dead) held (leaseOf { f with epoch } authority) := by
      by_cases hd : liveness held.authority = .dead
      · exact .inr hd
      · refine .inl (Nat.lt_of_le_of_ne hs fun heq => ?_)
        rcases he with hne | ⟨-, hd'⟩
        · exact hne heq.symm
        · exact hd hd'
    exact ⟨⟨hp, hs, .inr ho⟩, fun _ => ho⟩

theorem record_eq_ok (h : record s f authority = .ok t) :
    t = { s with leases := s.leases.put f.seat (leaseOf f authority) } := by
  unfold record at h
  rw [refuse_eq_ok] at h
  exact (Except.ok.inj h.2).symm

section
variable {request bound : Fence} {c : Credential} {v : Except St3Error Unit}

section
variable (h : bindMailbox w s request c v = .ok (bound, t))
include h

/-- A bind either finds its token in custody or takes the seat with a new one. -/
theorem bindMailbox_eq_ok : ∃ f : Fence, c.check w s f v = .ok () ∧
      ((Passes w s bound ∧ bound = { f with epoch := bound.epoch } ∧ c.record s bound = .ok t) ∨
        (s.bindings.get? f.token = none ∧
          bound = { f with epoch := ((s.owners.get? f.seat).map (·.epoch)).getD 0 + 1 } ∧
          c.record { s with
            bindings := s.bindings.insert bound.token ⟨bound.seat, bound.incarnation, bound.epoch⟩
            owners :=
              s.owners.put bound.seat ⟨bound.incarnation, bound.epoch⟩ } bound = .ok t)) := by
  unfold bindMailbox at h
  obtain ⟨subject, -, h⟩ := except_bind_eq_ok.mp h
  rw [unit_bind_eq_ok, unit_bind_eq_ok] at h
  obtain ⟨-, hc, h⟩ := h
  refine ⟨{ request with subject }, hc, ?_⟩
  by_cases he : request.epoch ≠ 0
  · rw [if_pos he, unit_bind_eq_ok] at h
    obtain ⟨hp, h⟩ := h
    obtain ⟨next, hr, h⟩ := except_bind_eq_ok.mp h
    cases h
    exact .inl ⟨hp, rfl, hr⟩
  · rw [if_neg he] at h
    simp only [refuse_bind_eq_ok] at h
    obtain ⟨-, h⟩ := h
    cases hbindings : s.bindings.get? request.token with
    | some prior =>
      simp only [hbindings, refuse_bind_eq_ok, unit_bind_eq_ok] at h
      obtain ⟨-, hp, h⟩ := h
      obtain ⟨next, hr, h⟩ := except_bind_eq_ok.mp h
      cases h
      exact .inl ⟨hp, rfl, hr⟩
    | none =>
      simp only [hbindings] at h
      rw [unit_bind_eq_ok, refuse_bind_eq_ok] at h
      obtain ⟨-, -, h⟩ := h
      obtain ⟨next, hr, h⟩ := except_bind_eq_ok.mp h
      cases h
      exact .inr ⟨rfl, rfl, hr⟩

theorem bind_changes : Change (.bind w request c v) s t := by
  obtain ⟨f, hc, ⟨hp, hb, hr⟩ | ⟨hn, hb, hr⟩⟩ := bindMailbox_eq_ok h
  · cases c with
    | native authority liveness =>
      simp only [Credential.check, unit_bind_eq_ok] at hc
      rw [record_eq_ok hr]
      obtain ⟨subject, -, hheld⟩ := hp.rows
      refine .renewed bound ⟨subject, bound.component⟩ authority hheld fun old hold hi => ?_
      rw [hb] at hold hi ⊢
      exact (admitted_follows hc.2.2.2 hold hi bound.epoch).1
    | argv member =>
      cases hr
      exact .designated bound member rfl
  · cases c with
    | native authority liveness =>
      simp only [Credential.check, unit_bind_eq_ok] at hc
      rw [record_eq_ok hr]
      refine .bound bound authority (by rw [hb]; exact hn) fun old hold hi => ?_
      rw [hb] at hold hi ⊢
      obtain ⟨hf, ho⟩ := admitted_follows hc.2.2.2 hold hi _
      exact ⟨hf, ho hn⟩
    | argv member =>
      cases hr
      have hl : s.leases.get? f.seat = none := by
        simp only [Credential.check, unit_bind_eq_ok, checkArgvDeclaration, refuse_bind_eq_ok] at hc
        simpa using hc.1.1
      exact .boundArgv bound member (by rw [hb]; exact hn) (by rw [hb]; exact hl) (by rw [hb]; rfl)

end

end

theorem promote_changes {o : Option Lease}
    (h : promoteCurrentMailboxOwnership w s f authority o = .ok t) :
    Change (.promote w f authority o) s t := by
  unfold promoteCurrentMailboxOwnership at h
  by_cases hb : promotionIsNoop o authority
  · rw [if_pos hb] at h
    cases h
    exact .same
  rw [if_neg hb] at h
  by_cases hn : promotionIsNoop (s.leases.get? f.seat) authority
  · rw [if_pos hn] at h
    cases h
    exact .same
  rw [if_neg hn] at h
  cases hl : s.leases.get? f.seat with
  | none => simp [promotionIsNoop, hl] at hn
  | some held =>
    simp only [hl] at h
    by_cases ho : held.incarnation ≠ f.incarnation ∨ held.token ≠ f.token ∨ held.epoch ≠ f.epoch
    · rw [if_pos ho] at h
      cases h
      exact .same
    rw [if_neg ho] at h
    simp only [refuse_bind_eq_ok, unit_bind_eq_ok] at h
    obtain ⟨hp, -, hfence, -, hr⟩ := h
    simp only [not_or, not_not] at hp ho
    obtain ⟨subject, -, hheld⟩ := Passes.rows hfence
    rw [record_eq_ok hr]
    refine .renewed f ⟨subject, f.component⟩ authority hheld fun old hold _ => ?_
    obtain rfl : held = old := by simpa [hl] using hold
    have hs : held.authority.sequence ≤ authority.sequence := by
      simp only [promotionIsNoop, hl, decide_eq_true_eq] at hn
      omega
    exact ⟨hp.2.2.2.symm, hs, .inl ⟨ho.2.1.symm, hp.2.1.symm, hp.2.2.1.symm⟩⟩

theorem repair_changes {validate : Except St3Error Unit} {done : Bool}
    (h : repairMailbox w s f authority validate = .ok (done, t)) :
    Change (.repair w f authority validate) s t := by
  unfold repairMailbox at h
  simp only [unit_bind_eq_ok] at h
  obtain ⟨-, -, -, h⟩ := h
  cases hl : s.leases.get? f.seat with
  | none => simp [hl] at h
  | some held =>
    simp only [hl, refuse_bind_eq_ok] at h
    obtain ⟨-, -, h⟩ := h
    by_cases hp : (checkMailboxFence w s f).toBool
    · rw [if_pos hp] at h
      cases h
      exact .same
    · rw [if_neg hp, refuse_bind_eq_ok, unit_bind_eq_ok] at h
      obtain ⟨hs, -, h⟩ := h
      cases h
      exact .restored f held hl (by simpa using hs)

variable {label : Label} {token : String} {labels : List Label} {next : Lease}

theorem step_changes (h : s.step label = some t) : Change label s t := by
  cases label with
  | bind w request credential validate =>
    simp only [Mailboxes.step] at h
    cases hb : bindMailbox w s request credential validate with
    | error error =>
      simp only [hb, Option.some.injEq] at h
      exact h ▸ .same
    | ok r =>
      simp only [hb, Option.some.injEq] at h
      exact h ▸ bind_changes hb
  | promote w fence authority o =>
    simp only [Mailboxes.step] at h
    cases hp : promoteCurrentMailboxOwnership w s fence authority o with
    | error error =>
      simp only [hp, Option.some.injEq] at h
      exact h ▸ .same
    | ok next =>
      simp only [hp, Option.some.injEq] at h
      exact h ▸ promote_changes hp
  | repair w fence authority validate =>
    simp only [Mailboxes.step] at h
    cases hr : repairMailbox w s fence authority validate with
    | error error =>
      simp only [hr, Option.some.injEq] at h
      exact h ▸ .same
    | ok r =>
      simp only [hr, Option.some.injEq] at h
      exact h ▸ repair_changes hr
  | lose seat =>
    simp only [Mailboxes.step] at h
    split at h
    · next hl =>
      cases h
      obtain ⟨held, hheld⟩ := Option.isSome_iff_exists.mp hl
      exact .lost seat held rfl hheld
    · cases h

/-! ## Newer bindings -/

def Superseded (s : Mailboxes) (token : String) : Prop :=
  ∃ before binding after, s.bindings.rows = before ++ (token, binding) :: after ∧
    ∃ newer ∈ after, newer.2.seat = binding.seat

theorem superseded_insert {f : Fence} (hw : s.bindings.get? f.token = none)
    (hbindings : t.bindings = s.bindings.insert f.token ⟨f.seat, f.incarnation, f.epoch⟩) :
    Superseded t token ↔ Superseded s token ∨
    ∃ b, s.bindings.get? token = some b ∧ b.seat = f.seat := by
  have hr : t.bindings.rows = s.bindings.rows ++ [(f.token, ⟨f.seat, f.incarnation, f.epoch⟩)] := by
    rw [hbindings, insert_of_none hw]
  constructor
  · rintro ⟨before, b, after, hs, newer, hn, ht⟩
    rw [hr] at hs
    cases after using List.reverseRecOn with
    | nil => cases hn
    | append_singleton after l _ =>
      rw [← cons_append, ← append_assoc] at hs
      obtain ⟨hs, hl⟩ := append_inj' hs rfl
      rcases mem_append.mp hn with hm | hm
      · exact .inl ⟨before, b, after, hs, newer, hm, ht⟩
      · refine .inr ⟨b, mem_rows.mp (by simp [hs]), ?_⟩
        rw [← hl, mem_singleton] at hm
        rw [← ht, hm]
  · rintro (⟨before, b, after, hs, newer, hn, ht⟩ | ⟨b, hb, ht⟩)
    · exact ⟨before, b, after ++ [(f.token, ⟨f.seat, f.incarnation, f.epoch⟩)],
        by simp [hr, hs], newer,
        by simp [hn], ht⟩
    · obtain ⟨before, after, hs⟩ := append_of_mem (mem_rows.mpr hb)
      exact ⟨before, b, after ++ [(f.token, ⟨f.seat, f.incarnation, f.epoch⟩)], by simp [hr, hs],
        (f.token, ⟨f.seat, f.incarnation, f.epoch⟩), by simp, ht.symm⟩

theorem superseded_congr (hb : t.bindings = s.bindings) :
    Superseded t token ↔ Superseded s token := by
  unfold Superseded
  rw [hb]

/-- Of two tokens bound to one seat one is superseded. -/
theorem superseded_or {other : String} {b l : Binding} (hb : s.bindings.get? token = some b)
    (hl : s.bindings.get? other = some l) (ht : l.seat = b.seat) (hn : token ≠ other) :
    Superseded s token ∨ Superseded s other := by
  obtain ⟨before, after, hs⟩ := append_of_mem (mem_rows.mpr hb)
  have ho := mem_rows.mpr hl
  rw [hs] at ho
  rcases mem_append.mp ho with hf | ha
  · obtain ⟨first, rest, rfl⟩ := append_of_mem hf
    exact .inr ⟨first, l, rest ++ (token, b) :: after, by simp [hs], (token, b), by simp, ht.symm⟩
  · rcases mem_cons.mp ha with heq | ha
    · exact absurd (congrArg Prod.fst heq).symm hn
    · exact .inl ⟨before, b, after, hs, (other, l), ha, ht⟩

theorem Superseded.bound (h : Superseded s token) :
    ∃ binding, s.bindings.get? token = some binding := by
  obtain ⟨before, binding, after, hr, -⟩ := h
  exact ⟨binding, mem_rows.mp (by simp [hr])⟩

/-! ## The invariant -/

structure Custody (s : Mailboxes) : Prop where
  owned : ∀ token binding, s.bindings.get? token = some binding →
    s.leases.get? binding.seat = none → ∃ owner, s.owners.get? binding.seat = some owner ∧
      binding.epoch ≤ owner.epoch ∧ (Superseded s token → binding.epoch < owner.epoch)
  leased : ∀ seat held binding, s.leases.get? seat = some held →
    s.bindings.get? held.token = some binding → binding.seat = seat → ¬Superseded s held.token

/-- A token that holds its seat has no newer binding behind it. -/
theorem Custody.newest (h : Custody s) {f : Fence} (hh : Held s seat f) :
    ¬Superseded s f.token := by
  intro hs
  cases hl : s.leases.get? seat with
  | some held =>
    obtain ⟨ht, -⟩ := hh.lease held hl
    exact h.leased seat held _ hl (ht ▸ hh.binding) rfl (ht ▸ hs)
  | none =>
    obtain ⟨owner, ho, -, hlt⟩ := h.owned f.token _ hh.binding hl
    rw [hh.owner, Option.some.injEq] at ho
    subst ho
    exact absurd (hlt hs) (Nat.lt_irrefl _)

theorem Custody.not_passes (h : Custody s) (hs : Superseded s f.token) : ¬Passes w s f := by
  intro hp
  obtain ⟨subject, -, hheld⟩ := hp.rows
  exact h.newest hheld hs

theorem Custody.unique (h : Custody s) {f g : Fence} (hf : Passes w s f) (hg : Passes w s g)
    (hs : w.resolveReference f.subject = w.resolveReference g.subject)
    (hc : f.component = g.component) :
    f.token = g.token := by
  by_contra hn
  obtain ⟨subject, hreference, hheld⟩ := hf.rows
  obtain ⟨subject', hreference', hr⟩ := hg.rows
  obtain rfl : subject = subject' := by
    rw [hreference, hreference'] at hs
    exact Except.ok.inj hs
  rcases superseded_or hheld.binding hr.binding (by simp [hc]) hn with hold | hold
  · exact h.not_passes hold hf
  · exact h.not_passes hold hg

theorem custody_empty : Custody {} where
  owned token binding hb := by cases hb
  leased seat held binding hheld := by cases hheld

section
variable (h : Custody s)
include h

theorem Custody.of_bindings (hn : t.bindings = s.bindings)
    (ho : ∀ seat, s.leases.get? seat = none → t.owners.get? seat = s.owners.get? seat)
    (hk : ∀ seat, t.leases.get? seat = none → s.leases.get? seat = none)
    (hleases : ∀ seat held b, t.leases.get? seat = some held → s.bindings.get? held.token = some b →
      b.seat = seat → s.leases.get? seat = some held ∨ ¬Superseded s held.token) : Custody t := by
  constructor
  · intro token b hb hl
    rw [hn] at hb
    rw [ho _ (hk _ hl), superseded_congr hn]
    exact h.owned token b hb (hk _ hl)
  · intro seat held b hh hb hs
    rw [hn] at hb
    rw [superseded_congr hn]
    rcases hleases seat held b hh hb hs with hold | hw
    · exact h.leased seat held b hold hb hs
    · exact hw

theorem Custody.of_insert {f : Fence} (hn : s.bindings.get? f.token = none)
    (hd : t.bindings = s.bindings.insert f.token ⟨f.seat, f.incarnation, f.epoch⟩)
    (ho : t.owners.get? f.seat = some ⟨f.incarnation, f.epoch⟩)
    (hown : ∀ seat, seat ≠ f.seat → t.owners.get? seat = s.owners.get? seat)
    (hleases : ∀ seat, seat ≠ f.seat → t.leases.get? seat = s.leases.get? seat)
    (hs' : (∃ held, t.leases.get? f.seat = some held ∧ held.token = f.token) ∨
      (t.leases.get? f.seat = none ∧ s.leases.get? f.seat = none ∧
        f.epoch = ((s.owners.get? f.seat).map (·.epoch)).getD 0 + 1)) : Custody t := by
  have hg : ∀ token, t.bindings.get? token =
      if token = f.token then some ⟨f.seat, f.incarnation, f.epoch⟩ else s.bindings.get? token := by
    intro token
    rw [hd, get?_insert, hn]
    rfl
  have hw : ¬Superseded t f.token := by
    rw [superseded_insert hn hd]
    rintro (hp | ⟨b, hb, -⟩)
    · obtain ⟨b, hb⟩ := hp.bound
      simp [hn] at hb
    · simp [hn] at hb
  have hsuperseded : ∀ token b, s.bindings.get? token = some b → b.seat ≠ f.seat →
      (Superseded t token ↔ Superseded s token) := by
    intro token b hb hne
    rw [superseded_insert hn hd, or_iff_left]
    rintro ⟨named, hs, heq⟩
    rw [hb, Option.some.injEq] at hs
    exact hne (hs ▸ heq)
  constructor
  · intro token b hb hl
    rw [hg] at hb
    split at hb
    · next ht =>
      cases hb
      exact ⟨_, ho, Nat.le_refl _, fun hp => absurd (ht ▸ hp) hw⟩
    · by_cases hs : b.seat = f.seat
      · rw [hs] at hl ⊢
        obtain ⟨held, hh, -⟩ | ⟨-, hleases', he⟩ := hs'
        · simp [hh] at hl
        · obtain ⟨owner, hold, hle, -⟩ := h.owned token b hb (hs ▸ hleases')
          rw [← hs, hold] at he
          have hlt : b.epoch < f.epoch := by
            simp only [Option.map_some, Option.getD_some] at he
            omega
          exact ⟨_, ho, Nat.le_of_lt hlt, fun _ => hlt⟩
      · rw [hleases _ hs] at hl
        rw [hown _ hs, hsuperseded token b hb hs]
        exact h.owned token b hb hl
  · intro seat held b hh hb hseat
    by_cases hs : seat = f.seat
    · obtain ⟨new, hn', ht⟩ | ⟨hleases', -⟩ := hs'
      · rw [hs, hn', Option.some.injEq] at hh
        rw [← hh, ht]
        exact hw
      · simp [hs, hleases'] at hh
    · rw [hg] at hb
      split at hb
      · cases hb
        exact absurd hseat.symm hs
      · rw [hsuperseded _ b hb (hseat ▸ hs)]
        exact h.leased seat held b (hleases seat hs ▸ hh) hb hseat

theorem Custody.step (hc : Change label s t) : Custody t := by
  cases hc with
  | same => exact h
  | renewed f seat authority hh hf =>
    refine h.of_bindings rfl (fun _ _ => rfl) ?_ ?_
    · intro other hn
      rw [get?_put] at hn
      split at hn
      · cases hn
      · exact hn
    · intro other held b hl _ _
      rw [get?_put] at hl
      split at hl
      · cases hl
        exact .inr (h.newest hh)
      · exact .inl hl
  | designated f member hb => exact ⟨h.owned, h.leased⟩
  | bound f authority hw hf =>
    refine h.of_insert hw rfl ?_ ?_ ?_ (.inl ⟨leaseOf f authority, ?_, rfl⟩)
    · simp [get?_put]
    · exact fun seat hne => by simp [get?_put, hne]
    · exact fun seat hne => by simp [get?_put, hne]
    · simp [get?_put]
  | boundArgv f member hw hl he =>
    refine h.of_insert hw rfl ?_ ?_ (fun _ _ => rfl) (.inr ⟨hl, hl, he⟩)
    · simp [recordArgvBinding, get?_put]
    · exact fun seat hne => by simp [recordArgvBinding, get?_put, hne]
  | restored f held hl hs =>
    refine h.of_bindings rfl (fun other hn => ?_) (fun _ => id) (fun _ _ _ hh _ _ => .inl hh)
    rw [get?_put, if_neg]
    rintro rfl
    simp [hl] at hn
  | lost seat held hb hl =>
    refine h.of_bindings rfl (fun other hn => ?_) (fun _ => id) (fun _ _ _ hh _ _ => .inl hh)
    rw [get?_delete, if_neg]
    rintro rfl
    simp [hl] at hn

theorem custody_run (hr : mailboxes.run s labels = some t) : Custody t :=
  Machine.Keeps.run (m := mailboxes) (fun _ _ _ _ h hs => h.step (step_changes hs))
    (fun _ _ => trivial) h hr

end

/-! ## Who loses custody -/

theorem Change.superseded (h : Change label s t) (hold : Superseded s token) :
    Superseded t token := by
  cases h with
  | bound f authority hn hf | boundArgv f member hn hl he =>
    exact (superseded_insert hn rfl).mpr (.inl hold)
  | _ => exact hold

theorem superseded_run (hold : Superseded s token) (hr : mailboxes.run s labels = some t) :
    Superseded t token :=
  Machine.Keeps.run (m := mailboxes) (fun _ _ _ _ h hs => (step_changes hs).superseded h)
    (fun _ _ => trivial) hold hr

theorem Change.lease (h : Change label s t) (hh : s.leases.get? seat = some held) :
    ∃ next, t.leases.get? seat = some next ∧
      (next = held ∨ (next.incarnation = held.incarnation →
        Follows label.KnownDead held next)) := by
  cases h with
  | renewed f other authority hr hf =>
    by_cases hs : seat = f.seat
    · subst hs
      exact ⟨leaseOf f authority, by simp [get?_put], .inr fun hi => hf held hh hi.symm⟩
    · exact ⟨held, by simpa [get?_put, hs] using hh, .inl rfl⟩
  | bound f authority hn hf =>
    by_cases hs : seat = f.seat
    · subst hs
      exact ⟨leaseOf f authority, by simp [get?_put], .inr fun hi => (hf held hh hi.symm).1⟩
    · exact ⟨held, by simpa [get?_put, hs] using hh, .inl rfl⟩
  | _ => exact ⟨held, hh, .inl rfl⟩

theorem Passes.of_lease {subject : String} (h : Passes w s f)
    (hs : w.resolveReference f.subject = .ok subject)
    (hh : s.leases.get? ⟨subject, f.component⟩ = some held)
    (ho : t.owners.get? ⟨subject, f.component⟩ = s.owners.get? ⟨subject, f.component⟩)
    (hb : t.bindings.get? f.token = s.bindings.get? f.token)
    (ha : t.argvBindings.get? f.token = s.argvBindings.get? f.token)
    (hn : t.leases.get? ⟨subject, f.component⟩ = some next)
    (hm : next = { held with authority := next.authority })
    (hp : next.authority.provider = held.authority.provider) : Passes w t f := by
  obtain ⟨named, hreference, hi, hf, hr⟩ := passes_iff.mp h
  obtain rfl : named = subject := by
    rw [hs] at hreference
    exact (Except.ok.inj hreference).symm
  refine passes_iff.mpr ⟨named, hs, hi, ?_, ho ▸ hr.1, hb ▸ hr.2⟩
  have hleases' : s.leases.get? (Fence.seat { f with subject := named }) = some held := hh
  have hleases : t.leases.get? (Fence.seat { f with subject := named }) = some next := hn
  rw [checkLeaseFence_of_lease hleases'] at hf
  rw [checkLeaseFence_of_lease hleases, hp, hm]
  exact ha ▸ hf

/-- A token that passed and passes no more was outranked, or its seat has another incarnation. -/
theorem Change.outranks (h : Change label s t) (hl' : label.authenticated = true) {subject : String}
    (hp : Passes w s f) (hb : w.resolveReference f.subject = .ok subject)
    (hh : s.leases.get? ⟨subject, f.component⟩ = some held) (ht : ¬Passes w t f)
    (hx : t.leases.get? ⟨subject, f.component⟩ = some next)
    (hi : next.incarnation = held.incarnation) :
    Outranks label.KnownDead held next := by
  obtain ⟨same, hreference, hr⟩ := hp.rows
  obtain rfl : same = subject := by
    rw [hb] at hreference
    exact (Except.ok.inj hreference).symm
  obtain ⟨htoken, he, -, hv⟩ := hr.lease held hh
  have hk : t.leases.get? ⟨same, f.component⟩ = some held → t.owners.get? ⟨same, f.component⟩ =
      s.owners.get? ⟨same, f.component⟩ → t.bindings.get? f.token = s.bindings.get? f.token →
      t.argvBindings.get? f.token = s.argvBindings.get? f.token →
      Outranks label.KnownDead held next :=
    fun hl hw hd ha =>
      absurd (hp.of_lease hb hh hw hd ha hl rfl rfl) ht
  cases h with
  | same => exact hk hh rfl rfl rfl
  | renewed g seat authority hg hf =>
    by_cases hs : (⟨same, f.component⟩ : Seat) = g.seat
    · obtain rfl : leaseOf g authority = next := by simpa [get?_put, hs] using hx
      have hf := hf held (hs ▸ hh) hi.symm
      rcases hf.custody with ⟨hm, -⟩ | houtranks
      · -- The token that was renewed is the one that passed.
        obtain rfl : seat = ⟨same, f.component⟩ := by
          have hbindings := hg.binding
          rw [show g.token = f.token from hm.trans htoken, hr.binding, Option.some.injEq]
            at hbindings
          exact (congrArg Binding.seat hbindings).symm
        obtain ⟨-, hepoch, -⟩ := hg.lease held hh
        have hl : leaseOf g authority = { held with authority := authority } := by
          obtain ⟨i, token, epoch, prior, revoked⟩ := held
          simp_all [leaseOf]
        have hpasses : Passes w { s with leases := s.leases.put g.seat (leaseOf g authority) } f :=
          hp.of_lease hb hh rfl rfl rfl hx hl hf.provider
        exact absurd hpasses ht
      · exact houtranks
    · exact hk (by simpa [get?_put, hs] using hh) rfl rfl rfl
  | designated g member hd' => simp [hl'] at hd'
  | bound g authority hn hf =>
    by_cases hs : (⟨same, f.component⟩ : Seat) = g.seat
    · obtain rfl : leaseOf g authority = next := by simpa [get?_put, hs] using hx
      exact (hf held (hs ▸ hh) hi.symm).2
    · have hne : f.token ≠ g.token := fun heq => by simp [← heq, hr.binding] at hn
      exact hk (by simpa [get?_put, hs] using hh) (by simp [get?_put, hs])
        (by simp [get?_insert, hne]) rfl
  | boundArgv g member hn hl he =>
    have hs : (⟨same, f.component⟩ : Seat) ≠ g.seat := fun heq => by simp [← heq, hh] at hl
    have hne : f.token ≠ g.token := fun heq => by simp [← heq, hr.binding] at hn
    exact hk hh (by simp [recordArgvBinding, get?_put, hs])
      (by simp [recordArgvBinding, get?_insert, hne])
        (by simp [recordArgvBinding, get?_insert, hne])
  | restored g other hl howners =>
    have hs : (⟨same, f.component⟩ : Seat) ≠ g.seat :=
      fun heq => by simp [← heq, hr.owner] at howners
    exact hk hh (by simp [get?_put, hs]) rfl rfl
  | lost seat other ho hl => simp [hl'] at ho

/-- Within one incarnation a lease's sequence does not go down. -/
theorem sequence_le_run (hh : s.leases.get? seat = some held)
    (hm : ∀ before after u, labels = before ++ after → mailboxes.run s before = some u →
      ∃ lease, u.leases.get? seat = some lease ∧ lease.incarnation = held.incarnation)
    (hr : mailboxes.run s labels = some t) (hn : t.leases.get? seat = some next) :
    held.authority.sequence ≤ next.authority.sequence := by
  induction labels generalizing s held with
  | nil =>
    cases hr
    rw [hh, Option.some.injEq] at hn
    exact Nat.le_of_eq (by rw [hn])
  | cons label labels ih =>
    obtain ⟨u, hs, hrun'⟩ := Machine.run_cons_eq_some.mp hr
    obtain ⟨m, hd, hf⟩ := (step_changes hs).lease hh
    have hrun : mailboxes.run s [label] = some u := Machine.run_singleton.trans hs
    obtain ⟨lease, hl, hi⟩ := hm [label] labels u rfl hrun
    obtain rfl : m = lease := by simpa [hd] using hl
    have hle : held.authority.sequence ≤ m.authority.sequence := by
      rcases hf with rfl | hf
      · exact Nat.le_refl _
      · exact (hf hi).sequence
    refine Nat.le_trans hle (ih hd (fun before after v hb hv => ?_) hrun')
    rw [hi]
    exact hm (label :: before) after v (by simp [hb]) (Machine.run_cons_eq_some.mpr ⟨u, hs, hv⟩)

/-- The process of the lease lost custody to a higher sequence of its provider, or is known to be
dead. -/
def LosesTo (label : Label) (held next : Lease) : Prop :=
  label.KnownDead held.authority ∨
    (next.authority.provider = held.authority.provider ∧
      held.authority.sequence < next.authority.sequence)

/-- Custody of every component, in every state that calls lead to and from there on. -/
theorem mailbox_custody (labels : List Label) (s : Mailboxes)
    (hrun : mailboxes.run {} labels = some s) :
    (∀ w f g, Passes w s f → Passes w s g →
      w.resolveReference f.subject = w.resolveReference g.subject →
      f.component = g.component → f.token = g.token) ∧
    (∀ token, Superseded s token → ∀ more t, mailboxes.run s more = some t →
      ∀ w f, f.token = token → ¬Passes w t f) ∧
    (∀ seat held, s.leases.get? seat = some held → ∀ more t, mailboxes.run s more = some t →
      (∀ before after u, more = before ++ after → mailboxes.run s before = some u →
        ∃ lease, u.leases.get? seat = some lease ∧ lease.incarnation = held.incarnation) →
      ∀ next, t.leases.get? seat = some next → held.authority.sequence ≤ next.authority.sequence) ∧
    (∀ label t, s.step label = some t → ∀ seat held next, s.leases.get? seat = some held →
      t.leases.get? seat = some next → next.incarnation = held.incarnation →
      (¬SameProcess next.authority held.authority → LosesTo label held next) ∧
      (label.authenticated = true → ∀ w f, Passes w s f → ¬Passes w t f →
        w.resolveReference f.subject = .ok seat.subject → f.component = seat.component →
        LosesTo label held next)) := by
  have hc := custody_run custody_empty hrun
  refine ⟨fun w f g hf hg => hc.unique hf hg, ?_, ?_, ?_⟩
  · rintro token hold more t hm w f rfl
    exact (custody_run hc hm).not_passes (superseded_run hold hm)
  · exact fun seat held hheld more t hm hs next hn => sequence_le_run hheld hs hm hn
  · intro label t hstep seat held next hheld hn hi
    have hh := step_changes hstep
    obtain ⟨same, hs, hl⟩ := hh.lease hheld
    rw [hs, Option.some.injEq] at hn
    subst hn
    have hs' : Outranks label.KnownDead held same → LosesTo label held same := by
      intro ho
      have hr : same.authority.provider = held.authority.provider := by
        rcases hl with rfl | hl
        · rfl
        · exact (hl hi).provider
      rcases ho with hlt | hd
      · exact .inr ⟨hr, hlt⟩
      · exact .inl hd
    constructor
    · intro hp
      rcases hl with rfl | hl
      · exact absurd ⟨rfl, rfl⟩ hp
      · rcases (hl hi).custody with ⟨-, hk⟩ | ho
        · exact absurd hk hp
        · exact hs' ho
    · obtain ⟨subject, component⟩ := seat
      rintro hl' w f hpasses ht hb rfl
      exact hs' (hh.outranks hl' hpasses hb hheld ht hs hi)

def sampleWorld : World where
  host := "host"
  resolveReference := .ok
  runtime _ := { claim := "r", status := some "running", incarnation := some "i" }
  harness _ := .ok none
  harnessEnded _ _ _ := .ok false
  desired _ := .ok (some { kind := "run", member := some {
    kind := .agent, host := "host", runtimeId := "", workspace := "", cwd := "", terminal := true,
    launch := .argv ["codex"], terminalBinding := none, driver := some "codex" } })

def takeover : List Label :=
  [("a", 1), ("b", 2)].map fun (token, sequence) =>
    .bind sampleWorld ⟨"agent/ada", "i", "delivery", 0, token⟩
      (.native ⟨"codex", "session", sequence, sequence, 7⟩ fun _ => .alive) (.ok ())

theorem takeover_custody : ∃ s, mailboxes.run {} takeover = some s ∧
    Passes sampleWorld s ⟨"agent/ada", "i", "delivery", 2, "b"⟩ ∧ Superseded s "a" ∧
    ∀ more t, mailboxes.run s more = some t → ∀ w f, f.token = "a" → ¬Passes w t f := by
  have hold : ∀ s, mailboxes.run {} takeover = some s → Superseded s "a" := by
    intro s hs
    cases hs
    exact ⟨[], ⟨⟨"agent/ada", "delivery"⟩, "i", 1⟩,
      [("b", ⟨⟨"agent/ada", "delivery"⟩, "i", 2⟩)], rfl, _, mem_singleton.mpr rfl, rfl⟩
  exact ⟨_, rfl, rfl, hold _ rfl, (mailbox_custody takeover _ rfl).2.1 "a" (hold _ rfl)⟩

end Smalltalk.Mailbox
