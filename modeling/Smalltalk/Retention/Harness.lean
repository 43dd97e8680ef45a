import Smalltalk.Retention.Rules

/-!
# Harness observations under late arrivals

What the readers of an incarnation take from its observations does not depend on the ones that
the rule drops, wherever later observations are inserted.
-/

namespace Smalltalk.Retention

open List

/-! ## The readers -/

def harnessOther (claim : ClaimRecord) : Bool := (fieldStr claim "state").any (· ≠ "working")

def harnessIsWorking (claim : ClaimRecord) : Bool := fieldStr claim "state" = some "working"

def readyWithoutLogin (claim : ClaimRecord) : Bool :=
  harnessReady claim ∧ fieldStr claim "reason" ≠ some "providerAuth"

def workingRun (claims : List ClaimRecord) : Option ClaimRecord :=
  (claims.drop (runStart claims harnessOther)).find? harnessIsWorking

structure IncarnationAnswers where
  ready : Bool
  readyWithoutLogin : Bool
  workingSince : Option Nat

def incarnationAnswers (claims : List ClaimRecord) : IncarnationAnswers :=
  ⟨claims.any harnessReady, claims.any readyWithoutLogin, (workingRun claims).map (·.acceptedAt)⟩

def newestCarrier (claims : List ClaimRecord) (name : String) : Option ClaimRecord :=
  claims.reverse.find? (hasField · name)

/-- Numbered claims of which some are kept, with the arrivals before each of them. -/
def arrive (arrivals : Nat → List ClaimRecord) (keep : Nat → Bool)
    (rows : List (ClaimRecord × Nat)) :
    List ClaimRecord :=
  rows.flatMap fun r => arrivals r.2 ++ if keep r.2 then [r.1] else []

def withArrivals (arrivals : Nat → List ClaimRecord) (keep : Nat → Bool)
    (claims : List ClaimRecord) :
    List ClaimRecord :=
  arrive arrivals keep claims.zipIdx ++ arrivals claims.length

/-! ## Claims that may go -/

def Shadowed (p q : ClaimRecord → Bool) (keep : Nat → Bool) (rows : List (ClaimRecord × Nat)) :
    Prop :=
  ∀ r ∈ rows, p r.1 = true → keep r.2 = true ∨
  ∃ r' ∈ rows, r.2 < r'.2 ∧ q r'.1 = true ∧ keep r'.2 = true

section
variable {arrivals : Nat → List ClaimRecord} {keep : Nat → Bool} {rows : List (ClaimRecord × Nat)}
  {r : ClaimRecord × Nat} {p q : ClaimRecord → Bool} {claims after : List ClaimRecord}

theorem Shadowed.tail (h : Shadowed p q keep (r :: rows)) (hr : (r :: rows).Pairwise (·.2 < ·.2)) :
    Shadowed p q keep rows := by
  intro x hx hp
  refine (h x (mem_cons_of_mem _ hx) hp).imp_right ?_
  rintro ⟨y, hy, hlt, hq⟩
  rcases mem_cons.mp hy with rfl | hy
  · exact absurd (rel_of_pairwise_cons hr hx) hlt.asymm
  · exact ⟨y, hy, hlt, hq⟩

/-- If the first claim goes and has the property, a claim after it is kept. -/
theorem Shadowed.head (h : Shadowed p q keep (r :: rows)) (hk : keep r.2 = false)
    (hp : p r.1 = true) :
    (arrive arrivals keep rows ++ after).any q = true := by
  obtain hk' | ⟨y, hy, hlt, hq, hy'⟩ := h r mem_cons_self hp
  · rw [hk] at hk'
    cases hk'
  · rcases mem_cons.mp hy with rfl | hy
    · exact absurd hlt (lt_irrefl _)
    · refine any_eq_true.mpr ⟨y.1, mem_append_left _ (mem_flatMap.mpr ⟨y, hy, ?_⟩), hq⟩
      simp [hy']

theorem arrive_cons : arrive arrivals keep (r :: rows) ++ after =
    arrivals r.2 ++ ((if keep r.2 then [r.1] else []) ++ (arrive arrivals keep rows ++ after)) := by
  simp [arrive]

theorem any_arrive (h : ∀ r ∈ rows, p r.1 = true → ∃ r' ∈ rows, p r'.1 = true ∧ keep r'.2 = true) :
    (arrive arrivals keep rows ++ after).any p =
      (arrive arrivals (fun _ => true) rows ++ after).any p := by
  rw [any_append, any_append]
  congr 1
  rw [Bool.eq_iff_iff, any_eq_true, any_eq_true]
  simp only [arrive, mem_flatMap, mem_append]
  constructor
  · rintro ⟨c, ⟨r, hr, hc⟩, hp⟩
    refine ⟨c, ⟨r, hr, hc.imp_right fun hc => ?_⟩, hp⟩
    split at hc
    · exact hc
    · cases hc
  · rintro ⟨c, ⟨r, hr, hc | hc⟩, hp⟩
    · exact ⟨c, ⟨r, hr, .inl hc⟩, hp⟩
    · obtain rfl := mem_singleton.mp hc
      obtain ⟨x, hx, hp, hk⟩ := h r hr hp
      exact ⟨x.1, ⟨x, hx, .inr (by simp [hk])⟩, hp⟩

theorem arrive_congr {β : Type} {f : List ClaimRecord → β}
    (hf : ∀ a l l', f l = f l' → f (a ++ l) = f (a ++ l'))
    (hd : ∀ c l, (p c = true → l.any q = true) → f (c :: l) = f l) (hr : rows.Pairwise (·.2 < ·.2))
    (h : Shadowed p q keep rows) :
    f (arrive arrivals keep rows ++ after) = f (arrive arrivals (fun _ => true) rows ++ after) := by
  induction rows with
  | nil => rfl
  | cons r rows ih =>
    have ih := ih (pairwise_cons.mp hr).2 (h.tail hr)
    rw [arrive_cons, arrive_cons]
    refine hf _ _ _ ?_
    cases hk : keep r.2 with
    | true => exact hf _ _ _ ih
    | false =>
      refine Eq.trans ?_ (hf [r.1] _ _ ih)
      exact (hd _ _ fun hp => h.head hk hp).symm

variable {l l' : List ClaimRecord}

theorem find?_reverse_append :
    (l ++ l').reverse.find? p = (l'.reverse.find? p).or (l.reverse.find? p) := by
  rw [reverse_append, find?_append]

/-- The last claim with a property, if a later one is kept for each that goes. -/
theorem find?_reverse_arrive (hr : rows.Pairwise (·.2 < ·.2)) (h : Shadowed p p keep rows) :
    (arrive arrivals keep rows ++ after).reverse.find? p =
      (arrive arrivals (fun _ => true) rows ++ after).reverse.find? p := by
  refine arrive_congr (f := fun l => l.reverse.find? p) (fun a l l' hl => ?_)
    (fun c l hc => ?_) hr h
  · rw [find?_reverse_append, find?_reverse_append, hl]
  · rw [← singleton_append, find?_reverse_append]
    cases hp : p c with
    | false => simp [hp]
    | true =>
      obtain ⟨x, hx, hq⟩ := any_eq_true.mp (hc hp)
      obtain ⟨y, hy⟩ := Option.isSome_iff_exists.mp (find?_isSome.mpr ⟨x, mem_reverse.mpr hx, hq⟩)
      simp [hy]

/-! ## The working run -/

theorem drop_runStart :
    claims.drop (runStart claims p) = (claims.reverse.takeWhile (!p ·)).reverse := by
  unfold runStart rposition
  cases hi : claims.reverse.findIdx? p with
  | none =>
    have hn : ∀ c ∈ claims.reverse, (!p c) = true := by simpa using findIdx?_eq_none_iff.mp hi
    simp [takeWhile_eq_self_iff.mpr hn]
  | some j =>
    obtain ⟨hj, -⟩ := findIdx?_eq_some_iff_getElem.mp hi
    have ht : claims.reverse.findIdx (fun c => !!p c) = j := by
      simpa using (findIdx?_eq_some_iff_findIdx_eq.mp hi).2
    rw [length_reverse] at hj
    have hs : claims.length - 1 - j + 1 = claims.length - j := by omega
    rw [takeWhile_eq_take_findIdx_not, ht, take_reverse, reverse_reverse]
    simp [hs]

theorem workingRun_append : workingRun (l ++ l') =
    if l'.any harnessOther then workingRun l' else (workingRun l).or (workingRun l') := by
  simp only [workingRun, drop_runStart, reverse_append]
  cases ha : l'.any harnessOther with
  | true =>
    obtain ⟨c, hc, ho⟩ := any_eq_true.mp ha
    rw [takeWhile_append, if_neg, if_pos rfl]
    intro hl
    have hs :=
      takeWhile_eq_self_iff.mp (IsPrefix.eq_of_length ( takeWhile_prefix _) hl) c
        (mem_reverse.mpr hc)
    simp [ho] at hs
  | false =>
    have hn : ∀ c ∈ l'.reverse, (!harnessOther c) = true := by simpa using ha
    rw [takeWhile_append_of_pos hn, takeWhile_eq_self_iff.mpr hn, reverse_append, reverse_reverse,
      find?_append]
    rfl

theorem workingRun_arrive (hr : rows.Pairwise (·.2 < ·.2))
    (h : Shadowed (fun c => harnessOther c || harnessIsWorking c) harnessOther keep rows) :
    workingRun (arrive arrivals keep rows ++ after) =
      workingRun (arrive arrivals (fun _ => true) rows ++ after) := by
  refine congrArg Prod.snd
    (arrive_congr (f := fun l => (l.any harnessOther, workingRun l)) (fun a l l' hl => ?_)
    (fun c l hc => ?_) hr h)
  · obtain ⟨ha, hw⟩ := Prod.mk.inj hl
    simp only [any_append, workingRun_append, ha, hw]
  · have he : c :: l = [c] ++ l := rfl
    simp only [he, workingRun_append, any_append]
    cases hp : harnessOther c || harnessIsWorking c with
    | true => simp [hc hp]
    | false =>
      obtain ⟨ho, hw⟩ := Bool.or_eq_false_iff.mp hp
      have hn : workingRun [c] = none := by
        refine find?_eq_none.mpr fun x hx => ?_
        rw [mem_singleton.mp (mem_of_mem_drop hx), hw]
        exact Bool.false_ne_true
      simp [ho, hn]

/-! ## What the rule keeps -/

theorem rposition_eq_some {k : Nat} (h : rposition p claims = some k) :
    ∃ c, claims[k]? = some c ∧ p c = true := by
  obtain ⟨j, hj, rfl⟩ := Option.map_eq_some_iff.mp h
  obtain ⟨hl, hp, -⟩ := findIdx?_eq_some_iff_getElem.mp hj
  rw [getElem_reverse] at hp
  exact ⟨_, getElem?_eq_getElem _, hp⟩

theorem rposition_of_getElem? {i : Nat} {c : ClaimRecord} (h : claims[i]? = some c)
    (hp : p c = true) :
    ∃ k, rposition p claims = some k ∧ i ≤ k := by
  obtain ⟨hl, rfl⟩ := List.getElem?_eq_some_iff.mp h
  cases hj : claims.reverse.findIdx? p with
  | none =>
    have hn := findIdx?_eq_none_iff.mp hj _ (mem_reverse.mpr (getElem_mem hl))
    rw [hp] at hn
    cases hn
  | some j =>
    obtain ⟨hj', -, hm⟩ := findIdx?_eq_some_iff_getElem.mp hj
    refine ⟨claims.length - 1 - j, by rw [rposition, hj]; rfl, ?_⟩
    rw [length_reverse] at hj'
    by_contra hlt
    refine hm (claims.length - 1 - i) (by omega) ?_
    have he : claims.length - 1 - (claims.length - 1 - i) = i := by omega
    simpa [getElem_reverse, he] using hp

theorem shadowed_of_rposition (hk : ∀ k, rposition q claims = some k → keep k = true)
    (h : ∀ i c, claims[i]? = some c → p c = true →
      keep i = true ∨ ∃ k, rposition q claims = some k ∧ i < k) :
    Shadowed p q keep claims.zipIdx := by
  intro r hr hp
  refine (h r.2 r.1 (mem_zipIdx_iff_getElem?.mp hr) hp).imp_right ?_
  rintro ⟨k, hq, hlt⟩
  obtain ⟨c, hc, hq'⟩ := rposition_eq_some hq
  exact ⟨(c, k), mem_zipIdx_iff_getElem?.mpr hc, hlt, hq', hk k hq⟩

theorem shadowed_carriers (hk : ∀ k, rposition p claims = some k → keep k = true) :
    Shadowed p p keep claims.zipIdx := by
  refine shadowed_of_rposition hk fun i c hc hp => ?_
  obtain ⟨k, hq, hle⟩ := rposition_of_getElem? hc hp
  rcases hle.eq_or_lt with rfl | hlt
  · exact .inl (hk i hq)
  · exact .inr ⟨k, hq, hlt⟩

theorem shadowed_working (hk : ∀ k ∈ harnessWorking claims, keep k = true) :
    Shadowed (fun c => harnessOther c || harnessIsWorking c) harnessOther keep claims.zipIdx := by
  have ho : ∀ k, rposition harnessOther claims = some k → keep k = true := fun k hq =>
    hk k (mem_append_left _ (Option.mem_toList.mpr hq))
  refine shadowed_of_rposition ho fun i c hc hp => ?_
  by_cases hq : ∃ k, rposition harnessOther claims = some k ∧ i ≤ k
  · obtain ⟨k, hq, hle⟩ := hq
    rcases hle.eq_or_lt with rfl | hlt
    · exact .inl (ho i hq)
    · exact .inr ⟨k, hq, hlt⟩
  · -- the claim is in the run
    have hw := (Bool.or_eq_true_iff.mp hp).resolve_left fun hp => hq (rposition_of_getElem? hc hp)
    have hs : runStart claims harnessOther ≤ i := by
      unfold runStart
      cases hr : rposition harnessOther claims with
      | none => exact Nat.zero_le i
      | some k => exact not_le.mp fun hle => hq ⟨k, hr, hle⟩
    refine .inl
      (hk i (mem_append_right _ (mem_filter.mpr ⟨mem_filterMap.mpr ?_, decide_eq_true hs⟩)))
    exact ⟨(c, i), mem_zipIdx_iff_getElem?.mpr hc, if_pos hw⟩

theorem any_arrive_of_findIdx? (hk : ∀ k, claims.findIdx? p = some k → keep k = true) :
    (withArrivals arrivals keep claims).any p =
      (withArrivals arrivals (fun _ => true) claims).any p := by
  refine any_arrive fun r hr hp => ?_
  cases hf : claims.findIdx? p with
  | none =>
    rw [findIdx?_eq_none_iff.mp hf _ (mem_of_getElem? (mem_zipIdx_iff_getElem?.mp hr))] at hp
    cases hp
  | some k =>
    obtain ⟨hl, hp, -⟩ := findIdx?_eq_some_iff_getElem.mp hf
    exact ⟨(claims[k], k), mem_zipIdx_iff_getElem?.mpr (getElem?_eq_getElem hl), hp, hk k hf⟩

end

/-- Every reader of an incarnation answers from the kept observations and any arrivals as from all
of them. -/
theorem harness_readers_kept (claims : List ClaimRecord) (arrivals : Nat → List ClaimRecord) :
    let kept := withArrivals arrivals (· ∈ harnessKeep claims) claims
    let all := withArrivals arrivals (fun _ => true) claims
    incarnationAnswers kept = incarnationAnswers all ∧
      ∀ name ∈ harnessOptionalFields, newestCarrier kept name = newestCarrier all name := by
  intro kept all
  have hz : claims.zipIdx.Pairwise (·.2 < ·.2) := by
    rw [← pairwise_map, zipIdx_map_snd]
    exact pairwise_lt_range'
  have hk : ∀ k, k ∈ harnessKeep claims → decide (k ∈ harnessKeep claims) = true :=
    fun k h => decide_eq_true h
  conv at hk =>
    enter [k, 1]
    simp only [harnessKeep, mem_append]
  refine ⟨?_, fun name hn => find?_reverse_arrive hz (shadowed_carriers fun k h => hk k ?_)⟩
  · have hr : kept.any harnessReady = all.any harnessReady := any_arrive_of_findIdx? fun k h =>
      hk k (.inl (.inl (.inl (.inl (.inl (.inr (Option.mem_toList.mpr h)))))))
    have hl : kept.any readyWithoutLogin = all.any readyWithoutLogin :=
      any_arrive_of_findIdx? fun k h =>
      hk k (.inl (.inl (.inl (.inl (.inr (Option.mem_toList.mpr h))))))
    have hw : workingRun kept = workingRun all := workingRun_arrive hz (shadowed_working fun k h =>
      hk k (.inl (.inl (.inl (.inr h)))))
    rw [incarnationAnswers, incarnationAnswers, hr, hl, hw]
  · exact .inl (.inl (.inr (mem_filterMap.mpr ⟨name, hn, h⟩)))

end Smalltalk.Retention
