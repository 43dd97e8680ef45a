import Mathlib.Data.List.Sort
import Smalltalk.Lib.Texts

/-!
# Held mail in bounded batches

Silent messages wait for a message that wakes their recipient. A page without one carries the newest
of them on, and on the first of these the number of those left out.
-/

namespace Smalltalk.Delivery

open List Bool

/-- `remaining` is the tag `st3-silent-remaining:` with a number, `text` any other one. -/
inductive Tag where
  | remaining (count : Nat)
  | text (text : String)
  deriving DecidableEq

structure MessageView where
  subject : String
  sender : String
  tags : List Tag
  status : String
  createdIndex : Nat
  deriving DecidableEq

def Tag.notice : Tag → Option Nat
  | .remaining count => some count
  | .text _ => none

def Tag.isNotice : Tag → Bool
  | .remaining _ => true
  | .text tag => startsWith tag "st3-silent-remaining:"

def Tag.holds (p : String → Bool) : Tag → Bool
  | .remaining _ => false
  | .text tag => p tag

def reservedEventTag (tag : String) : Bool :=
  ["st3-work:", "st3-work-handoff:", "st3-fault:", "st3-run-report:", "st3-product-wait:",
    "st3-session-start:", "st3-restart-prepare:"].any (startsWith tag ·) || tag = "github-watch" ||
    tag = "st3-provider-capacity-retry"

def alwaysWakes (m : MessageView) : Bool :=
  startsWith m.sender "person/" || startsWith m.sender "external/" ||
    m.tags.any (·.holds reservedEventTag) ||
    startsWith m.sender "daemon/" && m.tags.any (·.holds (· = "launch"))

def isHeld (m : MessageView) : Bool :=
  m.tags.any (·.holds fun t => t = "st3-silent" || t = "st3-fyi") && !alwaysWakes m

def waitsForTurn (m : MessageView) : Bool := m.status = "sent" && isHeld m

def wakes (m : MessageView) : Bool := m.status = "sent" && !isHeld m

def batchLimit : Nat := 8

def notices (messages : List MessageView) : List Nat :=
  messages.flatMap (·.tags.filterMap Tag.notice)

def previous (messages : List MessageView) : Nat := (notices messages).foldr max 0

def clear (m : MessageView) : MessageView := { m with tags := m.tags.filter (!·.isNotice) }

def noticeOf (remaining : Nat) : List Nat := if 0 < remaining then [remaining] else []

def push (remaining : Nat) (m : MessageView) : MessageView :=
  { m with tags := m.tags ++ (noticeOf remaining).map .remaining }

def sorted (messages : List MessageView) : List MessageView :=
  messages.insertionSort fun m m' =>
    m.createdIndex < m'.createdIndex ∨ m.createdIndex = m'.createdIndex ∧ m.subject ≤ m'.subject

def changeFirst (p : MessageView → Bool) (f : MessageView → MessageView) :
    List MessageView → List MessageView
  | [] => []
  | m :: messages => if p m then f m :: messages else m :: changeFirst p f messages

def release (messages : List MessageView) : List MessageView :=
  let waking := messages.any wakes
  let held := sorted (messages.filter waitsForTurn)
  let omitted := held.length - batchLimit
  let selected := (held.reverse.take batchLimit).map (·.subject)
  let messages := messages.filter fun m => !waitsForTurn m || waking && m.subject ∈ selected
  if waking then changeFirst wakes (push (previous messages + omitted)) (messages.map clear)
  else messages

/-- The page as it is offered, and the messages carried on. -/
def releasePage (messages pending : List MessageView) : List MessageView × List MessageView :=
  let pending := pending ++ messages.filter waitsForTurn
  let messages := messages.filter (!waitsForTurn ·)
  if messages.any wakes then (release (pending ++ messages), [])
  else
    let omitted := pending.length - batchLimit
    (messages, (((sorted pending).drop omitted).map clear).modifyHead
      (push (previous pending + omitted)))

def releasePages : List MessageView → List (List MessageView) → List (List MessageView)
  | _, [] => []
  | pending, page :: pages =>
    (releasePage page pending).1 :: releasePages (releasePage page pending).2 pages

/-! ## What the offers should hold -/

def newest (seen : List MessageView) : List MessageView := seen.drop (seen.length - batchLimit)

structure Offered (seen out : List MessageView) : Prop where
  woken : out.any wakes = true
  batch : out.filter waitsForTurn = newest seen
  notice : notices out = noticeOf (seen.length - batchLimit)

def Counted : List MessageView → List (List MessageView) → List (List MessageView) → Prop
  | _, [], [] => True
  | seen, page :: pages, out :: outs =>
    if page.any wakes then Offered (seen ++ page.filter waitsForTurn) out ∧ Counted [] pages outs
    else out.filter waitsForTurn = [] ∧ Counted (seen ++ page.filter waitsForTurn) pages outs
  | _, _, _ => False

/-- No waiting message comes with the waking one once earlier ones have been left out. -/
def NoneLate : List MessageView → List (List MessageView) → Prop
  | _, [] => True
  | seen, page :: pages =>
    if page.any wakes then (seen.length ≤ batchLimit ∨ page.filter waitsForTurn = []) ∧
      NoneLate [] pages
    else NoneLate (seen ++ page.filter waitsForTurn) pages

structure Fresh (messages : List MessageView) : Prop where
  increasing : messages.Pairwise (·.createdIndex < ·.createdIndex)
  distinct : (messages.map (·.subject)).Nodup
  unnoticed : ∀ m ∈ messages, ∀ t ∈ m.tags, t.isNotice = false

section
variable {m : MessageView} {n : Nat} {messages seen new rest page : List MessageView}
  {pages : List (List MessageView)}

theorem clear_of_unnoticed (h : ∀ t ∈ m.tags, t.isNotice = false) : clear m = m := by
  have hf : m.tags.filter (!·.isNotice) = m.tags := filter_eq_self.mpr fun t ht => by simp [h t ht]
  rw [clear, hf]

theorem notices_of_unnoticed (h : ∀ t ∈ m.tags, t.isNotice = false) :
    m.tags.filterMap Tag.notice = [] := by
  refine filterMap_eq_nil_iff.mpr fun t ht => ?_
  have hn := h t ht
  cases t with
  | remaining => cases hn
  | text => rfl

theorem clear_push : clear (push n m) = clear m := by
  have hf : ((noticeOf n).map Tag.remaining).filter (!·.isNotice) = [] := by simp [Tag.isNotice]
  simp only [clear, push, filter_append, hf, append_nil]

theorem isHeld_push : isHeld (push n m) = isHeld m := by
  have hf : ∀ p, ((noticeOf n).map Tag.remaining).any (·.holds p) = false := by simp [Tag.holds]
  simp only [isHeld, alwaysWakes, push, any_append, hf, Bool.or_false]

@[simp] theorem waitsForTurn_push : waitsForTurn (push n m) = waitsForTurn m := by
  rw [waitsForTurn, waitsForTurn, isHeld_push]
  rfl

@[simp] theorem wakes_push : wakes (push n m) = wakes m := by
  rw [wakes, wakes, isHeld_push]
  rfl

theorem notices_push (h : ∀ t ∈ m.tags, t.isNotice = false) :
    (push n m).tags.filterMap Tag.notice = noticeOf n := by
  have hf : Tag.notice ∘ Tag.remaining = some := rfl
  rw [push, filterMap_append, notices_of_unnoticed h, nil_append, filterMap_map, hf, filterMap_some]

theorem notices_append : notices (messages ++ rest) = notices messages ++ notices rest :=
  flatMap_append

theorem not_waits_of_wakes (h : wakes m = true) : waitsForTurn m = false := by
  simp only [wakes, and_eq_true, not_eq_true'] at h
  simp [waitsForTurn, h.2]

theorem previous_noticeOf (h : notices messages = noticeOf n) : previous messages = n := by
  rw [previous, h, noticeOf]
  split <;> simp
  omega

theorem noticeOf_inj {k : Nat} : noticeOf n = noticeOf k ↔ n = k := by
  unfold noticeOf
  split <;> split <;> simp <;> omega

/-! ## The carried messages -/

def carried (seen : List MessageView) : List MessageView :=
  (newest seen).modifyHead (push (seen.length - batchLimit))

theorem Fresh.sublist (h : Fresh messages) (hs : seen <+ messages) : Fresh seen :=
  ⟨h.increasing.sublist hs, h.distinct.sublist (hs.map _), fun m hm => h.unnoticed m (hs.subset hm)⟩

theorem Fresh.map_clear (h : Fresh messages) : messages.map clear = messages := by
  refine (map_congr_left fun m hm => clear_of_unnoticed (h.unnoticed m hm)).trans ?_
  simp

theorem Fresh.notices_eq_nil (h : Fresh messages) : notices messages = [] :=
  flatMap_eq_nil_iff.mpr fun m hm => notices_of_unnoticed (h.unnoticed m hm)

theorem newest_length : (newest seen).length = min seen.length batchLimit := by
  rw [newest, length_drop]
  omega

theorem newest_sublist : newest seen <+ seen := drop_sublist _ _

theorem Fresh.newest_append (h : Fresh (seen ++ new)) : Fresh (newest seen ++ new) :=
  h.sublist (newest_sublist.append_right new)

theorem Fresh.waiting (h : Fresh (seen ++ page)) : Fresh (seen ++ page.filter waitsForTurn) :=
  h.sublist ((Sublist.refl seen).append filter_sublist)

theorem map_carried_append {β : Type} (f : MessageView → β) (hf : ∀ n m, f (push n m) = f m) :
    (carried seen ++ new).map f = (newest seen ++ new).map f := by
  unfold carried
  cases newest seen <;> simp [hf]

theorem length_carried_append :
    (carried seen ++ new).length = min seen.length batchLimit + new.length := by
  rw [carried, length_append, length_modifyHead, newest_length]

/-- The head of the carried messages bears the notice, if it is needed. -/
theorem notices_carried (h : Fresh seen) :
    notices (carried seen) = noticeOf (seen.length - batchLimit) := by
  have hn := h.sublist newest_sublist
  have hl := @newest_length seen
  unfold carried
  cases hc : newest seen with
  | nil =>
    rw [hc] at hl
    have hz : seen.length = 0 := by simp [batchLimit] at hl; omega
    simp [notices, noticeOf, hz]
  | cons m others =>
    rw [hc] at hn
    have ht := (hn.sublist (sublist_cons_self m others)).notices_eq_nil
    rw [modifyHead_cons, ← singleton_append, notices_append, ht, append_nil]
    simp [notices, notices_push (hn.unnoticed m mem_cons_self)]

theorem sorted_carried (h : Fresh (seen ++ new)) :
    sorted (carried seen ++ new) = carried seen ++ new := by
  have hp := pairwise_map.mpr h.newest_append.increasing
  rw [← map_carried_append _ fun _ _ => rfl] at hp
  exact Pairwise.insertionSort_eq ((pairwise_map.mp hp).imp .inl)

theorem newest_append :
    newest (seen ++ new) = (newest seen ++ new).drop
      ((newest seen).length + new.length - batchLimit) := by
  have hle : seen.length - batchLimit ≤ seen.length := Nat.sub_le _ _
  rw [newest, newest_length, newest, ← drop_append_of_le_length hle, drop_drop, length_append]
  congr 1
  omega

/-- The newest of the carried messages and new ones are the newest of all, but for a notice. -/
theorem map_clear_newest (h : Fresh (seen ++ new)) :
    (newest (carried seen ++ new)).map clear = newest (seen ++ new) := by
  have hc : (carried seen ++ new).map clear = newest seen ++ new := by
    rw [map_carried_append _ fun _ _ => clear_push, h.newest_append.map_clear]
  rw [@newest_append seen new, newest, map_drop, hc, length_carried_append, newest_length]

theorem notices_carried_append (h : Fresh (seen ++ new)) :
    notices (carried seen ++ new) = noticeOf (seen.length - batchLimit) := by
  rw [notices_append, notices_carried (h.sublist (sublist_append_left _ _)),
    (h.sublist (sublist_append_right _ _)).notices_eq_nil, append_nil]

theorem carried_append (h : Fresh (seen ++ new)) : carried (seen ++ new) =
    (((sorted (carried seen ++ new)).drop ((carried seen ++ new).length - batchLimit)).map
      clear).modifyHead
      (push (previous (carried seen ++ new) + ((carried seen ++ new).length - batchLimit))) := by
  rw [sorted_carried h, ← newest, map_clear_newest h,
    previous_noticeOf (notices_carried_append h), carried]
  congr 2
  rw [length_carried_append, length_append]
  omega

/-! ## One page -/

theorem filter_subject_mem_drop (h : (messages.map (·.subject)).Nodup) (k : Nat) :
    messages.filter (fun m => m.subject ∈ (messages.drop k).map (·.subject)) = messages.drop k := by
  have ht := take_append_drop k messages
  rw [← ht, map_append] at h
  have hd := disjoint_of_nodup_append h
  generalize messages.drop k = kept at ht hd ⊢
  rw [← ht, filter_append, filter_eq_nil_iff.mpr, nil_append, filter_eq_self.mpr]
  · exact fun m hm => by simpa using ⟨m, hm, rfl⟩
  · intro m hm hs
    exact hd (mem_map_of_mem hm) (by simpa using hs)

theorem changeFirst_append (h : ∀ m ∈ messages, wakes m = false) (f : MessageView → MessageView) :
    changeFirst wakes f (messages ++ rest) = messages ++ changeFirst wakes f rest := by
  induction messages with
  | nil => rfl
  | cons m others ih =>
    rw [cons_append, changeFirst, h m mem_cons_self, ih fun x hx => h x (mem_cons_of_mem _ hx)]
    rfl

theorem changeFirst_push (h : ∀ m ∈ rest, waitsForTurn m = false) (hw : rest.any wakes = true)
    (hn : ∀ m ∈ rest, ∀ t ∈ m.tags, t.isNotice = false) :
    (changeFirst wakes (push n) rest).any wakes = true ∧
      (changeFirst wakes (push n) rest).filter waitsForTurn = [] ∧
      notices (changeFirst wakes (push n) rest) = noticeOf n := by
  induction rest with
  | nil => cases hw
  | cons m others ih =>
    have hm := hn m mem_cons_self
    have ht : notices others = [] :=
      flatMap_eq_nil_iff.mpr fun x hx => notices_of_unnoticed (hn x (mem_cons_of_mem _ hx))
    have hf : others.filter waitsForTurn = [] :=
      filter_eq_nil_iff.mpr fun x hx => by simp [h x (mem_cons_of_mem _ hx)]
    have hh := h m mem_cons_self
    unfold changeFirst
    split
    · rename_i hm'
      rw [← singleton_append, notices_append, ht]
      simp [hm', hh, hf, notices, notices_push hm]
    · rename_i hm'
      obtain ⟨ha, hb, hc⟩ := ih (fun x hx => h x (mem_cons_of_mem _ hx)) (by simpa [hm'] using hw)
        fun x hx => hn x (mem_cons_of_mem _ hx)
      rw [← singleton_append, notices_append, hc]
      simp [ha, hh, hb, notices, notices_of_unnoticed hm]

theorem release_append {held : List MessageView} (hs : sorted held = held)
    (hd : (held.map (·.subject)).Nodup) (hh : ∀ m ∈ held, waitsForTurn m = true) (hr : Fresh rest)
    (ho : ∀ m ∈ rest, waitsForTurn m = false) (hw : rest.any wakes = true) :
    release (held ++ rest) = changeFirst wakes
      (push (previous (newest held) + (held.length - batchLimit)))
        ((newest held).map clear ++ rest) := by
  have hf : (held ++ rest).filter waitsForTurn = held := by
    rw [filter_append, filter_eq_self.mpr hh,
      filter_eq_nil_iff.mpr fun m hm => by simp [ho m hm], append_nil]
  have ha : (held ++ rest).any wakes = true := by rw [any_append, hw, Bool.or_true]
  have hk : (held ++ rest).filter (fun m => !waitsForTurn m ||
      decide (m.subject ∈ (held.reverse.take batchLimit).map (·.subject))) =
          newest held ++ rest := by
    have hl : rest.filter (fun m => !waitsForTurn m ||
        decide (m.subject ∈ (held.reverse.take batchLimit).map (·.subject))) = rest :=
      filter_eq_self.mpr fun m hm => by simp [ho m hm]
    rw [filter_append, hl, newest, ← filter_subject_mem_drop hd]
    congr 1
    refine filter_congr fun m hm => ?_
    simp only [hh m hm, take_reverse, map_reverse, mem_reverse]
    rfl
  have hp : previous (newest held ++ rest) = previous (newest held) := by
    rw [previous, notices_append, hr.notices_eq_nil, append_nil, previous]
  rw [release]
  simp only [ha, hf, hs, if_true, Bool.true_and, hk, hp]
  rw [map_append, hr.map_clear]

/-- The page that wakes offers the newest of all seen, with a notice that counts what was read and
what is left out now. -/
theorem releasePage_waking (hf : Fresh (seen ++ page)) (hs : ∀ m ∈ seen, waitsForTurn m = true)
    (hw : page.any wakes = true) :
    ∃ out n, releasePage page (carried seen) = (out, []) ∧ out.any wakes = true ∧
      out.filter waitsForTurn = newest (seen ++ page.filter waitsForTurn) ∧
        notices out = noticeOf n ∧
          n = previous (newest (carried seen ++ page.filter waitsForTurn)) +
          ((carried seen ++ page.filter waitsForTurn).length - batchLimit) := by
  have hn := hf.waiting
  have hr :=
    (hf.sublist (sublist_append_right _ _)).sublist (filter_sublist (p := (!waitsForTurn ·)))
  have ho : ∀ m ∈ page.filter (!waitsForTurn ·), waitsForTurn m = false := fun m hm => by
    simpa using (mem_filter.mp hm).2
  have hw' : (page.filter (!waitsForTurn ·)).any wakes = true := by
    obtain ⟨m, hm, hwakes⟩ := any_eq_true.mp hw
    exact any_eq_true.mpr ⟨m, mem_filter.mpr ⟨hm, by simp [not_waits_of_wakes hwakes]⟩, hwakes⟩
  have ha : ∀ m ∈ seen ++ page.filter waitsForTurn, waitsForTurn m = true := fun m hm =>
    (mem_append.mp hm).elim (hs m) fun hm => (mem_filter.mp hm).2
  have he : releasePage page (carried seen) =
      (release (carried seen ++ page.filter waitsForTurn ++ page.filter (!waitsForTurn ·)),
        []) := by
    simp only [releasePage, hw', if_true]
  rw [he]
  clear he
  generalize page.filter waitsForTurn = new,
    page.filter (!waitsForTurn ·) = rest at hn hr ho hw' ha ⊢
  have hd : ((carried seen ++ new).map (·.subject)).Nodup := by
    rw [map_carried_append _ fun _ _ => rfl]
    exact hn.newest_append.distinct
  have hc : ∀ m ∈ carried seen ++ new, waitsForTurn m = true := by
    rw [← forall_mem_map (P := (· = true)), map_carried_append _ fun _ _ => waitsForTurn_push,
      forall_mem_map]
    exact fun m hm => ha m ((newest_sublist.append_right new).subset hm)
  have hq : ∀ m ∈ newest (seen ++ new), wakes m = false := fun m hm =>
    eq_false_iff.mpr fun hwakes => by
      simpa [not_waits_of_wakes hwakes] using ha m (newest_sublist.subset hm)
  have hk : (newest (seen ++ new)).filter waitsForTurn = newest (seen ++ new) :=
    filter_eq_self.mpr fun m hm => ha m (newest_sublist.subset hm)
  obtain ⟨h1, h2, h3⟩ := @changeFirst_push (previous (newest (carried seen ++ new)) +
    ((carried seen ++ new).length - batchLimit)) rest ho hw' hr.unnoticed
  refine ⟨_, _, rfl, ?_, ?_, ?_, rfl⟩ <;>
    rw [release_append (sorted_carried hn) hd hc hr ho hw', map_clear_newest hn,
      changeFirst_append hq]
  · rw [any_append, h1, Bool.or_true]
  · rw [filter_append, h2, hk, append_nil]
  · rw [notices_append, h3, (hn.sublist newest_sublist).notices_eq_nil, nil_append]

theorem releasePage_quiet (hf : Fresh (seen ++ page)) (hw : page.any wakes = false) :
    releasePage page (carried seen) =
      (page.filter (!waitsForTurn ·), carried (seen ++ page.filter waitsForTurn)) := by
  have hn : (page.filter (!waitsForTurn ·)).any wakes = false := by
    rw [any_eq_false] at hw ⊢
    exact fun m hm => hw m (mem_of_mem_filter hm)
  rw [releasePage, carried_append hf.waiting]
  simp only [hn]
  rfl

/-- The notice is right unless the message that bears it is dropped. -/
theorem previous_newest_iff (h : Fresh (seen ++ new)) :
    noticeOf (previous (newest (carried seen ++ new)) +
      ((carried seen ++ new).length - batchLimit)) =
      noticeOf ((seen ++ new).length - batchLimit) ↔ seen.length ≤ batchLimit ∨ new = [] := by
  rw [noticeOf_inj, length_carried_append, length_append]
  have hk := notices_carried_append h
  by_cases hz : min seen.length batchLimit + new.length ≤ batchLimit
  · rw [newest, length_carried_append, Nat.sub_eq_zero_of_le hz, drop_zero, previous_noticeOf hk,
      ← length_eq_zero_iff]
    omega
  · -- the first of the carried messages is dropped, and no other one has a notice
    have ht : (carried seen ++ new).tail <+ seen ++ new := by
      refine Sublist.trans ?_ (newest_sublist.append_right new)
      unfold carried
      cases newest seen with
      | nil => exact tail_sublist new
      | cons m others => exact sublist_cons_self m (others ++ new)
    obtain ⟨k, hk⟩ := Nat.exists_eq_add_of_lt (not_le.mp hz)
    have hd : newest (carried seen ++ new) = (carried seen ++ new).tail.drop k := by
      rw [newest, length_carried_append, hk, drop_tail]
      congr 1
      omega
    have hp := (h.sublist ((drop_sublist k _).trans ht)).notices_eq_nil
    rw [hd, previous, hp, foldr_nil, ← length_eq_zero_iff]
    omega

theorem counted_iff_aux (hf : Fresh (seen ++ pages.flatten))
    (hs : ∀ m ∈ seen, waitsForTurn m = true) :
    Counted seen pages (releasePages (carried seen) pages) ↔ NoneLate seen pages := by
  induction pages generalizing seen with
  | nil => exact Iff.rfl
  | cons page pages ih =>
    rw [flatten_cons, ← append_assoc] at hf
    have hp := hf.sublist (sublist_append_left _ pages.flatten)
    unfold releasePages Counted NoneLate
    split
    · rename_i hw
      obtain ⟨out, n, ho, ha, hb, hc, rfl⟩ := releasePage_waking hp hs hw
      have hr := @ih [] (hf.sublist (sublist_append_right _ _)) (by simp)
      have hn := previous_newest_iff hp.waiting
      rw [ho]
      refine and_congr ⟨fun h => hn.mp (hc ▸ h.notice), fun h => ⟨ha, hb, hc.trans (hn.mpr h)⟩⟩ hr
    · rename_i hw
      rw [releasePage_quiet hp (eq_false_iff.mpr hw)]
      refine (and_iff_right (filter_eq_nil_iff.mpr
        fun m hm => by simpa using (mem_filter.mp hm).2)).trans (ih ?_ ?_)
      · exact hf.sublist (((Sublist.refl seen).append filter_sublist).append_right _)
      · exact fun m hm => (mem_append.mp hm).elim (hs m) fun hm => (mem_filter.mp hm).2

end

/-- The offers count what they leave out exactly if no waiting message comes with the waking one
after earlier ones have been left out. -/
theorem held_mail_counted_iff (pages : List (List MessageView)) (h : Fresh pages.flatten) :
    Counted [] pages (releasePages [] pages) ↔ NoneLate [] pages :=
  @counted_iff_aux [] pages h (by simp)

def agentMessage (index : Nat) (tags : List Tag) : MessageView :=
  ⟨String.ofList (replicate index 'm'), "agent/example/writer", tags, "sent", index⟩

def silentPage : List MessageView := (range 9).map (agentMessage · [.text "st3-silent"])

def wakingPage : List MessageView := [agentMessage 10 []]

theorem silentPage_counted : Fresh [silentPage, wakingPage].flatten ∧
    Counted [] [silentPage, wakingPage] (releasePages [] [silentPage, wakingPage]) := by
  have hf : Fresh [silentPage, wakingPage].flatten :=
    ⟨by decide +kernel, by decide +kernel, by decide +kernel⟩
  refine ⟨hf, (held_mail_counted_iff _ hf).mpr ?_⟩
  rw [NoneLate, if_neg (by decide +kernel), NoneLate, if_pos (by decide +kernel)]
  exact ⟨.inr (by decide +kernel), trivial⟩

/-- One of nine silent messages has been left out when another one comes with the waking message. -/
def latePage : List MessageView := agentMessage 9 [.text "st3-silent"] :: wakingPage

theorem latePage_miscounted : Fresh [silentPage, latePage].flatten ∧
    (releasePages [] [silentPage, latePage]).map
      (fun out => ((out.filter waitsForTurn).length, notices out)) =
      [(0, []), (8, [1])] ∧ ¬ Counted [] [silentPage, latePage]
        (releasePages [] [silentPage, latePage]) := by
  refine ⟨⟨by decide +kernel, by decide +kernel, by decide +kernel⟩, by decide +kernel, fun h => ?_⟩
  rw [Counted.eq_def] at h
  obtain ⟨-, h⟩ := h
  have hn := h.1.notice
  revert hn
  decide +kernel

end Smalltalk.Delivery
