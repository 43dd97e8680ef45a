import Mathlib.Data.List.Sort
import Mathlib.Data.Finset.Card
import Mathlib.Data.Finset.Dedup

/-!
# Ordered sets

A finite set as the strictly increasing list of its members. Two ordered sets with the same
members are equal.
-/

namespace Smalltalk

open List

structure OrdSet (α : Type) [LinearOrder α] where
  toList : List α
  sorted : toList.Pairwise (· < ·)
  deriving DecidableEq

namespace OrdSet

variable {α : Type} [LinearOrder α]

instance : Membership α (OrdSet α) := ⟨fun s a => a ∈ s.toList⟩

instance (a : α) (s : OrdSet α) : Decidable (a ∈ s) := inferInstanceAs (Decidable (a ∈ s.toList))

variable {a x : α} {s : OrdSet α} {l m : List α}

theorem mem_def : a ∈ s ↔ a ∈ s.toList := Iff.rfl

theorem nodup (s : OrdSet α) : s.toList.Nodup := s.sorted.imp ne_of_lt

theorem toList_ext (hl : l.Pairwise (· < ·)) (hm : m.Pairwise (· < ·)) (h : ∀ a, a ∈ l ↔ a ∈ m) :
    l = m := by
  have hp : l.Perm m := (perm_ext_iff_of_nodup (hl.imp ne_of_lt) (hm.imp ne_of_lt)).mpr h
  exact hp.eq_of_pairwise (fun _ _ _ _ ha hb => absurd ha (lt_asymm hb)) hl hm

theorem ext {t : OrdSet α} (h : ∀ a, a ∈ s ↔ a ∈ t) : s = t := by
  obtain ⟨l, hl⟩ := s
  obtain ⟨m, hm⟩ := t
  obtain rfl : l = m := toList_ext hl hm h
  rfl

instance : EmptyCollection (OrdSet α) := ⟨⟨[], .nil⟩⟩

def insertList (a : α) : List α → List α
  | [] => [a]
  | b :: l => if a < b then a :: b :: l else if a = b then b :: l else b :: insertList a l

theorem mem_insertList : x ∈ insertList a l ↔ x = a ∨ x ∈ l := by
  induction l with
  | nil => simp [insertList]
  | cons b l ih =>
    unfold insertList
    split
    · simp
    · split
      · rename_i heq
        simp [heq]
      · simp only [mem_cons, ih]
        tauto

theorem pairwise_insertList (h : l.Pairwise (· < ·)) : (insertList a l).Pairwise (· < ·) := by
  induction l with
  | nil => simp [insertList]
  | cons b l ih =>
    obtain ⟨hb, hl⟩ := pairwise_cons.mp h
    unfold insertList
    split
    · rename_i ht
      refine pairwise_cons.mpr ⟨fun x hx => ?_, h⟩
      rcases mem_cons.mp hx with rfl | hx
      · exact ht
      · exact ht.trans (hb x hx)
    · rename_i hn
      split
      · exact h
      · rename_i hne
        refine pairwise_cons.mpr ⟨fun x hx => ?_, ih hl⟩
        rcases mem_insertList.mp hx with rfl | hx
        · exact lt_of_le_of_ne (not_lt.mp hn) (Ne.symm hne)
        · exact hb x hx

def insert (s : OrdSet α) (a : α) : OrdSet α :=
  ⟨insertList a s.toList, pairwise_insertList s.sorted⟩

theorem mem_insert : x ∈ s.insert a ↔ x = a ∨ x ∈ s := mem_insertList

def extend (s : OrdSet α) (l : List α) : OrdSet α := l.foldl insert s

theorem mem_extend : ∀ {s : OrdSet α}, x ∈ s.extend l ↔ x ∈ s ∨ x ∈ l := by
  induction l with
  | nil => intro s; simp [extend]
  | cons a l ih =>
    intro s
    rw [show s.extend (a :: l) = (s.insert a).extend l from rfl, ih, mem_insert, mem_cons]
    tauto

def ofList (l : List α) : OrdSet α := extend ∅ l

theorem mem_ofList : x ∈ ofList l ↔ x ∈ l := by
  rw [ofList, mem_extend]
  exact or_iff_right fun h => by cases h

/-- The list of a set is the only list of its members in strictly increasing order. -/
theorem toList_ofList_eq (hm : m.Pairwise (· < ·)) (h : ∀ a, a ∈ l ↔ a ∈ m) :
    (ofList l).toList = m :=
  toList_ext (ofList l).sorted hm fun a => mem_ofList.trans (h a)

theorem toList_ofList_eq_insertionSort (hm : m.Nodup) (h : ∀ a, a ∈ l ↔ a ∈ m) :
    (ofList l).toList = m.insertionSort (· ≤ ·) := by
  apply toList_ofList_eq
  · have hs := pairwise_insertionSort (· ≤ ·) m
    have hn : (m.insertionSort (· ≤ ·)).Nodup := (perm_insertionSort _ m).nodup_iff.mpr hm
    exact (hs.and hn).imp fun ha => lt_of_le_of_ne ha.1 ha.2
  · intro a
    rw [h, mem_insertionSort]

def drop (s : OrdSet α) (n : Nat) : OrdSet α := ⟨s.toList.drop n, s.sorted.drop⟩

def toFinset (s : OrdSet α) : Finset α := ⟨s.toList, s.nodup⟩

@[simp] theorem mem_toFinset : a ∈ s.toFinset ↔ a ∈ s := Iff.rfl

theorem toFinset_inj {t : OrdSet α} : s.toFinset = t.toFinset ↔ s = t := by
  constructor
  · intro h
    apply ext
    intro a
    rw [← mem_toFinset, h, mem_toFinset]
  · intro h
    rw [h]

end OrdSet

end Smalltalk
