import Mathlib

/-!
# Encodings that end themselves

An encoding is framed when a reader who sees the symbols of a value followed by anything
can tell the value and what follows. Framed encodings can be put one after the other.
-/

namespace Smalltalk

open List

section
variable {α β σ : Type*}

def Framed (f : α → List σ) : Prop :=
  ∀ ⦃a b : α⦄ ⦃x y : List σ⦄, f a ++ x = f b ++ y → a = b ∧ x = y

variable {f : α → List σ} {stop : σ}

theorem framed_of_prefix_free (h : ∀ a b, f a <+: f b → a = b) : Framed f := by
  intro a b x y ha
  have heq : a = b := by
    rcases prefix_or_prefix_of_prefix (prefix_append (f a) x) (ha ▸ prefix_append (f b) y)
      with hp | hp
    · exact h a b hp
    · exact (h b a hp).symm
  subst heq
  exact ⟨rfl, append_cancel_left ha⟩

theorem Framed.eq_of_begins (h : Framed f) {a b : α} (hp : f a <+: f b) : a = b := by
  obtain ⟨x, hx⟩ := hp
  exact (h (x := x) (y := []) (by rw [hx, append_nil])).1

theorem Framed.map {τ : Type*} (h : Framed f) {g : σ → τ} (hg : Function.Injective g) :
    Framed fun a => (f a).map g := by
  refine framed_of_prefix_free fun a b hp => h.eq_of_begins ?_
  obtain ⟨x, hx⟩ := hp
  obtain ⟨l, m, hm, hl, -⟩ := map_eq_append_iff.mp hx.symm
  rw [hm, (map_injective_iff.mpr hg) hl]
  exact prefix_append (f a) m

/-- A text of framed codes ends at a symbol with which no code begins. -/
theorem Framed.terminated {code : α → List σ} (h : Framed code)
    (ht : ∀ a, ∃ c r, code a = c :: r ∧ c ≠ stop) :
    Framed fun s : List α => s.flatMap code ++ [stop] := by
  intro s
  induction s with
  | nil =>
    intro t x y hs
    cases t with
    | nil => simpa using hs
    | cons b t =>
      obtain ⟨c, r, hc, hn⟩ := ht b
      simp only [flatMap_nil, nil_append, flatMap_cons, hc, cons_append, cons.injEq] at hs
      exact absurd hs.1.symm hn
  | cons a s ih =>
    intro t x y hs
    cases t with
    | nil =>
      obtain ⟨c, r, hc, hn⟩ := ht a
      simp only [flatMap_nil, nil_append, flatMap_cons, hc, cons_append, cons.injEq] at hs
      exact absurd hs.1 hn
    | cons b t =>
      simp only [flatMap_cons, append_assoc] at hs
      obtain ⟨rfl, hr⟩ := h hs
      obtain ⟨rfl, hx⟩ := ih (by simpa only [append_assoc] using hr)
      exact ⟨rfl, hx⟩

theorem append_stop_inj {a b x y : List σ} (ha : stop ∉ a) (hb : stop ∉ b)
    (h : a ++ stop :: x = b ++ stop :: y) : a = b ∧ x = y := by
  induction a generalizing b with
  | nil =>
    cases b with
    | nil => simpa using h
    | cons d b =>
      obtain ⟨rfl, -⟩ : stop = d ∧ x = b ++ stop :: y := by simpa using h
      exact absurd mem_cons_self hb
  | cons c a ih =>
    cases b with
    | nil =>
      obtain ⟨rfl, -⟩ : c = stop ∧ a ++ stop :: x = y := by simpa using h
      exact absurd mem_cons_self ha
    | cons d b =>
      obtain ⟨rfl, hr⟩ : c = d ∧ a ++ stop :: x = b ++ stop :: y := by simpa using h
      obtain ⟨rfl, hx⟩ :=
        ih (fun hm => ha (mem_cons_of_mem _ hm)) (fun hm => hb (mem_cons_of_mem _ hm)) hr
      exact ⟨rfl, hx⟩

/-- What holds no stop symbol ends at one. -/
theorem framed_until (h : Function.Injective f) (hs : ∀ a, stop ∉ f a) :
    Framed fun a => f a ++ [stop] := by
  intro a b x y ha
  simp only [append_assoc, singleton_append] at ha
  obtain ⟨hf, hx⟩ := append_stop_inj (hs a) (hs b) ha
  exact ⟨h hf, hx⟩

end

section
variable {σ : Type*} {newline : σ}

def lines (newline : σ) (parts : List (List σ)) : List σ :=
  parts.flatMap fun part => newline :: part

theorem count_lines [DecidableEq σ] (parts : List (List σ)) :
    (lines newline parts).count newline = parts.length + (parts.map (count newline)).sum := by
  induction parts with
  | nil => rfl
  | cons p parts ih =>
    rw [lines, flatMap_cons, count_append, ← lines, ih, count_cons_self, length_cons,
      map_cons, sum_cons]
    omega

variable {a b : List σ} {l m : List (List σ)}

theorem lines_inj_of_notMem (ha : newline ∉ a) (hb : newline ∉ b)
    (hl : ∀ part ∈ l, newline ∉ part) (hm : ∀ part ∈ m, newline ∉ part) (hn : l.length = m.length)
    (h : a ++ lines newline l = b ++ lines newline m) : a = b ∧ l = m := by
  induction l generalizing a b m with
  | nil =>
    obtain rfl := eq_nil_of_length_eq_zero hn.symm
    simpa [lines] using h
  | cons c l ih =>
    obtain ⟨d, m, rfl⟩ := exists_cons_of_length_pos (l := m) (by rw [← hn]; simp)
    simp only [lines, flatMap_cons, cons_append] at h
    obtain ⟨rfl, hr⟩ := append_stop_inj ha hb h
    obtain ⟨rfl, rfl⟩ := ih (hl c mem_cons_self) (hm d mem_cons_self)
      (fun p hp => hl p (mem_cons_of_mem _ hp)) (fun p hp => hm p (mem_cons_of_mem _ hp))
      (by simpa using hn) hr
    exact ⟨rfl, rfl⟩

theorem count_lines_of_notMem [DecidableEq σ] (hl : ∀ part ∈ l, newline ∉ part) :
    (lines newline l).count newline = l.length := by
  have hs : (l.map (List.count newline)).sum = 0 := by
    rw [List.sum_eq_zero_iff_forall_eq_nat]
    intro n hn
    obtain ⟨p, hp, rfl⟩ := mem_map.mp hn
    exact count_eq_zero.mpr (hl p hp)
  rw [count_lines, hs, Nat.add_zero]

/-- Lines with no newline in them are told apart from any lines of the same number: a newline inside
a part would be one too many. -/
theorem lines_inj [DecidableEq σ] (ha : newline ∉ a) (hl : ∀ p ∈ l, newline ∉ p)
    (hlen : l.length = m.length) (h : a ++ lines newline l = b ++ lines newline m) :
    a = b ∧ l = m := by
  have hc := congrArg (List.count newline) h
  rw [count_append, count_append, count_lines_of_notMem hl, count_lines, count_eq_zero.mpr ha,
    hlen] at hc
  have hb0 : List.count newline b = 0 := by omega
  have hm0 : (m.map (List.count newline)).sum = 0 := by omega
  refine lines_inj_of_notMem ha (count_eq_zero.mp hb0) hl (fun p hp => ?_) hlen h
  rw [List.sum_eq_zero_iff_forall_eq_nat] at hm0
  exact count_eq_zero.mp (hm0 _ (mem_map_of_mem hp))

/-- Lines with no newline in them are as many as the newlines. -/
theorem length_eq_of_lines [DecidableEq σ] (ha : newline ∉ a) (hb : newline ∉ b)
    (hl : ∀ p ∈ l, newline ∉ p) (hm : ∀ p ∈ m, newline ∉ p)
    (h : a ++ lines newline l = b ++ lines newline m) : l.length = m.length := by
  have hc := congrArg (List.count newline) h
  rwa [count_append, count_append, count_lines_of_notMem hl, count_lines_of_notMem hm,
    count_eq_zero.mpr ha, count_eq_zero.mpr hb, Nat.zero_add, Nat.zero_add] at hc

end

section
def shortEscapes : List (Char × List Char) :=
  [('"', ['\\', '"']), ('\\', ['\\', '\\']), ('\n', ['\\', 'n']), ('\r', ['\\', 'r']),
    ('\t', ['\\', 't']), ('\x08', ['\\', 'b']), ('\x0c', ['\\', 'f'])]

def hexLetters : List Char :=
  ['0', '1', '2', '3', '4', '5', '6', '7', '8', '9', 'a', 'b', 'c', 'd', 'e', 'f']

def controlEscapes : List (Char × List Char) :=
  ['0', '1'].zipIdx.flatMap fun (high, i) => hexLetters.zipIdx.map fun (low, j) =>
    (Char.ofNat (16 * i + j), ['\\', 'u', '0', '0', high, low])

def jsonEscapes : List (Char × List Char) := shortEscapes ++ controlEscapes

def escapeChar (c : Char) : List Char := (jsonEscapes.lookup c).getD [c]

theorem jsonEscapes_prefix_free : ∀ p ∈ jsonEscapes, ∀ q ∈ jsonEscapes,
    escapeChar p.1 <+: escapeChar q.1 → p.1 = q.1 := by
  decide +kernel

theorem escapeChar_of_mem :
    ∀ p ∈ jsonEscapes, (escapeChar p.1).head? = some '\\' ∧ '\n' ∉ escapeChar p.1 := by
  decide +kernel

theorem escapeChar_cases (c : Char) :
    (∃ p ∈ jsonEscapes, p.1 = c) ∨ (escapeChar c = [c] ∧ c ≠ '\\' ∧ c ≠ '"' ∧ c ≠ '\n') := by
  by_cases h : ∃ p ∈ jsonEscapes, p.1 = c
  · exact .inl h
  · have hl : jsonEscapes.lookup c = none := by
      rw [lookup_eq_none_iff]
      intro p hp
      simpa using fun heq => h ⟨p, hp, heq.symm⟩
    refine .inr ⟨by rw [escapeChar, hl, Option.getD_none], ?_, ?_, ?_⟩ <;> rintro rfl <;>
      exact h (by decide +kernel)

theorem head_escapeChar (c : Char) : ∃ d r, escapeChar c = d :: r ∧ d ≠ '"' ∧
    (d = '\\' ∧ (∃ p ∈ jsonEscapes, p.1 = c) ∨ d = c ∧ r = [] ∧ c ≠ '\\') := by
  rcases escapeChar_cases c with ⟨p, hp, rfl⟩ | ⟨hc, hb, hq, -⟩
  · obtain ⟨r, hr⟩ := head?_eq_some_iff.mp (escapeChar_of_mem p hp).1
    exact ⟨_, r, hr, by decide, .inl ⟨rfl, p, hp, rfl⟩⟩
  · exact ⟨c, [], hc, hq, .inr ⟨rfl, rfl, hb⟩⟩

theorem newline_notMem_escapeChar (c : Char) : '\n' ∉ escapeChar c := by
  rcases escapeChar_cases c with ⟨p, hp, rfl⟩ | ⟨hc, -, -, hn⟩
  · exact (escapeChar_of_mem p hp).2
  · rw [hc, mem_singleton]
    exact hn.symm

theorem framed_escapeChar : Framed escapeChar := by
  refine framed_of_prefix_free fun c d hp => ?_
  obtain ⟨x, xs, hx, -, hc⟩ := head_escapeChar c
  obtain ⟨y, ys, hy, -, hd⟩ := head_escapeChar d
  have hxy : x = y := by
    rw [hx, hy] at hp
    exact (cons_prefix_cons.mp hp).1
  subst hxy
  rcases hc with ⟨rfl, p, hm, rfl⟩ | ⟨rfl, -, hne⟩
  · rcases hd with ⟨-, q, hq, rfl⟩ | ⟨rfl, -, hb⟩
    · exact jsonEscapes_prefix_free p hm q hq hp
    · exact absurd rfl hb
  · rcases hd with ⟨rfl, -⟩ | ⟨rfl, -, -⟩
    · exact absurd rfl hne
    · rfl

end

end Smalltalk
