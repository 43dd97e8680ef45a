import Mathlib

/-!
# Encodings that keep an order

Bytes are compared one by one, a list before its extensions. An encoding keeps an order
when the bytes of two values, whatever follows them, compare as the values do, and as what
follows where the values are equal. Such encodings can be put one after the other.
-/

namespace Smalltalk

open List Nat UInt8

abbrev Text := List UInt8

def compareByte (a b : UInt8) : Ordering := compare a.toNat b.toNat

/-- `memcmp`, a shorter list first. -/
def compareBytes : List UInt8 → List UInt8 → Ordering := List.compareLex compareByte

@[simp] theorem compareBytes_nil_nil : compareBytes [] [] = .eq := rfl

@[simp] theorem compareBytes_nil_cons (a : UInt8) (l : List UInt8) :
    compareBytes [] (a :: l) = .lt := rfl

@[simp] theorem compareBytes_cons_nil (a : UInt8) (l : List UInt8) :
    compareBytes (a :: l) [] = .gt := rfl

@[simp] theorem compareBytes_cons_cons (a b : UInt8) (l m : List UInt8) :
    compareBytes (a :: l) (b :: m) = (compareByte a b).then (compareBytes l m) :=
  List.compareLex_cons_cons

theorem compareByte_eq_eq {a b : UInt8} : compareByte a b = .eq ↔ a = b := by
  rw [compareByte, Nat.compare_eq_eq, UInt8.toNat_inj]

theorem compareByte_swap (a b : UInt8) : (compareByte a b).swap = compareByte b a :=
  Nat.compare_swap _ _

theorem compareBytes_eq_eq {l : List UInt8} :
    ∀ {m : List UInt8}, compareBytes l m = .eq ↔ l = m := by
  induction l with
  | nil =>
    intro m
    cases m <;> simp
  | cons a l ih =>
    intro m
    cases m with
    | nil => simp
    | cons b m =>
      rw [compareBytes_cons_cons, Ordering.then_eq_eq, compareByte_eq_eq, ih, List.cons.injEq]

theorem compareBytes_swap (l : List UInt8) : ∀ m, (compareBytes l m).swap = compareBytes m l := by
  induction l with
  | nil =>
    intro m
    cases m <;> rfl
  | cons a l ih =>
    intro m
    cases m with
    | nil => rfl
    | cons b m =>
      rw [compareBytes_cons_cons, compareBytes_cons_cons, Ordering.swap_then, compareByte_swap, ih]

section
variable {α : Type} {cmp : α → α → Ordering}

/-- Lists of one length compare first, then what follows them. -/
theorem compareLex_append {l : List α} : ∀ {m : List α}, l.length = m.length → ∀ r r' : List α,
    List.compareLex cmp (l ++ r) (m ++ r') =
      (List.compareLex cmp l m).then (List.compareLex cmp r r') := by
  induction l with
  | nil =>
    intro m h r r'
    obtain rfl : m = [] := eq_nil_of_length_eq_zero h.symm
    rfl
  | cons a l ih =>
    intro m h r r'
    cases m with
    | nil => simp at h
    | cons b m =>
      simp only [cons_append, List.compareLex_cons_cons, ih (by simpa using h), Ordering.then_assoc]

theorem compareLex_map {β : Type} {cmp' : β → β → Ordering} {f : α → β} {l : List α} :
    ∀ {m : List α}, (∀ a ∈ l, ∀ b ∈ m, cmp' (f a) (f b) = cmp a b) →
      List.compareLex cmp' (l.map f) (m.map f) = List.compareLex cmp l m := by
  induction l with
  | nil =>
    intro m _
    cases m <;> rfl
  | cons a l ih =>
    intro m h
    cases m with
    | nil => rfl
    | cons b m =>
      rw [map_cons, map_cons, List.compareLex_cons_cons, List.compareLex_cons_cons,
        h a mem_cons_self b mem_cons_self,
        ih fun a ha b hb => h a (mem_cons_of_mem _ ha) b (mem_cons_of_mem _ hb)]

end

/-! ## Numbers, highest digit first -/

def bigEndian (base : Nat) : Nat → Nat → List Nat
  | 0, _ => []
  | width + 1, n => n / base ^ width % base :: bigEndian base width n

theorem length_bigEndian (base : Nat) (width n : Nat) :
    (bigEndian base width n).length = width := by
  induction width with
  | zero => rfl
  | succ width ih => simp [bigEndian, ih]

variable {base : Nat} {digits : List Nat}

theorem bigEndian_lt (hb : 0 < base) (w n : Nat) : ∀ d ∈ bigEndian base w n, d < base := by
  induction w with
  | zero => intro d h; cases h
  | succ w ih =>
    intro d h
    rcases mem_cons.mp h with rfl | h
    · exact mod_lt _ hb
    · exact ih d h

theorem compare_digits {low low' size : Nat} (hw : low < size) (hw' : low' < size) (hi hi' : Nat) :
    compare (hi * size + low) (hi' * size + low') = (compare hi hi').then (compare low low') := by
  rcases lt_trichotomy hi hi' with ht | rfl | hg
  · have hl : (hi + 1) * size ≤ hi' * size := mul_le_mul_right size ht
    rw [Nat.compare_eq_lt.mpr ht, Nat.compare_eq_lt.mpr (by rw [Nat.add_mul] at hl; omega)]
    rfl
  · rw [Nat.compare_eq_eq.mpr rfl]
    change _ = compare low low'
    rcases lt_trichotomy low low' with h | rfl | h
    · rw [Nat.compare_eq_lt.mpr h, Nat.compare_eq_lt.mpr (by omega)]
    · rw [Nat.compare_eq_eq.mpr rfl, Nat.compare_eq_eq.mpr rfl]
    · rw [Nat.compare_eq_gt.mpr h, Nat.compare_eq_gt.mpr (by omega)]
  · have hl : (hi' + 1) * size ≤ hi * size := mul_le_mul_right size hg
    rw [Nat.compare_eq_gt.mpr hg, Nat.compare_eq_gt.mpr (by rw [Nat.add_mul] at hl; omega)]
    rfl

theorem mod_pow_succ_digits (base width n : Nat) :
    n % base ^ (width + 1) = n / base ^ width % base * base ^ width + n % base ^ width := by
  rw [pow_succ, mod_mul, mul_comm, add_comm]

theorem compare_bigEndian (hb : 0 < base) (width n m : Nat) :
    List.compareLex compare (bigEndian base width n) (bigEndian base width m) =
      compare (n % base ^ width) (m % base ^ width) := by
  induction width with
  | zero => simp [bigEndian, mod_one]
  | succ width ih =>
    have hp : 0 < base ^ width := Nat.pow_pos hb
    rw [bigEndian, bigEndian, List.compareLex_cons_cons, ih, mod_pow_succ_digits,
      mod_pow_succ_digits, compare_digits (mod_lt _ hp) (mod_lt _ hp)]

def spell (base : Nat) (digits : List Nat) : Nat :=
  digits.foldl (fun value digit => value * base + digit) 0

theorem foldl_spell (base : Nat) (width n : Nat) : ∀ value,
    (bigEndian base width n).foldl (fun value d => value * base + d) value =
      value * base ^ width + n % base ^ width := by
  induction width with
  | zero => intro value; simp [bigEndian, mod_one]
  | succ width ih =>
    intro value
    rw [bigEndian, foldl_cons, ih, mod_pow_succ_digits]
    ring

theorem spell_bigEndian (base width n : Nat) :
    spell base (bigEndian base width n) = n % base ^ width := by
  simp [spell, foldl_spell]

theorem foldl_digits_lt (h : ∀ digit ∈ digits, digit < base) : ∀ value,
    digits.foldl (fun value digit => value * base + digit) value <
      (value + 1) * base ^ digits.length := by
  induction digits with
  | nil => intro value; simp
  | cons digit digits ih =>
    intro value
    have hg : digit < base := h digit mem_cons_self
    rw [foldl_cons, length_cons]
    calc digits.foldl (fun value digit => value * base + digit) (value * base + digit)
        < (value * base + digit + 1) * base ^ digits.length :=
          ih (fun d hd => h d (mem_cons_of_mem _ hd)) _
      _ ≤ ((value + 1) * base) * base ^ digits.length := mul_le_mul_right _ (by rw [add_mul]; omega)
      _ = (value + 1) * base ^ (digits.length + 1) := by ring

theorem spell_lt (h : ∀ d ∈ digits, d < base) : spell base digits < base ^ digits.length := by
  simpa [spell] using foldl_digits_lt h 0

/-! ## Decimal text -/

def digitByte (digit : Nat) : UInt8 := ofNat (48 + digit)

theorem toNat_digitByte {digit : Nat} (h : digit < 10) : (digitByte digit).toNat = 48 + digit :=
  toNat_ofNat_of_lt' (show 48 + digit < 256 by omega)

def decimal (n : Nat) : List UInt8 := (bigEndian 10 (log 10 n + 1) n).map digitByte

theorem length_decimal (n : Nat) : (decimal n).length = log 10 n + 1 := by
  simp [decimal, length_bigEndian]

/-- A shorter decimal is a smaller number, and decimals of one length compare as their texts do. -/
theorem compare_decimal (n m : Nat) :
    (compare (decimal n).length (decimal m).length).then (compareBytes (decimal n) (decimal m)) =
      compare n m := by
  rw [length_decimal, length_decimal]
  rcases Nat.lt_trichotomy (Nat.log 10 n) (Nat.log 10 m) with ht | heq | hg
  · have hlt' : n < m := by
      by_contra hl
      exact absurd (Nat.log_mono_right (b := 10) (Nat.le_of_not_lt hl)) (by omega)
    rw [Nat.compare_eq_lt.mpr (by omega), Nat.compare_eq_lt.mpr hlt']
    rfl
  · have hd : ∀ d ∈ bigEndian 10 (Nat.log 10 n + 1) n, ∀ digit' ∈ bigEndian 10 (Nat.log 10 n + 1) m,
        compareByte (digitByte d) (digitByte digit') = compare d digit' := by
      intro d hd digit' hd'
      have h := bigEndian_lt (by omega) _ n d hd
      have h' := bigEndian_lt (by omega) _ m digit' hd'
      have := compare_digits (show d < 48 by omega) (show digit' < 48 by omega)
      rw [compareByte, toNat_digitByte h, toNat_digitByte h']
      simpa using this 1 1
    have hn : n < 10 ^ (Nat.log 10 n + 1) := Nat.lt_pow_succ_log_self (by omega) n
    have hm : m < 10 ^ (Nat.log 10 n + 1) := heq ▸ Nat.lt_pow_succ_log_self (by omega) m
    rw [Nat.compare_eq_eq.mpr (by omega), decimal, decimal, ← heq, compareBytes, compareLex_map hd,
      compare_bigEndian (by omega), Nat.mod_eq_of_lt hn, Nat.mod_eq_of_lt hm]
    rfl
  · have hlt : m < n := by
      by_contra hl
      exact absurd (Nat.log_mono_right (b := 10) (Nat.le_of_not_lt hl)) (by omega)
    rw [Nat.compare_eq_gt.mpr (by omega), Nat.compare_eq_gt.mpr hlt]
    rfl

def Orderly {α : Type} (cmp : α → α → Ordering) (encode : α → List UInt8) : Prop :=
  ∀ a b rest rest', compareBytes (encode a ++ rest) (encode b ++ rest') =
    (cmp a b).then (compareBytes rest rest')

def numberBytes (width n : Nat) : List UInt8 := (bigEndian 256 width n).map ofNat

theorem compare_numberBytes (w : Nat) {n m : Nat} (hn : n < 256 ^ w) (hm : m < 256 ^ w)
    (r r' : List UInt8) :
    compareBytes (numberBytes w n ++ r) (numberBytes w m ++ r') =
      (compare n m).then (compareBytes r r') := by
  have hb : ∀ d ∈ bigEndian 256 w n, ∀ digit' ∈ bigEndian 256 w m,
      compareByte (ofNat d) (ofNat digit') = compare d digit' := by
    intro d hd digit' hd'
    have h := bigEndian_lt (by omega) w n d hd
    have h' := bigEndian_lt (by omega) w m digit' hd'
    rw [compareByte, toNat_ofNat_of_lt' h, toNat_ofNat_of_lt' h']
  have hl : (numberBytes w n).length = (numberBytes w m).length := by
    simp [numberBytes, length_bigEndian]
  rw [compareBytes, compareLex_append hl, numberBytes, numberBytes, compareLex_map hb,
    compare_bigEndian (by omega), mod_eq_of_lt hn, mod_eq_of_lt hm]

def escape : List UInt8 → List UInt8
  | [] => [0, 0]
  | byte :: text => if byte = 0 then 0 :: 255 :: escape text else byte :: escape text

@[simp] theorem compareByte_self (a : UInt8) : compareByte a a = .eq := compareByte_eq_eq.mpr rfl

theorem compareByte_zero {a : UInt8} (h : a ≠ 0) : compareByte 0 a = .lt := by
  rw [compareByte, Nat.compare_eq_lt]
  have : a.toNat ≠ 0 := fun h0 => h (UInt8.toNat_inj.mp h0)
  exact Nat.pos_of_ne_zero this

theorem compareByte_of_zero {a : UInt8} (h : a ≠ 0) : compareByte a 0 = .gt := by
  rw [← compareByte_swap, compareByte_zero h]
  rfl

-- The end mark and an escaped zero differ in their second byte, and every
-- other byte is above the zero both start with.
theorem orderly_escape : Orderly compareBytes escape := by
  have hm : compareByte 0 255 = .lt := rfl
  have hm' : compareByte 255 0 = .gt := rfl
  intro text
  induction text with
  | nil =>
    intro other r r'
    cases other with
    | nil => simp [escape]
    | cons b' other =>
      by_cases hb' : b' = 0
      · simp [escape, hb', hm]
      · simp [escape, hb', compareByte_zero hb']
  | cons b text ih =>
    intro other r r'
    cases other with
    | nil =>
      by_cases hb : b = 0
      · simp [escape, hb, hm']
      · simp [escape, hb, compareByte_of_zero hb]
    | cons b' other =>
      rw [compareBytes_cons_cons, Ordering.then_assoc, ← ih other r r']
      by_cases hb : b = 0
      · by_cases hb' : b' = 0
        · simp [escape, hb, hb']
        · simp [escape, hb, hb', compareByte_zero hb']
      · by_cases hb' : b' = 0
        · simp [escape, hb, hb', compareByte_of_zero hb]
        · simp [escape, hb, hb']

end Smalltalk
