import Mathlib.Data.Nat.Digits.Lemmas
import Mathlib.Data.ZMod.Basic
import Mathlib.Tactic.LinearCombination

/-!
# Accumulators of row hashes

An accumulator is 64 bytes, the highest first. Adding and subtracting a hash byte
by byte is addition and subtraction modulo `2 ^ 512`.
-/

namespace Smalltalk.Projection

open List UInt8

def accumulatorBytes : Nat := 64

structure Accumulator where
  bytes : List UInt8
  length : bytes.length = accumulatorBytes
  deriving DecidableEq

def addBytes (subtract : Bool) : Nat → List UInt8 → List UInt8 → List UInt8
  | carry, sum :: sums, byte :: bytes =>
    let byte := if subtract then ~~~byte else byte
    let carry := carry + sum.toNat + byte.toNat
    ofNat carry :: addBytes subtract (carry / 256) sums bytes
  | _, sums, _ => sums

theorem length_addBytes (s : Bool) (sums : List UInt8) : ∀ (c : Nat) (bytes : List UInt8),
    (addBytes s c sums bytes).length = sums.length := by
  induction sums with
  | nil => intro c bytes; simp [addBytes]
  | cons sum sums ih =>
    intro c bytes
    cases bytes with
    | nil => simp [addBytes]
    | cons b bytes => simp [addBytes, ih]

namespace Accumulator

def zero : Accumulator := ⟨List.replicate accumulatorBytes 0, by simp⟩

def add (accumulator hash : Accumulator) (subtract : Bool) : Accumulator where
  bytes :=
    (addBytes subtract (if subtract then 1
      else 0) accumulator.bytes.reverse hash.bytes.reverse).reverse
  length := by simp [length_addBytes, accumulator.length]

end Accumulator

def little (bytes : List UInt8) : Nat := Nat.ofDigits 256 (bytes.map toNat)

@[simp] theorem little_nil : little [] = 0 := rfl

@[simp] theorem little_cons (b : UInt8) (bytes : List UInt8) :
    little (b :: bytes) = b.toNat + 256 * little bytes := by
  simp [little, Nat.ofDigits_cons]

theorem little_lt (bytes : List UInt8) : little bytes < 256 ^ bytes.length := by
  have hl :=
    Nat.ofDigits_lt_base_pow_length (b := 256) (l := bytes.map toNat) (by omega) fun byte hb => by
    obtain ⟨b, -, rfl⟩ := mem_map.mp hb
    exact b.toNat_lt
  simpa [little] using hl

theorem little_injective {first second : List UInt8} (hl : first.length = second.length)
    (h : little first = little second) : first = second := by
  have hs : ∀ bytes : List UInt8, ∀ byte ∈ bytes.map toNat, byte < 256 := by
    intro bytes byte hb
    obtain ⟨b, -, rfl⟩ := mem_map.mp hb
    exact b.toNat_lt
  have hd :=
    Nat.ofDigits_inj_of_len_eq (b := 256) (by omega) (by simpa using hl) (hs first) (hs second) h
  exact map_injective_iff.mpr (fun a b ha => UInt8.toNat_inj.mp ha) hd

/-- The number of the inverted bytes, as `add` takes them for subtraction. -/
def operand (subtract : Bool) (bytes : List UInt8) : Nat :=
  little (bytes.map fun byte => if subtract then ~~~byte else byte)

theorem operand_cons (s : Bool) (b : UInt8) (bytes : List UInt8) : operand s (b :: bytes) =
    (if s then ~~~b else b).toNat + 256 * operand s bytes := by
  simp [operand]

theorem little_addBytes (s : Bool) (sums : List UInt8) :
    ∀ (c : Nat) (bytes : List UInt8), sums.length = bytes.length →
      little (addBytes s c sums bytes) =
        (c + little sums + operand s bytes) % 256 ^ sums.length := by
  induction sums with
  | nil =>
    intro c bytes hl
    simp [addBytes, Nat.mod_one]
  | cons sum sums ih =>
    intro c bytes hl
    cases bytes with
    | nil => simp at hl
    | cons b bytes =>
      have hl : sums.length = bytes.length := by simpa using hl
      simp only [addBytes, operand_cons, little_cons, ih _ bytes hl, length_cons, pow_succ']
      generalize (if s then ~~~b else b) = byte'
      have hh : (c + (sum.toNat + 256 * little sums) +
          (byte'.toNat + 256 * operand s bytes)) / 256 =
          (c + sum.toNat + byte'.toNat) / 256 + little sums + operand s bytes := by omega
      have hw : (c + (sum.toNat + 256 * little sums) +
          (byte'.toNat + 256 * operand s bytes)) % 256 =
          (c + sum.toNat + byte'.toNat) % 256 := by omega
      rw [Nat.mod_mul, hh, hw, toNat_ofNat']

theorem operand_false (bytes : List UInt8) : operand false bytes = little bytes := by
  simp [operand]

theorem operand_true (bytes : List UInt8) :
    operand true bytes + little bytes + 1 = 256 ^ bytes.length := by
  induction bytes with
  | nil => rfl
  | cons b bytes ih =>
    have hn : (~~~b).toNat + b.toNat = 255 := by
      rw [toNat_not]
      have hl := b.toNat_lt
      have hs : size = 256 := rfl
      omega
    simp only [operand_cons, little_cons, if_true, length_cons, pow_succ]
    omega

namespace Accumulator

def value (accumulator : Accumulator) : ZMod (256 ^ accumulatorBytes) :=
  (little accumulator.bytes.reverse : Nat)

theorem value_injective : Function.Injective value := by
  rintro ⟨f, hf⟩ ⟨second, hs⟩ h
  have hn : f.reverse.length = second.reverse.length := by simp [hf, hs]
  have hl : ∀ bytes : List UInt8, bytes.length = accumulatorBytes →
      little bytes.reverse < 256 ^ accumulatorBytes := by
    intro bytes hb
    have ht := little_lt bytes.reverse
    rwa [length_reverse, hb] at ht
  have hv := congrArg ZMod.val h
  simp only [value, ZMod.val_natCast_of_lt (hl f hf), ZMod.val_natCast_of_lt (hl second hs)] at hv
  have hb := reverse_injective (little_injective hn hv)
  subst hb
  rfl

@[simp] theorem value_zero : zero.value = 0 := by
  have hz : ∀ n, little (List.replicate n 0) = 0 := by
    intro n
    induction n with
    | zero => rfl
    | succ n ih => simp [replicate_succ, ih]
  simp [value, zero, hz]

theorem value_add (a hash : Accumulator) : (a.add hash false).value = a.value + hash.value := by
  have hl : a.bytes.reverse.length = hash.bytes.reverse.length := by
    simp [a.length, hash.length]
  have hs := little_addBytes false a.bytes.reverse 0 hash.bytes.reverse hl
  rw [length_reverse, a.length, operand_false] at hs
  simp only [value, add, Bool.false_eq_true, if_false, reverse_reverse, hs, ZMod.natCast_mod]
  push_cast
  ring

theorem value_sub (a hash : Accumulator) : (a.add hash true).value = a.value - hash.value := by
  have hl : a.bytes.reverse.length = hash.bytes.reverse.length := by
    simp [a.length, hash.length]
  have hs := little_addBytes true a.bytes.reverse 1 hash.bytes.reverse hl
  have hi := operand_true hash.bytes.reverse
  rw [length_reverse, a.length] at hs
  rw [length_reverse, hash.length] at hi
  have hc := congrArg (Nat.cast : Nat → ZMod (256 ^ accumulatorBytes)) hi
  rw [ZMod.natCast_self] at hc
  push_cast at hc
  simp only [value, add, if_true, reverse_reverse, hs, ZMod.natCast_mod]
  push_cast
  linear_combination hc

end Accumulator

end Smalltalk.Projection
