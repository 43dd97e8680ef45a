import Smalltalk.Lib.Lexicographic

/-!
# Texts

Prefixes of strings, and texts in SQL functions, which read a text up to its first zero byte.
-/

namespace Smalltalk

/-- `starts_with`, character by character. -/
def startsWith (text pre : String) : Bool := pre.toList.isPrefixOf text.toList

/-- `strip_prefix`. -/
def stripPrefix (text pre : String) : Option String :=
  if startsWith text pre then some (String.ofList (text.toList.drop pre.toList.length)) else none

theorem stripPrefix_eq_some {text pre rest : String} :
    stripPrefix text pre = some rest ↔ text = pre ++ rest := by
  unfold stripPrefix startsWith
  constructor
  · intro h
    split at h
    · rename_i hp
      obtain ⟨tail, ht⟩ := List.isPrefixOf_iff_prefix.mp hp
      cases h
      apply String.toList_injective
      simp [← ht]
    · cases h
  · rintro rfl
    simp

def cText (text : Text) : Text := text.takeWhile (· ≠ 0)

theorem cText_eq_self {text : Text} (h : 0 ∉ text) : cText text = text := by
  rw [cText, List.takeWhile_eq_self_iff]
  intro b hb
  have hn : b ≠ 0 := fun heq => h (heq ▸ hb)
  simpa using hn

/-- SQL's `length`: the characters before the first zero byte. -/
def sqlLength (text : Text) : Nat := (cText text).countP fun byte => byte.toNat / 64 ≠ 2

theorem sqlLength_eq_length {text : Text} (hz : 0 ∉ text) (ha : ∀ b ∈ text, b.toNat < 128) :
    sqlLength text = text.length := by
  rw [sqlLength, cText_eq_self hz, List.countP_eq_length]
  intro b hb
  have := ha b hb
  simp only [ne_eq, decide_eq_true_eq]
  omega

/-- The value of a digit `0` to `9` or `a` to `f`. -/
def hexDigit (byte : UInt8) : Option Nat :=
  if 48 ≤ byte.toNat ∧ byte.toNat ≤ 57 then some (byte.toNat - 48)
  else if 97 ≤ byte.toNat ∧ byte.toNat ≤ 102 then some (byte.toNat - 87)
  else none

theorem hexDigit_lt {b : UInt8} {d : Nat} (h : hexDigit b = some d) : d < 16 := by
  unfold hexDigit at h
  split at h
  · cases h
    omega
  · split at h
    · cases h
      omega
    · cases h

def hexByte (digit : Nat) : UInt8 := UInt8.ofNat (if digit < 10 then 48 + digit else 87 + digit)

theorem hexByte_of_hexDigit {byte : UInt8} {d : Nat} (h : hexDigit byte = some d) :
    hexByte d = byte := by
  unfold hexDigit at h
  split at h
  · cases h
    rename_i hb
    rw [hexByte, if_pos (by omega), Nat.add_sub_cancel' hb.1, UInt8.ofNat_toNat]
  · split at h
    · cases h
      rename_i hb
      rw [hexByte, if_neg (by omega), Nat.add_sub_cancel' (by omega), UInt8.ofNat_toNat]
    · cases h

end Smalltalk
