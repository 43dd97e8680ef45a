import Smalltalk.Exchange.Convergence

/-!
# The turns of one peer reach every range soon

A peer answered every few turns sees a start that moves around by a fixed stride. Some
answers later the start is a little ahead, some other answers later a little behind. Either way
it can go on by a small step within so many answers, and so meets every range that is no narrower.
-/

namespace Smalltalk

open Nat

/-- Around `m`, so many strides `ahead` go `up`, and so many `back` go `down`. -/
structure Moves (m stride : Nat) where
  ahead : Nat
  back : Nat
  up : Nat
  down : Nat
  ahead_modEq : stride * ahead ≡ up [MOD m]
  back_modEq : stride * back + down ≡ 0 [MOD m]
  ahead_pos : 0 < ahead
  up_pos : 0 < up
  down_pos : 0 < down

namespace Moves

variable {m stride : Nat}

theorem both_modEq (moves : Moves m stride) :
    stride * (moves.ahead + moves.back) + moves.down ≡ moves.up [MOD m] := by
  have h := moves.ahead_modEq.add moves.back_modEq
  rwa [← Nat.add_assoc, ← Nat.mul_add] at h

def next (moves : Moves m stride) : Option (Moves m stride) :=
  if h : moves.down < moves.up then
    some { moves with
      ahead := moves.ahead + moves.back
      up := moves.up - moves.down
      ahead_modEq := by
        have hb := moves.both_modEq
        rw [← Nat.sub_add_cancel h.le] at hb
        exact hb.add_right_cancel' _
      ahead_pos := Nat.add_pos_left moves.ahead_pos _
      up_pos := Nat.sub_pos_of_lt h }
  else if h : moves.up < moves.down then
    some { moves with
      back := moves.ahead + moves.back
      down := moves.down - moves.up
      back_modEq := by
        have hb := moves.both_modEq
        rw [← Nat.sub_add_cancel h.le, ← Nat.add_assoc] at hb
        exact Nat.ModEq.add_right_cancel' moves.up (by rwa [Nat.zero_add])
      down_pos := Nat.sub_pos_of_lt h }
  else none

/-- Going on from answer `n` by one move or the other, the start meets the step above `low`. -/
theorem exists_modEq (moves : Moves m stride) {step : Nat} (hu : moves.up ≤ step)
    (hd : moves.down ≤ step) (start low : Nat) :
    ∀ l n, n < moves.ahead + moves.back → start + stride * n + l ≡ low [MOD m] →
      ∃ n < moves.ahead + moves.back, ∃ r < step, start + stride * n ≡ low + r [MOD m] := by
  intro l
  induction l using Nat.strong_induction_on with
  | h l ih =>
    intro n hn hl
    rcases Nat.eq_zero_or_pos l with rfl | hp
    · exact ⟨n, hn, 0, moves.up_pos.trans_le hu, hl⟩
    obtain ⟨n', hn', move, hm, hs, hg⟩ : ∃ n' < moves.ahead + moves.back, ∃ move > 0, move ≤ step ∧
        start + stride * n' ≡ start + stride * n + move [MOD m] := by
      by_cases hb : n < moves.back
      · refine ⟨n + moves.ahead, by omega, _, moves.up_pos, hu, ?_⟩
        rw [Nat.mul_add, ← Nat.add_assoc]
        exact moves.ahead_modEq.add_left _
      · refine ⟨n - moves.back, by omega, _, moves.down_pos, hd, ?_⟩
        have hk := moves.back_modEq.add_left (start + stride * (n - moves.back))
        rw [← Nat.add_assoc, Nat.add_assoc start, ← Nat.mul_add,
          Nat.sub_add_cancel (not_lt.mp hb)] at hk
        exact hk.symm
    by_cases hf : move ≤ l
    · refine ih (l - move) (by omega) n' hn' ?_
      have := hg.add_right (l - move)
      rw [Nat.add_assoc _ move, Nat.add_sub_cancel' hf] at this
      exact this.trans hl
    · refine ⟨n', hn', move - l, by omega, ?_⟩
      have := hl.add_right (move - l)
      rw [Nat.add_assoc _ l, Nat.add_sub_cancel' (not_le.mp hf).le] at this
      exact hg.trans this

theorem exists_mod_mem (moves : Moves m stride) {step low : Nat} (hu : moves.up ≤ step)
    (hd : moves.down ≤ step) (hl : low + step ≤ m) (start : Nat) : ∃ n < moves.ahead + moves.back,
      low ≤ (start + stride * n) % m ∧ (start + stride * n) % m < low + step := by
  have hz : start + stride * 0 + (low + start * (m - 1)) ≡ low [MOD m] := by
    have hm : 0 < m := by have := moves.up_pos; omega
    have he : start + stride * 0 + (low + start * (m - 1)) = low + start * m := by
      rw [Nat.mul_sub, Nat.mul_one, Nat.mul_zero]
      have := Nat.le_mul_of_pos_right start hm
      omega
    rw [he]
    exact add_mul_modulus_modEq_iff.mpr rfl
  obtain ⟨n, hn, r, hr, hm⟩ :=
    moves.exists_modEq hu hd start low _ 0 (Nat.add_pos_left moves.ahead_pos _) hz
  have hv : (start + stride * n) % m = low + r := Nat.mod_eq_of_modEq hm (by omega)
  exact ⟨n, hn, by omega⟩

def reaches (most : Nat) : Nat → Nat → Moves m stride → Bool
  | 0, _, _ => false
  | fuel + 1, first, moves =>
    let first :=
      if moves.ahead + moves.back ≤ 4 * first then
      max first (m / max moves.up moves.down + 1) else first
    most < first || moves.next.any (reaches most fuel first)

theorem exists_of_reaches {most len : Nat} (hm : len ≤ most) :
    ∀ (fuel f : Nat) (moves : Moves m stride), reaches most fuel f moves = true → f ≤ len →
      ∃ moves : Moves m stride, moves.ahead + moves.back ≤ 4 * len ∧
      max moves.up moves.down * len ≤ m
  | 0, _, _, h, _ => nomatch h
  | fuel + 1, f, moves, h, hl => by
    by_cases hs : moves.ahead + moves.back ≤ 4 * f ∧ len ≤ m / max moves.up moves.down
    · refine ⟨moves, hs.1.trans (Nat.mul_le_mul_left 4 hl), ?_⟩
      rw [Nat.mul_comm]
      exact (Nat.le_div_iff_mul_le (by have := moves.up_pos; omega)).mp hs.2
    -- This length is left to the moves after these.
    have hl' : (if moves.ahead + moves.back ≤ 4 * f then max f (m / max moves.up moves.down + 1)
      else f) ≤ len := by
      split <;> omega
    rw [reaches, Bool.or_eq_true, decide_eq_true_eq, Option.any_eq_true] at h
    rcases h with h | ⟨moves', _, h⟩
    · omega
    · exact exists_of_reaches hm fuel _ moves' h hl'

end Moves

def turnMoves (peers : Nat) (h : peers * 0x9E3779B97F4A7C15 % 2 ^ 64 ≠ 0) :
    Moves (2 ^ 64) (peers * 0x9E3779B97F4A7C15) where
  ahead := 1
  back := 1
  up := peers * 0x9E3779B97F4A7C15 % 2 ^ 64
  down := 2 ^ 64 - peers * 0x9E3779B97F4A7C15 % 2 ^ 64
  ahead_modEq := by rw [Nat.mul_one]; exact (Nat.mod_modEq _ _).symm
  ahead_pos := Nat.one_pos
  back_modEq := by
    have := Nat.mod_lt (peers * 0x9E3779B97F4A7C15) (show 0 < 2 ^ 64 by decide)
    refine (Nat.mod_modEq _ _).symm.add_right _ |>.trans ?_
    rw [Nat.mul_one, Nat.add_sub_cancel' this.le]
    rfl
  up_pos := Nat.pos_of_ne_zero h
  down_pos := Nat.sub_pos_of_lt (Nat.mod_lt _ (by decide))

def mostRanges : Nat := 3030418677

theorem exists_moves {peers len : Nat} (hp : 1 ≤ peers ∧ peers ≤ 4) (hl : 1 ≤ len)
    (hm : len ≤ mostRanges) :
    ∃ moves : Moves (2 ^ 64) (peers * 0x9E3779B97F4A7C15),
      moves.ahead + moves.back ≤ 4 * len ∧ max moves.up moves.down * len ≤ 2 ^ 64 := by
  obtain ⟨h, hr⟩ : ∃ h, (turnMoves peers h).reaches mostRanges 140 1 = true := by
    obtain rfl | rfl | rfl | rfl : peers = 1 ∨ peers = 2 ∨ peers = 3 ∨ peers = 4 := by omega
    all_goals exact ⟨by decide, by decide +kernel⟩
  exact Moves.exists_of_reaches hm _ _ _ hr hl

/-- Whoever starts, each of up to four alternating peers is shown every range first within four
times as many answers as there are ranges. -/
theorem rotation_covers_ranges {len peers i : Nat} (start : Nat) (hl : len ≤ mostRanges)
    (hp : 1 ≤ peers ∧ peers ≤ 4) (hi : i < len) :
    ∃ n < 4 * len, listingTurnStart (start + peers * n) len = i := by
  obtain ⟨moves, ha, hs⟩ := exists_moves hp (by omega) hl
  obtain ⟨low, hf, hh⟩ := exists_mul_div_eq hs hi
  obtain ⟨n, hn, hm⟩ := moves.exists_mod_mem (Nat.le_max_left _ _) (Nat.le_max_right _ _) hf
    (start * 0x9E3779B97F4A7C15)
  refine ⟨n, by omega, hh _ ?_ ?_⟩
  all_goals rw [Nat.add_mul, Nat.mul_right_comm]
  exacts [hm.1, hm.2]

theorem rotation_of_four_peers : ∃ n < 4 * 4, listingTurnStart (7 + 4 * n) 4 = 3 :=
  rotation_covers_ranges 7 (by decide) (by decide) (by decide)

/-- With four peers every fourth multiple is a multiple of four, too coarse for so many ranges. -/
theorem rotation_misses_range : ¬ ∃ n < 4 * 2 ^ 63, listingTurnStart (4 * n) (2 ^ 63) = 1 := by
  rintro ⟨n, -, h⟩
  unfold listingTurnStart at h
  omega

end Smalltalk
