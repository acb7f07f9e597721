import Mathlib.Algebra.Order.Field.Power
import Mathlib.Data.Rat.Floor
import Mathlib.Tactic.FieldSimp
import Mathlib.Tactic.Linarith
import Mathlib.Tactic.Ring
import UtilityCss.Number.Binary

/-!
# Rounding to a binary format

What a rational is rounded to is a number of the format, and a number of the format is rounded to
itself. Below the limit of the format the error is at most half of the spacing there, which is a
fixed part of the number unless the least exponent is reached.
-/

namespace UtilityCss

section Nearest

variable {n : Int} {x : Rat}

private theorem nearestEven_intCast (n : Int) : nearestEven n = n := by
  simp [nearestEven, Rat.floor_intCast]

theorem abs_nearestEven_sub_le (x : Rat) : |(nearestEven x : Rat) - x| ≤ 1 / 2 := by
  have hle : (x.floor : Rat) ≤ x := Int.floor_le x
  have hlt : x < x.floor + 1 := Int.lt_floor_add_one x
  rw [nearestEven, abs_le]
  split_ifs <;> push_cast <;> constructor <;> linarith

private theorem nearestEven_le (h : x ≤ n) : nearestEven x ≤ n := by
  have herror := (abs_le.1 (abs_nearestEven_sub_le x)).2
  have hlt : (nearestEven x : Rat) < (n + 1 : Int) := by
    push_cast
    linarith
  exact Int.lt_add_one_iff.1 (by exact_mod_cast hlt)

private theorem le_nearestEven (h : n ≤ x) : n ≤ nearestEven x := by
  have herror := (abs_le.1 (abs_nearestEven_sub_le x)).1
  have hlt : ((n - 1 : Int) : Rat) < nearestEven x := by
    push_cast
    linarith
  exact Int.sub_one_lt_iff.1 (by exact_mod_cast hlt)

private theorem abs_nearestEven_le (h : |x| ≤ n) : |nearestEven x| ≤ n := by
  obtain ⟨hlow, hhigh⟩ := abs_le.1 h
  exact abs_le.2 ⟨le_nearestEven (by exact_mod_cast hlow), nearestEven_le hhigh⟩

end Nearest

section Log

variable {x : Rat} {k : Int}

theorem two_zpow_lt_div {n d : Nat} (hn : n ≠ 0) (hd : d ≠ 0) :
    (2 : Rat) ^ ((n.log2 : Int) - d.log2 - 1) < n / d ∧
      (n / d : Rat) < 2 ^ ((n.log2 : Int) - d.log2 + 1) := by
  have hn₁ : (2 : Rat) ^ (n.log2 : Int) ≤ n := by exact_mod_cast Nat.log2_self_le hn
  have hn₂ : (n : Rat) < 2 ^ ((n.log2 : Int) + 1) := by exact_mod_cast Nat.lt_log2_self (n := n)
  have hd₁ : (2 : Rat) ^ (d.log2 : Int) ≤ d := by exact_mod_cast Nat.log2_self_le hd
  have hd₂ : (d : Rat) < 2 ^ ((d.log2 : Int) + 1) := by exact_mod_cast Nat.lt_log2_self (n := d)
  have hpos : (0 : Rat) < d := by exact_mod_cast Nat.pos_of_ne_zero hd
  rw [lt_div_iff₀ hpos, div_lt_iff₀ hpos]
  constructor
  · calc (2 : Rat) ^ ((n.log2 : Int) - d.log2 - 1) * d
        < 2 ^ ((n.log2 : Int) - d.log2 - 1) * 2 ^ ((d.log2 : Int) + 1) :=
          mul_lt_mul_of_pos_left hd₂ (zpow_pos two_pos _)
      _ = 2 ^ (n.log2 : Int) := by rw [← zpow_add₀ two_ne_zero]; congr 1; ring
      _ ≤ n := hn₁
  · calc (n : Rat) < 2 ^ ((n.log2 : Int) + 1) := hn₂
      _ = 2 ^ ((n.log2 : Int) - d.log2 + 1) * 2 ^ (d.log2 : Int) := by
          rw [← zpow_add₀ two_ne_zero]; congr 1; ring
      _ ≤ 2 ^ ((n.log2 : Int) - d.log2 + 1) * d :=
          mul_le_mul_of_nonneg_left hd₁ (zpow_pos two_pos _).le

theorem two_zpow_floorLog2 (hx : 0 < x) :
    (2 : Rat) ^ floorLog2 x ≤ x ∧ x < 2 ^ (floorLog2 x + 1) := by
  have hnum : 0 < x.num := Rat.num_pos.2 hx
  have hquotient : x = (x.num.natAbs : Nat) / (x.den : Nat) := by
    have hcast := congrArg (Int.cast (R := Rat)) (Int.natAbs_of_nonneg hnum.le)
    rw [Int.cast_natCast] at hcast
    rw [hcast, Rat.num_div_den]
  obtain ⟨hlow, hhigh⟩ := two_zpow_lt_div (Int.natAbs_ne_zero.2 hnum.ne') x.den_nz
  rw [← hquotient] at hlow hhigh
  simp only [floorLog2]
  split
  · next h => exact ⟨h, hhigh⟩
  · next h => exact ⟨hlow.le, by simpa using h⟩

private theorem floorLog2_lt (hx : 0 < x) (h : x < 2 ^ k) : floorLog2 x < k :=
  (zpow_lt_zpow_iff_right₀ (by norm_num)).1 ((two_zpow_floorLog2 hx).1.trans_lt h)

end Log

namespace BinaryFormat

variable {f : BinaryFormat} {x y : Rat}

/-- Whether a rational is a number of the format: a multiple of a power of two that is not too fine,
by no more than the format's digits, and below the limit. -/
def IsNumber (f : BinaryFormat) (x : Rat) : Prop :=
  ∃ n e : Int, x = n * 2 ^ e ∧ |n| ≤ 2 ^ f.digits ∧ f.minExp ≤ e ∧ |x| < f.limit

private theorem limit_pos (f : BinaryFormat) : 0 < f.limit := zpow_pos two_pos _

/-- With one digit less the power is one higher, so that the spacing fits also the number that has
one digit too many. -/
theorem IsNumber.exists_lt (hdigits : f.digits ≠ 0) (h : f.IsNumber x) :
    ∃ n e : Int, x = n * 2 ^ e ∧ |n| < 2 ^ f.digits ∧ f.minExp ≤ e := by
  obtain ⟨n, e, rfl, hn, he, -⟩ := h
  rcases hn.lt_or_eq with hlt | heq
  · exact ⟨n, e, rfl, hlt, he⟩
  · obtain ⟨d, hd⟩ := Nat.exists_eq_succ_of_ne_zero hdigits
    rw [hd, pow_succ] at heq ⊢
    have hdvd : (2 : Int) ∣ n := by
      rw [← dvd_abs, heq]
      exact Int.dvd_mul_left _ _
    obtain ⟨m, rfl⟩ := hdvd
    rw [abs_mul, mul_comm, abs_two] at heq
    have hm : |m| = 2 ^ d := by omega
    have hpos : (0 : Int) < 2 ^ d := by positivity
    refine ⟨m, e + 1, ?_, by omega, by omega⟩
    rw [zpow_add₀ two_ne_zero]
    push_cast
    ring

private theorem minExp_le_spacing (f : BinaryFormat) (x : Rat) : f.minExp ≤ f.spacing x :=
  le_max_left _ _

private theorem spacing_le {e : Int} (hx : 0 < x) (h : x < 2 ^ (e + f.digits)) (he : f.minExp ≤ e) :
    f.spacing x ≤ e := by
  have hlog := floorLog2_lt hx h
  rw [spacing]
  omega

private theorem lt_two_zpow_spacing (f : BinaryFormat) (hx : 0 < x) :
    x < 2 ^ (f.spacing x + f.digits) := by
  have hle : floorLog2 x + 1 ≤ f.spacing x + f.digits := by
    rw [spacing]
    omega
  exact (two_zpow_floorLog2 hx).2.trans_le (zpow_le_zpow_right₀ (by norm_num) hle)

private theorem two_zpow_spacing_le (f : BinaryFormat) (hx : 0 < x) :
    (2 : Rat) ^ f.spacing x ≤ 2 ^ f.minExp + x * 2 ^ (1 - f.digits : Int) := by
  have hpos := mul_pos hx (zpow_pos two_pos (1 - f.digits))
  rw [spacing]
  rcases max_choice f.minExp (floorLog2 x - (f.digits - 1)) with h | h
  · rw [h]
    linarith
  · have hlog := mul_le_mul_of_nonneg_right (two_zpow_floorLog2 hx).1
      (zpow_pos two_pos (1 - f.digits)).le
    rw [← zpow_add₀ two_ne_zero] at hlog
    have hsum : floorLog2 x - (f.digits - 1 : Int) = floorLog2 x + (1 - f.digits) := by ring
    have hmin : (0 : Rat) < 2 ^ f.minExp := zpow_pos two_pos _
    rw [h, hsum]
    linarith

private theorem abs_eq (x : Rat) : x.abs = |x| := by
  rcases le_total 0 x with h | h
  · rw [abs_of_nonneg h, Rat.abs_of_nonneg h]
  · rw [abs_of_nonpos h, Rat.abs_of_nonpos h]

theorem round_eq_finite_iff (hx : x ≠ 0) : f.round x = .finite y ↔
    y = nearestEven (x / 2 ^ f.spacing |x|) * 2 ^ f.spacing |x| ∧ |y| < f.limit := by
  rw [round, if_neg (by simpa using hx)]
  simp only [abs_eq]
  split
  · next hlimit =>
    refine iff_of_false nofun ?_
    rintro ⟨rfl, hlt⟩
    exact absurd hlt (not_lt.2 hlimit)
  · next hlimit =>
    rw [Binary.finite.injEq, eq_comm]
    refine iff_self_and.2 ?_
    rintro rfl
    exact not_le.1 hlimit

theorem round_zero (f : BinaryFormat) : f.round 0 = .finite 0 := rfl

theorem round_eq_self (hdigits : f.digits ≠ 0) (h : f.IsNumber x) : f.round x = .finite x := by
  by_cases hx : x = 0
  · rw [hx, round_zero]
  · obtain ⟨n, e, hne, hn, he⟩ := h.exists_lt hdigits
    obtain ⟨-, -, -, -, -, hlimit⟩ := h
    have hscale : (0 : Rat) < 2 ^ e := zpow_pos two_pos e
    have hlt : |x| < 2 ^ (e + f.digits) := by
      rw [hne, abs_mul, abs_of_pos hscale, zpow_add₀ two_ne_zero, mul_comm, zpow_natCast]
      exact mul_lt_mul_of_pos_left (by exact_mod_cast hn) hscale
    obtain ⟨j, hj⟩ := Int.le.dest (spacing_le (abs_pos.2 hx) hlt he)
    refine (round_eq_finite_iff hx).2 ⟨?_, hlimit⟩
    have hpos : (0 : Rat) < 2 ^ f.spacing |x| := zpow_pos two_pos _
    have hmultiple : x = (n * 2 ^ j : Int) * 2 ^ f.spacing |x| := by
      generalize f.spacing |x| = k at hj
      rw [hne, ← hj, zpow_add₀ two_ne_zero, zpow_natCast]
      push_cast
      ring
    have hunit : x / 2 ^ f.spacing |x| = (n * 2 ^ j : Int) := (div_eq_iff hpos.ne').2 hmultiple
    rw [hunit, nearestEven_intCast]
    exact hmultiple

theorem isNumber_of_round_eq (h : f.round x = .finite y) : f.IsNumber y := by
  by_cases hx : x = 0
  · rw [hx, round_zero] at h
    cases h
    exact ⟨0, f.minExp, by simp, by simp, le_rfl, by simpa using f.limit_pos⟩
  · obtain ⟨hy, hlimit⟩ := (round_eq_finite_iff hx).1 h
    refine ⟨_, _, hy, abs_nearestEven_le ?_, minExp_le_spacing f _, hlimit⟩
    have hlt := f.lt_two_zpow_spacing (abs_pos.2 hx)
    have hpos : (0 : Rat) < 2 ^ f.spacing |x| := zpow_pos two_pos _
    rw [zpow_add₀ two_ne_zero, zpow_natCast, mul_comm] at hlt
    rw [abs_div, abs_of_pos hpos, div_le_iff₀ hpos]
    push_cast
    exact hlt.le

/-- The error of a rounding: half of the spacing, which is at most a fixed part of the number and
the least spacing together. -/
theorem abs_round_sub_le (h : f.round x = .finite y) :
    |y - x| ≤ (2 ^ f.minExp + |x| * 2 ^ (1 - f.digits : Int)) / 2 := by
  by_cases hx : x = 0
  · rw [hx, round_zero] at h
    cases h
    rw [hx, sub_self, abs_zero, zero_mul, add_zero]
    exact (half_pos (zpow_pos two_pos _)).le
  · obtain ⟨hy, -⟩ := (round_eq_finite_iff hx).1 h
    have hpos : (0 : Rat) < 2 ^ f.spacing |x| := zpow_pos two_pos _
    have hsplit : y - x = (nearestEven (x / 2 ^ f.spacing |x|) - x / 2 ^ f.spacing |x|) *
        2 ^ f.spacing |x| := by
      rw [sub_mul, div_mul_cancel₀ _ hpos.ne', ← hy]
    have hspacing := f.two_zpow_spacing_le (abs_pos.2 hx)
    calc |y - x| ≤ 1 / 2 * 2 ^ f.spacing |x| := by
          rw [hsplit, abs_mul, abs_of_pos hpos]
          exact mul_le_mul_of_nonneg_right (abs_nearestEven_sub_le _) hpos.le
      _ ≤ _ := by linarith

/-- A finite number times a power of two is exact below the limit. -/
theorem IsNumber.mul_two_pow (h : f.IsNumber x) (k : Nat) (hlimit : |x * 2 ^ k| < f.limit) :
    f.IsNumber (x * 2 ^ k) := by
  obtain ⟨n, e, hne, hn, he, -⟩ := h
  refine ⟨n, e + k, ?_, hn, by omega, hlimit⟩
  rw [hne, zpow_add₀ two_ne_zero, zpow_natCast]
  ring

end BinaryFormat

end UtilityCss
