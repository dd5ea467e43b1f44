import Mathlib.Algebra.Order.Field.Power
import Mathlib.Data.Int.Log
import Mathlib.Data.Rat.Floor
import Mathlib.Tactic.Ring
import Offside.Number

/-! Rounding as a function of the value. Main statements: fractions of one value have one nearest
number, and a number is the nearest to its own value. -/

namespace Offside

namespace Fraction

def value (f : Fraction) : ℚ := f.num / f.den

variable {f g : Fraction}

theorem value_scale (f : Fraction) (base : Nat) (k : Int) :
    (f.scale base k).value = f.value * (base : ℚ) ^ k := by
  cases k with
  | ofNat k =>
    rw [scale, value, value, Nat.pow_eq, Int.ofNat_eq_natCast, zpow_natCast]
    push_cast
    ring
  | negSucc k =>
    rw [scale, value, value, Nat.pow_eq, zpow_negSucc]
    push_cast
    rw [div_mul_eq_div_div, div_eq_mul_inv (_ / _)]

theorem den_scale_pos {base : Nat} (hbase : 0 < base) (hf : 0 < f.den) (k : Int) :
    0 < (f.scale base k).den := by
  cases k with
  | ofNat k => exact hf
  | negSucc k => exact Nat.mul_pos hf (Nat.pow_pos hbase)

theorem value_pos_iff (hf : 0 < f.den) : 0 < f.value ↔ 0 < f.num := by
  rw [value, div_pos_iff_of_pos_right (Nat.cast_pos.2 hf), Nat.cast_pos]

theorem value_eq_zero_iff (hf : 0 < f.den) : f.value = 0 ↔ f.num = 0 := by
  rw [value, div_eq_zero_iff, or_iff_left (Nat.cast_ne_zero.2 hf.ne'), Nat.cast_eq_zero]

theorem le_floor_iff (hf : 0 < f.den) {n : Nat} : n ≤ f.floor ↔ (n : ℚ) ≤ f.value := by
  rw [floor, value, Nat.le_div_iff_mul_le hf, le_div_iff₀ (Nat.cast_pos.2 hf)]
  exact_mod_cast Iff.rfl

theorem floor_le_round (f : Fraction) : f.floor ≤ f.round := by
  rw [round]
  split <;> omega

def expand (f : Fraction) (k : Nat) : Fraction := ⟨f.num * k, f.den * k⟩

theorem half_expand {k : Nat} (hk : 0 < k) : (f.expand k).half = f.half := by
  rw [half, half, expand, Nat.mul_mod_mul_right, ← Nat.mul_assoc, Nat.compare_eq_ite_lt,
    Nat.compare_eq_ite_lt]
  simp only [Nat.mul_lt_mul_right hk]

theorem round_expand {k : Nat} (hk : 0 < k) : (f.expand k).round = f.round := by
  have hfloor : (f.expand k).floor = f.floor := Nat.mul_div_mul_right _ _ hk
  rw [round, round, half_expand hk, hfloor]

theorem round_congr (hf : 0 < f.den) (hg : 0 < g.den) (h : f.value = g.value) :
    f.round = g.round := by
  have hcross : f.num * g.den = g.num * f.den := by
    rw [value, value, div_eq_div_iff (Nat.cast_ne_zero.2 hf.ne') (Nat.cast_ne_zero.2 hg.ne')] at h
    exact_mod_cast h
  have hexpand : f.expand g.den = g.expand f.den := by
    rw [expand, expand, hcross, Nat.mul_comm f.den]
  rw [← round_expand hg, hexpand, round_expand hf]

theorem round_natural (n : Nat) : round ⟨n, 1⟩ = n := by
  simp [round, half, floor, Nat.mod_one, Nat.compare_eq_ite_lt]

section Magnitude

variable (hf : 0 < f.den) (hnum : 0 < f.num)
include hf hnum

theorem le_log_value : (f.num.log2 : Int) - f.den.log2 - 1 ≤ Int.log 2 f.value := by
  rw [← Int.zpow_le_iff_le_log Nat.one_lt_two ((value_pos_iff hf).2 hnum), value,
    le_div_iff₀ (Nat.cast_pos.2 hf)]
  have hlow : (2 : ℚ) ^ f.num.log2 ≤ f.num := by exact_mod_cast Nat.log2_self_le hnum.ne'
  have hhigh : (f.den : ℚ) ≤ 2 ^ (f.den.log2 + 1) := by exact_mod_cast Nat.lt_log2_self.le
  calc ((2 : Nat) : ℚ) ^ ((f.num.log2 : Int) - f.den.log2 - 1) * f.den
      ≤ 2 ^ ((f.num.log2 : Int) - f.den.log2 - 1) * 2 ^ (f.den.log2 + 1) := by
        rw [Nat.cast_two]
        gcongr
    _ = 2 ^ f.num.log2 := by
        rw [← zpow_natCast, ← zpow_natCast, ← zpow_add₀ two_ne_zero]
        congr 1
        push_cast
        ring
    _ ≤ f.num := hlow

theorem log_value_lt : Int.log 2 f.value < (f.num.log2 : Int) - f.den.log2 + 1 := by
  rw [← Int.lt_zpow_iff_log_lt Nat.one_lt_two ((value_pos_iff hf).2 hnum), value,
    div_lt_iff₀ (Nat.cast_pos.2 hf)]
  have hhigh : (f.num : ℚ) < 2 ^ (f.num.log2 + 1) := by exact_mod_cast Nat.lt_log2_self
  have hlow : (2 : ℚ) ^ f.den.log2 ≤ f.den := by exact_mod_cast Nat.log2_self_le hf.ne'
  calc (f.num : ℚ) < 2 ^ (f.num.log2 + 1) := hhigh
    _ = 2 ^ ((f.num.log2 : Int) - f.den.log2 + 1) * 2 ^ f.den.log2 := by
        rw [← zpow_natCast, ← zpow_natCast, ← zpow_add₀ two_ne_zero]
        congr 1
        push_cast
        ring
    _ ≤ ((2 : Nat) : ℚ) ^ ((f.num.log2 : Int) - f.den.log2 + 1) * f.den := by
        rw [Nat.cast_two]
        gcongr

theorem magnitude_eq_log : f.magnitude 2 f.num.log2 f.den.log2 = Int.log 2 f.value := by
  have htest (k : Int) : 1 ≤ (f.scale 2 (-k)).floor ↔ k ≤ Int.log 2 f.value := by
    rw [le_floor_iff (den_scale_pos Nat.two_pos hf _), value_scale, zpow_neg, ← div_eq_mul_inv,
      Nat.cast_one, one_le_div (zpow_pos (by norm_num) _)]
    exact Int.zpow_le_iff_le_log Nat.one_lt_two ((value_pos_iff hf).2 hnum)
  have hlow := le_log_value hf hnum
  have hhigh := log_value_lt hf hnum
  simp only [magnitude, htest]
  split <;> omega

end Magnitude

end Fraction

namespace Number

open Fraction

variable {negative : Bool} {f g : Fraction} {significand : Nat} {exponent : Int}

theorem nearest_zero (hf : 0 < f.den) (hnum : f.num = 0) :
    nearest negative f = .finite negative 0 minExponent := by
  have hround (k : Int) : (f.scale 2 k).round = 0 := by
    rw [round_congr (g := ⟨0, 1⟩) (den_scale_pos Nat.two_pos hf k) Nat.one_pos, round_natural]
    rw [value_scale, value, value, hnum]
    simp
  simp [nearest, hround]

def unit (q : ℚ) : Int := max minExponent (Int.log 2 q - 52)

def pack (negative : Bool) (significand : Nat) (exponent : Int) : Number :=
  if significand = 0 then .finite negative 0 minExponent
  else if significand < 2 ^ 53 then
    if exponent ≤ maxExponent then .finite negative significand exponent else .infinite negative
  else
    if exponent < maxExponent then .finite negative (2 ^ 52) (exponent + 1)
    else .infinite negative

theorem nearest_eq_pack (hf : 0 < f.den) (hnum : 0 < f.num) :
    nearest negative f =
      pack negative (f.scale 2 (-unit f.value)).round (unit f.value) := by
  rw [nearest, magnitude_eq_log hf hnum]
  rfl

theorem nearest_congr (hf : 0 < f.den) (hg : 0 < g.den) (h : f.value = g.value) :
    nearest negative f = nearest negative g := by
  rcases Nat.eq_zero_or_pos f.num with hzero | hnum
  · have hzero' : g.num = 0 := by
      rw [← value_eq_zero_iff hg, ← h, value_eq_zero_iff hf]
      exact hzero
    rw [nearest_zero hf hzero, nearest_zero hg hzero']
  · have hnum' : 0 < g.num := by
      rw [← value_pos_iff hg, ← h, value_pos_iff hf]
      exact hnum
    have hround : (f.scale 2 (-unit f.value)).round = (g.scale 2 (-unit f.value)).round := by
      apply round_congr (den_scale_pos Nat.two_pos hf _) (den_scale_pos Nat.two_pos hg _)
      rw [value_scale, value_scale, h]
    rw [nearest_eq_pack hf hnum, nearest_eq_pack hg hnum', hround, h]

/-- The two parts of a number other than zero, as they are kept. -/
structure IsNormal (significand : Nat) (exponent : Int) : Prop where
  pos : 0 < significand
  lt : significand < 2 ^ 53
  full : exponent = minExponent ∨ 2 ^ 52 ≤ significand
  low : minExponent ≤ exponent
  high : exponent ≤ maxExponent

theorem pack_of_isNormal (h : IsNormal significand exponent) :
    pack negative significand exponent = .finite negative significand exponent := by
  rw [pack, if_neg h.pos.ne', if_pos h.lt, if_pos h.high]

theorem pack_cases (negative : Bool) {rounded : Nat} {e : Int} (hlow : minExponent ≤ e)
    (hfull : e = minExponent ∨ 2 ^ 52 ≤ rounded) :
    pack negative rounded e = .infinite negative ∨
      pack negative rounded e = .finite negative 0 minExponent ∨
      ∃ significand exponent, IsNormal significand exponent ∧
        pack negative rounded e = .finite negative significand exponent := by
  rw [pack]
  split
  · exact .inr (.inl rfl)
  · rename_i hne
    split
    · rename_i hlt
      split
      · rename_i hhigh
        exact .inr (.inr ⟨rounded, e, ⟨Nat.pos_of_ne_zero hne, hlt, hfull, hlow, hhigh⟩, rfl⟩)
      · exact .inl rfl
    · split
      · rename_i hhigh
        refine .inr (.inr ⟨2 ^ 52, e + 1, ⟨by norm_num, by norm_num, .inr le_rfl, ?_, hhigh⟩, rfl⟩)
        exact Int.le_add_one hlow
      · exact .inl rfl

theorem full_of_round (hf : 0 < f.den) (hnum : 0 < f.num) :
    unit f.value = minExponent ∨ 2 ^ 52 ≤ (f.scale 2 (-unit f.value)).round := by
  rcases le_total (Int.log 2 f.value - 52) minExponent with hmin | hmin
  · exact .inl (max_eq_left hmin)
  · refine .inr (le_trans ?_ (floor_le_round _))
    have hunit : 52 + unit f.value = Int.log 2 f.value := by
      rw [unit, max_eq_right hmin]
      ring
    have hle : (2 : ℚ) ^ (52 + unit f.value) ≤ f.value := by
      rw [hunit]
      exact Int.zpow_log_le_self Nat.one_lt_two ((value_pos_iff hf).2 hnum)
    rw [le_floor_iff (den_scale_pos Nat.two_pos hf _), value_scale, zpow_neg, ← div_eq_mul_inv,
      le_div_iff₀ (zpow_pos (by norm_num) _)]
    rw [zpow_add₀ two_ne_zero] at hle
    exact_mod_cast hle

theorem nearest_cases (negative : Bool) (hf : 0 < f.den) :
    nearest negative f = .infinite negative ∨
      nearest negative f = .finite negative 0 minExponent ∨
      ∃ significand exponent, IsNormal significand exponent ∧
        nearest negative f = .finite negative significand exponent := by
  rcases Nat.eq_zero_or_pos f.num with hzero | hnum
  · exact .inr (.inl (nearest_zero hf hzero))
  · rw [nearest_eq_pack hf hnum]
    exact pack_cases negative (le_max_left _ _) (full_of_round hf hnum)

section Size

theorem value_size (significand : Nat) (exponent : Int) :
    (size significand exponent).value = significand * (2 : ℚ) ^ exponent := by
  rw [size, value_scale, value]
  simp

theorem den_size_pos (significand : Nat) (exponent : Int) : 0 < (size significand exponent).den :=
  den_scale_pos Nat.two_pos Nat.one_pos exponent

theorem value_size_pos (hpos : 0 < significand) (exponent : Int) :
    0 < (size significand exponent).value := by
  rw [value_size]
  exact mul_pos (Nat.cast_pos.2 hpos) (zpow_pos (by norm_num) _)

theorem unit_size (h : IsNormal significand exponent) :
    unit (size significand exponent).value = exponent := by
  have hpow : (0 : ℚ) ≤ 2 ^ exponent := zpow_nonneg (by norm_num) _
  have hpos := value_size_pos h.pos exponent
  have hhigh : Int.log 2 (size significand exponent).value < 53 + exponent := by
    rw [← Int.lt_zpow_iff_log_lt Nat.one_lt_two hpos, value_size, Nat.cast_two,
      zpow_add₀ two_ne_zero]
    exact mul_lt_mul_of_pos_right (by exact_mod_cast h.lt) (zpow_pos (by norm_num) _)
  have hlow : exponent = minExponent ∨
      52 + exponent ≤ Int.log 2 (size significand exponent).value := by
    refine h.full.imp_right fun hfull => ?_
    rw [← Int.zpow_le_iff_le_log Nat.one_lt_two hpos, value_size, Nat.cast_two,
      zpow_add₀ two_ne_zero]
    exact mul_le_mul_of_nonneg_right (by exact_mod_cast hfull) hpow
  have hmin := h.low
  rw [unit]
  omega

theorem round_size (significand : Nat) (exponent : Int) :
    ((size significand exponent).scale 2 (-exponent)).round = significand := by
  have hvalue : ((size significand exponent).scale 2 (-exponent)).value =
      value ⟨significand, 1⟩ := by
    rw [value_scale, value_size, mul_assoc, Nat.cast_two, ← zpow_add₀ two_ne_zero, value]
    simp
  have hden := den_scale_pos Nat.two_pos (den_size_pos significand exponent) (-exponent)
  rw [round_congr hden Nat.one_pos hvalue, round_natural]

theorem nearest_size (h : IsNormal significand exponent) :
    nearest negative (size significand exponent) = .finite negative significand exponent := by
  have hden := den_size_pos significand exponent
  have hnum := (value_pos_iff hden).1 (value_size_pos h.pos exponent)
  rw [nearest_eq_pack hden hnum, unit_size h, round_size, pack_of_isNormal h]

end Size

end Number

end Offside
