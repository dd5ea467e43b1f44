import Offside.Proofs.Rounding

/-! Sums of a number and an integer. Main statements: integers of at most 53 bits are numbers, so
that their sums are exact, and sums keep the order of numbers, however large they are. -/

namespace Offside

namespace Fraction

variable {f g : Fraction}

theorem value_nonneg (f : Fraction) : 0 ≤ f.value :=
  div_nonneg (Nat.cast_nonneg _) (Nat.cast_nonneg _)

theorem value_natAbs (n : Int) (den : Nat) : value ⟨n.natAbs, den⟩ = |(n / den : ℚ)| := by
  rw [value, abs_div, Nat.abs_cast, Nat.cast_natAbs, Int.cast_abs]

section Round

theorem round_le_succ_floor (f : Fraction) : f.round ≤ f.floor + 1 := by
  rw [round]
  split <;> omega

theorem round_le_round_of_num_le {m n den : Nat} (h : m ≤ n) :
    round ⟨m, den⟩ ≤ round ⟨n, den⟩ := by
  rcases Nat.lt_or_ge (m / den) (n / den) with hlt | hge
  · calc round ⟨m, den⟩ ≤ m / den + 1 := round_le_succ_floor _
      _ ≤ n / den := hlt
      _ ≤ round ⟨n, den⟩ := floor_le_round ⟨n, den⟩
  · -- Above one floor the remainders keep the order.
    have hfloor : m / den = n / den := Nat.le_antisymm (Nat.div_le_div_right h) hge
    have hmod : m % den ≤ n % den := by
      have hm := Nat.div_add_mod m den
      have hn := Nat.div_add_mod n den
      rw [hfloor] at hm
      omega
    simp only [round, half, floor, hfloor, Nat.compare_eq_ite_lt]
    grind

theorem round_le_round (hf : 0 < f.den) (hg : 0 < g.den) (h : f.value ≤ g.value) :
    f.round ≤ g.round := by
  rw [← round_expand (f := f) hg, ← round_expand (f := g) hf, expand, expand, Nat.mul_comm g.den]
  apply round_le_round_of_num_le
  rw [value, value, div_le_div_iff₀ (Nat.cast_pos.2 hf) (Nat.cast_pos.2 hg)] at h
  exact_mod_cast h

theorem round_le (hf : 0 < f.den) {n : Nat} (h : f.value ≤ n) : f.round ≤ n := by
  rw [← round_natural n]
  apply round_le_round hf Nat.one_pos
  simpa [value] using h

end Round

end Fraction

namespace Number

open Fraction

variable {negative : Bool} {f g : Fraction} {significand : Nat} {exponent : Int} {x y : Number}

section Rounded

def rounded (f : Fraction) : ℚ := (f.scale 2 (-unit f.value)).round * 2 ^ unit f.value

theorem rounded_nonneg (f : Fraction) : 0 ≤ rounded f := by
  rw [rounded]
  positivity

theorem rounded_of_value_eq_zero (hf : 0 < f.den) (h : f.value = 0) : rounded f = 0 := by
  have hround : (f.scale 2 (-unit f.value)).round = 0 := by
    apply Nat.le_zero.1
    apply round_le (den_scale_pos Nat.two_pos hf _)
    rw [value_scale, h, zero_mul, Nat.cast_zero]
  rw [rounded, hround, Nat.cast_zero, zero_mul]

theorem unit_mono {q r : ℚ} (hq : 0 < q) (h : q ≤ r) : unit q ≤ unit r :=
  max_le_max_left _ (Int.sub_le_sub_right (Int.log_mono_right hq h) 52)

theorem value_scale_unit (f : Fraction) :
    (f.scale 2 (-unit f.value)).value * 2 ^ unit f.value = f.value := by
  rw [value_scale, zpow_neg, Nat.cast_two, inv_mul_cancel_right₀ (zpow_ne_zero _ two_ne_zero)]

theorem lt_zpow_unit (f : Fraction) : f.value < 2 ^ (53 + unit f.value) := by
  have hlog : f.value < 2 ^ (Int.log 2 f.value + 1) := by
    exact_mod_cast Int.lt_zpow_succ_log_self Nat.one_lt_two f.value
  refine hlog.trans_le (zpow_le_zpow_right₀ one_le_two ?_)
  have := le_max_right minExponent (Int.log 2 f.value - 52)
  rw [unit]
  omega

theorem round_le_two_pow (hf : 0 < f.den) : (f.scale 2 (-unit f.value)).round ≤ 2 ^ 53 := by
  apply round_le (den_scale_pos Nat.two_pos hf _)
  have hlt := lt_zpow_unit f
  rw [zpow_add₀ two_ne_zero] at hlt
  nth_rewrite 1 [← value_scale_unit f] at hlt
  exact_mod_cast (lt_of_mul_lt_mul_right hlt (zpow_nonneg zero_le_two _)).le

theorem rounded_le_zpow (hf : 0 < f.den) : rounded f ≤ 2 ^ (53 + unit f.value) := by
  rw [rounded, zpow_add₀ two_ne_zero]
  gcongr
  exact_mod_cast round_le_two_pow hf

theorem zpow_le_rounded (hf : 0 < f.den) (hnum : 0 < f.num) (h : minExponent < unit f.value) :
    2 ^ (52 + unit f.value) ≤ rounded f := by
  rw [rounded, zpow_add₀ two_ne_zero]
  gcongr
  exact_mod_cast (full_of_round hf hnum).resolve_left h.ne'

theorem rounded_mono (hf : 0 < f.den) (hg : 0 < g.den) (h : f.value ≤ g.value) :
    rounded f ≤ rounded g := by
  rcases (value_nonneg f).eq_or_lt with hzero | hpos
  · rw [rounded_of_value_eq_zero hf hzero.symm]
    exact rounded_nonneg g
  · rcases (unit_mono hpos h).eq_or_lt with heq | hlt
    · rw [rounded, rounded, heq]
      gcongr
      apply round_le_round (den_scale_pos Nat.two_pos hf _) (den_scale_pos Nat.two_pos hg _)
      rw [value_scale, value_scale]
      gcongr
    · -- A power of two lies between them.
      calc rounded f ≤ 2 ^ (53 + unit f.value) := rounded_le_zpow hf
        _ ≤ 2 ^ (52 + unit g.value) := zpow_le_zpow_right₀ one_le_two (by omega)
        _ ≤ rounded g := by
          apply zpow_le_rounded hg ((value_pos_iff hg).1 (hpos.trans_le h))
          exact (le_max_left _ _).trans_lt hlt

end Rounded

section Value

def withSign (negative : Bool) (q : ℚ) : ℚ := if negative then -q else q

@[simp] theorem withSign_true (q : ℚ) : withSign true q = -q := rfl

@[simp] theorem withSign_false (q : ℚ) : withSign false q = q := rfl

theorem abs_withSign (negative : Bool) (q : ℚ) : |withSign negative q| = |q| := by
  cases negative <;> simp

def bound : ℚ := 2 ^ (53 + maxExponent)

theorem bound_eq : bound = 2 ^ 53 * 2 ^ maxExponent := by
  rw [bound, zpow_add₀ two_ne_zero]
  norm_cast

theorem bound_pos : 0 < bound := by
  rw [bound]
  exact zpow_pos two_pos _

def toRat : Number → ℚ
  | .nan => 0
  | .infinite negative => withSign negative bound
  | .finite negative significand exponent => withSign negative (significand * 2 ^ exponent)

inductive IsBounded : Number → Prop
  | infinite (negative : Bool) : IsBounded (.infinite negative)
  | finite (negative : Bool) {significand : Nat} {exponent : Int} :
    (significand : ℚ) * 2 ^ exponent < bound → IsBounded (.finite negative significand exponent)

theorem toRat_finite (negative : Bool) (significand : Nat) (exponent : Int) :
    (finite negative significand exponent).toRat =
      (signed negative (size significand exponent).num : ℚ) / (size significand exponent).den := by
  rw [toRat, ← value_size, value]
  cases negative with
  | false => simp [signed]
  | true => simp [signed, neg_div]

theorem abs_toRat_lt (h : (significand : ℚ) * 2 ^ exponent < bound) :
    |(finite negative significand exponent).toRat| < bound := by
  rw [toRat, abs_withSign,
    abs_of_nonneg (mul_nonneg (Nat.cast_nonneg _) (zpow_nonneg zero_le_two _))]
  exact h

theorem IsBounded.abs_toRat_le (h : x.IsBounded) : |x.toRat| ≤ bound := by
  cases h with
  | infinite negative =>
    rw [toRat, abs_withSign]
    exact (abs_of_pos bound_pos).le
  | finite negative h => exact (abs_toRat_lt h).le

theorem IsBounded.infinite_le (h : x.IsBounded) : (Number.infinite true).le x = true := by
  cases h <;> rfl

theorem IsBounded.le_infinite (h : x.IsBounded) : x.le (Number.infinite false) = true := by
  cases h with
  | infinite negative => cases negative <;> rfl
  | finite negative h => rfl

theorem IsBounded.le_iff (hx : x.IsBounded) (hy : y.IsBounded) :
    x.le y = true ↔ x.toRat ≤ y.toRat := by
  have hlow := abs_le.1 hx.abs_toRat_le
  have hhigh := abs_le.1 hy.abs_toRat_le
  cases hx with
  | infinite negative =>
    cases negative with
    | true => exact iff_of_true hy.infinite_le hhigh.1
    | false =>
      cases hy with
      | infinite negative' =>
        cases negative' with
        | true => exact iff_of_false Bool.false_ne_true (not_le.2 (neg_lt_self bound_pos))
        | false => exact iff_of_true rfl le_rfl
      | finite negative' h' =>
        exact iff_of_false Bool.false_ne_true (not_le.2 (abs_lt.1 (abs_toRat_lt h')).2)
  | finite negative h =>
    cases hy with
    | infinite negative' =>
      cases negative' with
      | true => exact iff_of_false Bool.false_ne_true (not_le.2 (abs_lt.1 (abs_toRat_lt h)).1)
      | false => exact iff_of_true rfl hlow.2
    | finite negative' h' =>
      rw [toRat_finite, toRat_finite, div_le_div_iff₀ (Nat.cast_pos.2 (den_size_pos _ _))
        (Nat.cast_pos.2 (den_size_pos _ _)), le, decide_eq_true_iff]
      exact_mod_cast Iff.rfl

end Value

section Nearest

theorem lt_bound (hlt : significand < 2 ^ 53) (hexponent : exponent ≤ maxExponent) :
    (significand : ℚ) * 2 ^ exponent < bound := by
  have hpow : (2 : ℚ) ^ exponent ≤ 2 ^ maxExponent := zpow_le_zpow_right₀ one_le_two hexponent
  have hsignificand : (significand : ℚ) < 2 ^ 53 := by exact_mod_cast hlt
  calc (significand : ℚ) * 2 ^ exponent ≤ significand * 2 ^ maxExponent :=
        mul_le_mul_of_nonneg_left hpow (Nat.cast_nonneg _)
    _ < 2 ^ 53 * 2 ^ maxExponent := mul_lt_mul_of_pos_right hsignificand (zpow_pos two_pos _)
    _ = bound := bound_eq.symm

theorem bound_le (hfull : 2 ^ 52 ≤ significand) (hexponent : maxExponent < exponent) :
    bound ≤ (significand : ℚ) * 2 ^ exponent := by
  have hpow : (2 : ℚ) ^ (maxExponent + 1) ≤ 2 ^ exponent :=
    zpow_le_zpow_right₀ one_le_two hexponent
  have hsignificand : (2 : ℚ) ^ 52 ≤ significand := by exact_mod_cast hfull
  calc bound = 2 ^ 52 * 2 ^ (maxExponent + 1) := by
        rw [bound_eq, zpow_add_one₀ two_ne_zero]
        ring
    _ ≤ significand * 2 ^ exponent := by gcongr

/-- A number is as near to a size as the bound allows. -/
structure Attains (x : Number) (negative : Bool) (size : ℚ) : Prop where
  isBounded : x.IsBounded
  toRat_eq : x.toRat = withSign negative (min size bound)

theorem attains_infinite {size : ℚ} (h : bound ≤ size) :
    Attains (.infinite negative) negative size where
  isBounded := .infinite negative
  toRat_eq := by rw [min_eq_right h, toRat]

theorem attains_finite (h : (significand : ℚ) * 2 ^ exponent < bound) :
    Attains (.finite negative significand exponent) negative (significand * 2 ^ exponent) where
  isBounded := .finite negative h
  toRat_eq := by rw [min_eq_left h.le, toRat]

theorem attains_zero : Attains (.finite negative 0 minExponent) negative 0 := by
  have hzero : ((0 : Nat) : ℚ) * 2 ^ minExponent = 0 := by rw [Nat.cast_zero, zero_mul]
  have h : ((0 : Nat) : ℚ) * 2 ^ minExponent < bound := by
    rw [hzero]
    exact bound_pos
  exact hzero ▸ attains_finite h

theorem attains_pack (hle : significand ≤ 2 ^ 53)
    (hfull : exponent = minExponent ∨ 2 ^ 52 ≤ significand) :
    Attains (pack negative significand exponent) negative (significand * 2 ^ exponent) := by
  rw [pack]
  split
  · rename_i hzero
    rw [hzero, Nat.cast_zero, zero_mul]
    exact attains_zero
  · split
    · rename_i hlt
      split
      · rename_i hexponent
        exact attains_finite (lt_bound hlt hexponent)
      · rename_i hexponent
        have hmin : minExponent ≤ maxExponent := by decide
        have hlarge : 2 ^ 52 ≤ significand := hfull.resolve_left (by omega)
        exact attains_infinite (bound_le hlarge (Int.not_le.1 hexponent))
    · -- One bit too long: half of it, at the next exponent.
      rename_i hge
      have hsignificand : significand = 2 ^ 53 := Nat.le_antisymm hle (Nat.not_lt.1 hge)
      have hhalf : (significand : ℚ) * 2 ^ exponent = (2 ^ 52 : Nat) * 2 ^ (exponent + 1) := by
        rw [hsignificand, zpow_add_one₀ two_ne_zero]
        push_cast
        ring
      rw [hhalf]
      split
      · rename_i hexponent
        exact attains_finite (lt_bound (by decide) hexponent)
      · rename_i hexponent
        exact attains_infinite (bound_le (Nat.le_refl _) (by omega))

theorem attains_nearest (negative : Bool) (hf : 0 < f.den) :
    Attains (nearest negative f) negative (rounded f) := by
  rcases Nat.eq_zero_or_pos f.num with hzero | hnum
  · rw [nearest_zero hf hzero, rounded_of_value_eq_zero hf ((value_eq_zero_iff hf).2 hzero)]
    exact attains_zero
  · rw [nearest_eq_pack hf hnum]
    exact attains_pack (round_le_two_pow hf) (full_of_round hf hnum)

def ofRat (q : ℚ) : Number := nearest (q < 0) ⟨q.num.natAbs, q.den⟩

theorem nearest_eq_ofRat (n : Int) {den : Nat} (hden : 0 < den) :
    nearest (n < 0) ⟨n.natAbs, den⟩ = ofRat (n / den) := by
  have hsign : ((n : ℚ) / den < 0) = (n < 0) := by
    rw [div_lt_iff₀ (Nat.cast_pos.2 hden), zero_mul, Int.cast_lt_zero]
  have hvalue : value ⟨n.natAbs, den⟩ =
      value ⟨(n / den : ℚ).num.natAbs, (n / den : ℚ).den⟩ := by
    rw [value_natAbs, value_natAbs, Rat.num_div_den]
  rw [ofRat, nearest_congr hden (Rat.den_pos _) hvalue]
  simp only [hsign]

theorem attains_ofRat (q : ℚ) :
    Attains (ofRat q) (q < 0) (rounded ⟨q.num.natAbs, q.den⟩) :=
  attains_nearest _ (Rat.den_pos q)

theorem toRat_ofRat_mono {q r : ℚ} (h : q ≤ r) : (ofRat q).toRat ≤ (ofRat r).toRat := by
  have hsize (q : ℚ) : value ⟨q.num.natAbs, q.den⟩ = |q| := by
    rw [value_natAbs, Rat.num_div_den]
  have hmono {q r : ℚ} (h : |q| ≤ |r|) : min (rounded ⟨q.num.natAbs, q.den⟩) bound ≤
      min (rounded ⟨r.num.natAbs, r.den⟩) bound := by
    apply min_le_min_right
    apply rounded_mono (Rat.den_pos q) (Rat.den_pos r)
    rwa [hsize, hsize]
  have hnonneg (q : ℚ) : 0 ≤ min (rounded ⟨q.num.natAbs, q.den⟩) bound :=
    le_min (rounded_nonneg _) bound_pos.le
  rw [(attains_ofRat q).toRat_eq, (attains_ofRat r).toRat_eq]
  rcases lt_or_ge q 0 with hq | hq
  · rcases lt_or_ge r 0 with hr | hr
    · simp only [hq, hr, decide_true, withSign_true]
      apply neg_le_neg
      apply hmono
      rw [abs_of_neg hq, abs_of_neg hr]
      exact neg_le_neg h
    · simp only [hq, not_lt.2 hr, decide_true, decide_false, withSign_true, withSign_false]
      exact (neg_nonpos.2 (hnonneg q)).trans (hnonneg r)
  · have hr := hq.trans h
    simp only [not_lt.2 hq, not_lt.2 hr, decide_false, withSign_false]
    apply hmono
    rwa [abs_of_nonneg hq, abs_of_nonneg hr]

end Nearest

section Order

theorem ofInt_eq_ofRat (n : Int) : ofInt n = ofRat n := by
  rw [ofInt, nearest_eq_ofRat n Nat.one_pos, Nat.cast_one, div_one]

theorem addInt_finite (negative : Bool) (significand : Nat) (exponent k : Int) :
    (finite negative significand exponent).addInt k =
      ofRat ((finite negative significand exponent).toRat + k) := by
  have hden := den_size_pos significand exponent
  simp only [addInt]
  rw [nearest_eq_ofRat _ hden, toRat_finite]
  congr 1
  push_cast
  field_simp

theorem isBounded_ofInt (n : Int) : (ofInt n).IsBounded := by
  rw [ofInt_eq_ofRat]
  exact (attains_ofRat _).isBounded

theorem IsBounded.addInt (h : x.IsBounded) (k : Int) : (x.addInt k).IsBounded := by
  cases h with
  | infinite negative => exact .infinite negative
  | finite negative hlt =>
    rw [addInt_finite]
    exact (attains_ofRat _).isBounded

theorem le_ofInt {m n : Int} (h : m ≤ n) : (ofInt m).le (ofInt n) = true := by
  rw [(isBounded_ofInt m).le_iff (isBounded_ofInt n), ofInt_eq_ofRat, ofInt_eq_ofRat]
  exact toRat_ofRat_mono (Int.cast_le.2 h)

theorem IsBounded.le_addInt (hx : x.IsBounded) (hy : y.IsBounded) (h : x.le y = true) (k : Int) :
    (x.addInt k).le (y.addInt k) = true := by
  -- An infinite number stays as it is.
  cases hx with
  | infinite negative =>
    cases negative with
    | true => exact (hy.addInt k).infinite_le
    | false =>
      cases hy with
      | infinite negative' => exact h
      | finite negative' hlt' => exact absurd h Bool.false_ne_true
  | finite negative hlt =>
    cases hy with
    | infinite negative' =>
      cases negative' with
      | true => exact absurd h Bool.false_ne_true
      | false => exact ((IsBounded.finite negative hlt).addInt k).le_infinite
    | finite negative' hlt' =>
      rw [addInt_finite, addInt_finite,
        (attains_ofRat _).isBounded.le_iff (attains_ofRat _).isBounded]
      apply toRat_ofRat_mono
      gcongr
      exact ((IsBounded.finite negative hlt).le_iff (.finite negative' hlt')).1 h

end Order

section Whole

variable {m n : Int}

theorem toInt?_finite :
    (finite negative significand exponent).toInt? = some n ↔
      (finite negative significand exponent).toRat = n := by
  have hden := den_size_pos significand exponent
  have hsigned (c : Nat) : signed negative ((size significand exponent).den * c) =
      signed negative c * (size significand exponent).den := by
    cases negative <;> simp [signed, mul_comm]
  rw [toRat_finite, div_eq_iff (Nat.cast_ne_zero.2 hden.ne')]
  simp only [toInt?]
  generalize size significand exponent = f at hden hsigned
  constructor
  · intro h
    split at h
    · rename_i hmod
      cases h
      have hnum : f.num = f.den * f.floor :=
        (Nat.mul_div_cancel' (Nat.dvd_of_mod_eq_zero hmod)).symm
      nth_rewrite 1 [hnum]
      rw [hsigned]
      norm_cast
    · cases h
  · intro h
    have hn : signed negative f.num = n * f.den := by exact_mod_cast h
    have hdvd : f.den ∣ f.num := by
      have hdvd : (f.den : Int) ∣ signed negative f.num := ⟨n, by rw [hn, mul_comm]⟩
      cases negative with
      | false => exact Int.natCast_dvd_natCast.1 hdvd
      | true => exact Int.natCast_dvd_natCast.1 (dvd_neg.1 hdvd)
    obtain ⟨c, hc⟩ := hdvd
    rw [hc, hsigned] at hn
    have hcn : signed negative c = n := mul_right_cancel₀ (Nat.cast_ne_zero.2 hden.ne') hn
    rw [if_pos (by rw [hc, Nat.mul_mod_right]), floor, hc, Nat.mul_div_cancel_left c hden, hcn]

theorem toRat_of_toInt? (h : x.toInt? = some n) : x.toRat = n := by
  cases x with
  | nan => cases h
  | infinite negative => cases h
  | finite negative significand exponent => exact toInt?_finite.1 h

theorem IsBounded.le_iff_of_toInt? (hx : x.IsBounded) (hy : y.IsBounded) (hm : x.toInt? = some m)
    (hn : y.toInt? = some n) : x.le y = true ↔ m ≤ n := by
  rw [hx.le_iff hy, toRat_of_toInt? hm, toRat_of_toInt? hn, Int.cast_le]

theorem floor?_of_toInt? (h : x.toInt? = some n) : x.floor? = some n := by
  cases x with
  | nan => cases h
  | infinite negative => cases h
  | finite negative significand exponent =>
    have hden := den_size_pos significand exponent
    have hvalue := toInt?_finite.1 h
    rw [toRat_finite, div_eq_iff (Nat.cast_ne_zero.2 hden.ne')] at hvalue
    have hnum : signed negative (size significand exponent).num =
        n * (size significand exponent).den := by exact_mod_cast hvalue
    simp only [floor?]
    rw [hnum, Int.mul_ediv_cancel _ (Nat.cast_ne_zero.2 hden.ne')]

theorem addInt_of_toInt? (h : x.toInt? = some n) (k : Int) : x.addInt k = ofInt (n + k) := by
  cases x with
  | nan => cases h
  | infinite negative => cases h
  | finite negative significand exponent =>
    rw [addInt_finite, toInt?_finite.1 h, ofInt_eq_ofRat]
    push_cast
    rfl

theorem exists_isNormal {n : Nat} (hpos : 0 < n) (hle : n ≤ 2 ^ 53) :
    ∃ significand exponent, IsNormal significand exponent ∧
      (size significand exponent).value = n := by
  rcases hle.eq_or_lt with rfl | hlt
  · refine ⟨2 ^ 52, 1, ⟨by norm_num, by norm_num, .inr le_rfl, by decide, by decide⟩, ?_⟩
    rw [value_size]
    norm_num
  · -- Shifted until the leading bit stands where it is kept.
    have hlog : n.log2 ≤ 52 := Nat.lt_succ_iff.1 ((Nat.log2_lt hpos.ne').2 hlt)
    refine ⟨n * 2 ^ (52 - n.log2), n.log2 - 52, ⟨by positivity, ?_, .inr ?_, ?_, ?_⟩, ?_⟩
    · calc n * 2 ^ (52 - n.log2) < 2 ^ (n.log2 + 1) * 2 ^ (52 - n.log2) :=
            Nat.mul_lt_mul_of_pos_right Nat.lt_log2_self (Nat.two_pow_pos _)
        _ = 2 ^ 53 := by
          rw [← pow_add]
          congr 1
          omega
    · calc 2 ^ 52 = 2 ^ n.log2 * 2 ^ (52 - n.log2) := by
            rw [← pow_add]
            congr 1
            omega
        _ ≤ n * 2 ^ (52 - n.log2) := Nat.mul_le_mul_right _ (Nat.log2_self_le hpos.ne')
    · rw [minExponent]
      omega
    · rw [maxExponent]
      omega
    · have hexponent : ((n.log2 : Int) - 52) = -((52 - n.log2 : Nat) : Int) := by omega
      rw [value_size, hexponent, zpow_neg, zpow_natCast]
      push_cast
      exact mul_inv_cancel_right₀ (by positivity) _

theorem toInt?_ofInt (h : |n| ≤ 2 ^ 53) : (ofInt n).toInt? = some n := by
  rcases eq_or_ne n 0 with rfl | hne
  · rw [ofInt, nearest_zero Nat.one_pos rfl, toInt?_finite, toRat]
    simp [withSign]
  · have hle : n.natAbs ≤ 2 ^ 53 := by
      rw [Int.abs_eq_natAbs] at h
      exact_mod_cast h
    obtain ⟨significand, exponent, hnormal, hvalue⟩ :=
      exists_isNormal (Int.natAbs_pos.2 hne) hle
    have hsize : value ⟨n.natAbs, 1⟩ = (size significand exponent).value := by
      rw [hvalue, value, Nat.cast_one, div_one]
    have hnearest : ofInt n = finite (n < 0) significand exponent := by
      rw [ofInt, nearest_congr Nat.one_pos (den_size_pos _ _) hsize, nearest_size hnormal]
    rw [hnearest, toInt?_finite, toRat, ← value_size, hvalue, Nat.cast_natAbs]
    by_cases hneg : n < 0
    · simp [hneg, abs_of_neg hneg]
    · simp [hneg, abs_of_nonneg (not_lt.1 hneg)]

end Whole

end Number

end Offside
