import Mathlib.Data.List.TakeWhile
import Offside.Number.Decimal
import Offside.Proofs.Rounding

/-! Numbers in decimal read back. Main statement: natural numbers written alike are one number, also
past the exact ones, where not all of the digits are written. -/

namespace Offside

namespace CodeUnit

abbrev dot : CodeUnit := 0x2E
abbrev letterE : CodeUnit := 0x65
abbrev plus : CodeUnit := 0x2B
abbrev minus : CodeUnit := 0x2D

def signOf (k : Int) : CodeUnit := if k < 0 then minus else plus

end CodeUnit

namespace Text

section Cut

variable {u : CodeUnit} {t : Text}

theorem takeWhile_ne (h : u ∉ t) (rest : Text) : (t ++ u :: rest).takeWhile (· ≠ u) = t := by
  rw [List.takeWhile_append_of_pos (by grind), List.takeWhile_cons_of_neg (by simp),
    List.append_nil]

theorem dropWhile_ne (h : u ∉ t) (rest : Text) :
    (t ++ u :: rest).dropWhile (· ≠ u) = u :: rest := by
  rw [List.dropWhile_append_of_pos (by grind), List.dropWhile_cons_of_neg (by simp)]

theorem takeWhile_ne_self (h : u ∉ t) : t.takeWhile (· ≠ u) = t :=
  List.takeWhile_eq_self_iff.2 (by grind)

theorem dropWhile_ne_self (h : u ∉ t) : t.dropWhile (· ≠ u) = [] :=
  List.dropWhile_eq_nil_iff.2 (by grind)

end Cut

section Digits

def IsDigits (t : Text) : Prop := ∀ u ∈ t, u.isDigit = true

def natural (t : Text) : Nat := Nat.ofDigitChars 10 (t.map fun u => Char.ofNat u.toNat) 0

theorem natural_append (s t : Text) :
    natural (s ++ t) = 10 ^ t.length * natural s + natural t := by
  rw [natural, List.map_append, Nat.ofDigitChars_append, Nat.ofDigitChars_eq_ofDigitChars_zero,
    List.length_map]
  rfl

theorem natural_zeros (n : Nat) : natural (List.replicate n .zero) = 0 := by
  rw [natural, List.map_replicate]
  exact Nat.ofDigitChars_replicate_zero

variable {cs : List Char}

theorem ofChars_eq_map (h : ∀ c ∈ cs, c.isDigit = true) :
    ofChars cs = cs.map fun c => c.toNat.toUInt16 := by
  rw [ofChars, ← List.flatMap_singleton' (cs.map _), List.flatMap_map]
  apply List.flatMap_congr
  intro c hc
  have hle : c.toNat ≤ 57 := (Char.isDigit_iff_toNat.1 (h c hc)).2
  exact if_pos (by omega)

theorem toNat_toUInt16_of_isDigit {c : Char} (h : c.isDigit = true) :
    c.toNat.toUInt16.toNat = c.toNat := by
  have hle : c.toNat ≤ 57 := (Char.isDigit_iff_toNat.1 h).2
  exact Nat.mod_eq_of_lt (by omega)

theorem isDigits_ofChars (h : ∀ c ∈ cs, c.isDigit = true) : IsDigits (ofChars cs) := by
  intro u hu
  rw [ofChars_eq_map h] at hu
  obtain ⟨c, hc, rfl⟩ := List.mem_map.1 hu
  have hbounds := Char.isDigit_iff_toNat.1 (h c hc)
  rw [← toNat_toUInt16_of_isDigit (h c hc)] at hbounds
  rw [CodeUnit.isDigit, Bool.and_eq_true, decide_eq_true_iff, decide_eq_true_iff]
  exact hbounds

theorem natural_ofChars (h : ∀ c ∈ cs, c.isDigit = true) :
    natural (ofChars cs) = Nat.ofDigitChars 10 cs 0 := by
  have hchars : (cs.map fun c => c.toNat.toUInt16).map (fun u => Char.ofNat u.toNat) = cs := by
    rw [List.map_map]
    conv_rhs => rw [← List.map_id cs]
    apply List.map_congr_left
    intro c hc
    rw [Function.comp_apply, toNat_toUInt16_of_isDigit (h c hc), Char.ofNat_toNat, id]
  rw [natural, ofChars_eq_map h, hchars]

theorem length_ofChars (h : ∀ c ∈ cs, c.isDigit = true) : (ofChars cs).length = cs.length := by
  rw [ofChars_eq_map h, List.length_map]

theorem isDigit_of_mem_toDigits {n : Nat} : ∀ c ∈ Nat.toDigits 10 n, c.isDigit = true :=
  fun _ hc => Nat.isDigit_of_mem_toDigits (by decide) (by decide) hc

theorem isDigits_ofNat (n : Nat) : IsDigits (ofNat n) := isDigits_ofChars isDigit_of_mem_toDigits

@[simp] theorem natural_ofNat (n : Nat) : natural (ofNat n) = n := by
  rw [ofNat, natural_ofChars isDigit_of_mem_toDigits, Nat.ofDigitChars_ten_toDigits]

theorem ofNat_injective : Function.Injective ofNat :=
  Function.LeftInverse.injective natural_ofNat

theorem IsDigits.not_mem {t : Text} (h : IsDigits t) {u : CodeUnit} (hu : u.isDigit = false) :
    u ∉ t := fun hmem => by
  rw [h u hmem] at hu
  cases hu

theorem IsDigits.append {s t : Text} (hs : IsDigits s) (ht : IsDigits t) : IsDigits (s ++ t) :=
  fun u hu => (List.mem_append.1 hu).elim (hs u) (ht u)

theorem isDigits_zeros (n : Nat) : IsDigits (List.replicate n .zero) := by
  intro u hu
  rw [List.eq_of_mem_replicate hu]
  rfl

end Digits

inductive IsMantissa : Text → ℚ → Prop
  | whole {t : Text} : IsDigits t → IsMantissa t (natural t)
  | point {t places : Text} : IsDigits t → IsDigits places → places ≠ [] →
    IsMantissa (t ++ .dot :: places) (natural (t ++ places) * 10 ^ (-(places.length : Int)))

/-- A mantissa, with or without an exponent behind it, and the value it stands for. -/
inductive IsDecimal : Text → ℚ → Prop
  | positional {t : Text} {q : ℚ} : IsMantissa t q → IsDecimal t q
  | scientific {t : Text} {q : ℚ} (k : Int) : IsMantissa t q →
    IsDecimal (t ++ .letterE :: .signOf k :: ofNat k.natAbs) (q * 10 ^ k)

def mantissaValue (t : Text) : ℚ :=
  let places := (t.dropWhile (· ≠ .dot)).tail
  natural (t.takeWhile (· ≠ .dot) ++ places) * 10 ^ (-(places.length : Int))

def exponentValue : Text → Int
  | _ :: sign :: digits => if sign = .minus then -natural digits else natural digits
  | _ => 0

def decimalValue (t : Text) : ℚ :=
  mantissaValue (t.takeWhile (· ≠ .letterE)) *
    10 ^ exponentValue (t.dropWhile (· ≠ .letterE))

namespace IsMantissa

variable {t : Text} {q : ℚ}

theorem value_eq (h : IsMantissa t q) : mantissaValue t = q := by
  cases h with
  | whole ht =>
    have hdot := ht.not_mem (u := .dot) (by decide)
    simp only [mantissaValue, takeWhile_ne_self hdot, dropWhile_ne_self hdot]
    simp
  | point ht =>
    have hdot := ht.not_mem (u := .dot) (by decide)
    simp only [mantissaValue, takeWhile_ne hdot, dropWhile_ne hdot, List.tail_cons]

theorem unit_cases (h : IsMantissa t q) {u : CodeUnit} (hu : u ∈ t) :
    u.isDigit = true ∨ u = .dot := by
  cases h with
  | whole ht => exact .inl (ht u hu)
  | point ht hplaces =>
    rcases List.mem_append.1 hu with hu | hu
    · exact .inl (ht u hu)
    · rcases List.mem_cons.1 hu with hu | hu
      · exact .inr hu
      · exact .inl (hplaces u hu)

theorem letterE_not_mem (h : IsMantissa t q) : .letterE ∉ t := fun hmem =>
  absurd (h.unit_cases hmem) (by decide)

end IsMantissa

theorem exponentValue_signOf (k : Int) :
    exponentValue (.letterE :: .signOf k :: ofNat k.natAbs) = k := by
  rw [exponentValue, natural_ofNat, CodeUnit.signOf]
  by_cases hk : k < 0
  · rw [if_pos hk, if_pos rfl]
    omega
  · rw [if_neg hk, if_neg (by decide)]
    omega

theorem IsDecimal.value_eq {t : Text} {q : ℚ} (h : IsDecimal t q) : decimalValue t = q := by
  cases h with
  | positional hm =>
    have he := hm.letterE_not_mem
    rw [decimalValue, takeWhile_ne_self he, dropWhile_ne_self he, hm.value_eq]
    exact mul_one q
  | scientific k hm =>
    have he := hm.letterE_not_mem
    rw [decimalValue, takeWhile_ne he, dropWhile_ne he, hm.value_eq, exponentValue_signOf]

theorem IsDecimal.unit_cases {t : Text} {q : ℚ} (h : IsDecimal t q) {u : CodeUnit} (hu : u ∈ t) :
    u.isDigit = true ∨ u ∈ [CodeUnit.dot, .letterE, .plus, .minus] := by
  cases h with
  | positional hm => exact (hm.unit_cases hu).imp_right (by simp +contextual)
  | scientific k hm =>
    rcases List.mem_append.1 hu with hu | hu
    · exact (hm.unit_cases hu).imp_right (by simp +contextual)
    · rcases List.mem_cons.1 hu with rfl | hu
      · exact .inr (by decide)
      · rcases List.mem_cons.1 hu with rfl | hu
        · right
          rw [CodeUnit.signOf]
          split <;> decide
        · exact .inl (isDigits_ofNat _ u hu)

section Layout

variable {digits : Text} (h : IsDigits digits)
include h

theorem isMantissa_zeros (k : Nat) :
    IsMantissa (digits ++ List.replicate k .zero) (natural digits * 10 ^ (k : Int)) := by
  have hvalue : ((natural (digits ++ List.replicate k .zero) : Nat) : ℚ) =
      natural digits * 10 ^ (k : Int) := by
    rw [natural_append, natural_zeros, List.length_replicate, zpow_natCast]
    push_cast
    ring
  rw [← hvalue]
  exact .whole (h.append (isDigits_zeros k))

theorem isMantissa_point {p : Nat} (hp : p < digits.length) :
    IsMantissa (digits.take p ++ .dot :: digits.drop p)
      (natural digits * 10 ^ ((p : Int) - digits.length)) := by
  have hplaces : (p : Int) - digits.length = -((digits.drop p).length : Int) := by
    rw [List.length_drop]
    omega
  have hne : digits.drop p ≠ [] := by
    rw [Ne, List.drop_eq_nil_iff]
    omega
  have hvalue : natural (digits.take p ++ digits.drop p) = natural digits := by
    rw [List.take_append_drop]
  rw [hplaces, ← hvalue]
  exact .point (fun u hu => h u (List.mem_of_mem_take hu))
    (fun u hu => h u (List.mem_of_mem_drop hu)) hne

theorem isMantissa_small (hne : digits ≠ []) (k : Nat) :
    IsMantissa (.zero :: .dot :: (List.replicate k .zero ++ digits))
      (natural digits * 10 ^ (-(k : Int) - digits.length)) := by
  have hplaces : -(k : Int) - digits.length =
      -((List.replicate k CodeUnit.zero ++ digits).length : Int) := by
    rw [List.length_append, List.length_replicate]
    omega
  have hvalue : natural ([.zero] ++ (List.replicate k .zero ++ digits)) = natural digits := by
    have hzeros := natural_zeros (k + 1)
    rw [← List.append_assoc, List.singleton_append, ← List.replicate_succ, natural_append, hzeros]
    ring
  rw [hplaces, ← hvalue]
  exact .point (isDigits_zeros 1) ((isDigits_zeros k).append h) (by simp [hne])

theorem isMantissa_first (hpos : 0 < digits.length) :
    IsMantissa (digits.take 1 ++ if digits.length = 1 then [] else ofString "." ++ digits.drop 1)
      (natural digits * 10 ^ (1 - (digits.length : Int))) := by
  split
  · rename_i hone
    have hm := isMantissa_zeros h 0
    rw [hone, List.append_nil, List.take_of_length_le hone.le]
    rw [List.replicate_zero, List.append_nil] at hm
    exact hm
  · exact isMantissa_point h (by omega)

end Layout

theorem ofString_sign (k : Int) :
    ofString (if k < 0 then "e-" else "e+") = [.letterE, .signOf k] := by
  rw [CodeUnit.signOf]
  split <;> rfl

end Text

namespace Number

namespace Decimal

open Text

variable {d : Decimal}

def value (d : Decimal) : ℚ := Nat.ofDigitChars 10 d.digits 0 * 10 ^ (d.point - d.digits.length)

theorem isDecimal_text (hdigits : ∀ c ∈ d.digits, c.isDigit = true) (hne : d.digits ≠ []) :
    IsDecimal d.text d.value := by
  have hd := isDigits_ofChars hdigits
  have hlength := length_ofChars hdigits
  have hpos : 0 < (ofChars d.digits).length := by
    rw [hlength]
    exact List.length_pos_iff.2 hne
  rw [value, ← natural_ofChars hdigits, ← hlength]
  simp only [text]
  rw [← hlength]
  generalize ofChars d.digits = digits at hd hpos
  -- The four ways to place the point.
  split
  · rename_i h
    have hplaces : d.point - digits.length = ((d.point.toNat - digits.length : Nat) : Int) := by
      omega
    rw [hplaces]
    exact .positional (isMantissa_zeros hd _)
  · split
    · rename_i h
      have hpoint := Int.toNat_of_nonneg h.1.le
      have hm := isMantissa_point hd (p := d.point.toNat) (by omega)
      rw [hpoint] at hm
      rw [List.append_assoc]
      exact .positional hm
    · split
      · rename_i h
        have hpoint : d.point = -((-d.point).toNat : Int) := by omega
        have hm := isMantissa_small hd (List.ne_nil_of_length_pos hpos) (-d.point).toNat
        rw [← hpoint] at hm
        exact .positional hm
      · have hvalue : (natural digits : ℚ) * 10 ^ (d.point - digits.length) =
            natural digits * 10 ^ (1 - (digits.length : Int)) * 10 ^ (d.point - 1) := by
          rw [mul_assoc, ← zpow_add₀ (by norm_num)]
          congr 2
          ring
        rw [hvalue, ofString_sign, List.append_assoc]
        exact .scientific _ (isMantissa_first hd hpos)

def ofMultiple (n : Nat) (unit : Int) : Decimal :=
  let digits := Nat.toDigits 10 n
  ⟨(digits.reverse.dropWhile (· == '0')).reverse, unit + digits.length⟩

section OfMultiple

variable (n : Nat) (unit : Int)

theorem exists_zeros_ofMultiple :
    ∃ k, Nat.toDigits 10 n = (ofMultiple n unit).digits ++ List.replicate k '0' := by
  let zeros := (Nat.toDigits 10 n).reverse.takeWhile (· == '0')
  have hzeros : zeros = List.replicate zeros.length '0' := by
    apply List.eq_replicate_of_mem
    intro c hc
    simpa using List.mem_takeWhile_imp hc
  refine ⟨zeros.length, ?_⟩
  rw [← List.reverse_inj, List.reverse_append, List.reverse_replicate, ← hzeros, ofMultiple,
    List.reverse_reverse, List.takeWhile_append_dropWhile]

theorem isDigit_of_mem_ofMultiple : ∀ c ∈ (ofMultiple n unit).digits, c.isDigit = true := by
  intro c hc
  obtain ⟨k, hk⟩ := exists_zeros_ofMultiple n unit
  apply isDigit_of_mem_toDigits (n := n)
  rw [hk]
  exact List.mem_append_left _ hc

theorem value_ofMultiple : (ofMultiple n unit).value = n * 10 ^ unit := by
  obtain ⟨k, hk⟩ := exists_zeros_ofMultiple n unit
  have hvalue : n = 10 ^ k * Nat.ofDigitChars 10 (ofMultiple n unit).digits 0 := by
    rw [← Nat.ofDigitChars_replicate_zero, ← Nat.ofDigitChars_append, ← hk,
      Nat.ofDigitChars_ten_toDigits]
  have hpoint : (ofMultiple n unit).point - (ofMultiple n unit).digits.length = k + unit := by
    have hlength := congrArg List.length hk
    rw [List.length_append, List.length_replicate] at hlength
    show unit + ((Nat.toDigits 10 n).length : Int) - _ = _
    omega
  rw [value, hpoint, zpow_add₀ (by norm_num), zpow_natCast]
  nth_rewrite 2 [hvalue]
  push_cast
  ring

theorem ofMultiple_ne_nil {n : Nat} (hn : n ≠ 0) : (ofMultiple n unit).digits ≠ [] := by
  intro hnil
  apply hn
  obtain ⟨k, hk⟩ := exists_zeros_ofMultiple n unit
  rw [← Nat.ofDigitChars_ten_toDigits (n := n), hk, hnil, List.nil_append,
    Nat.ofDigitChars_replicate_zero, Nat.mul_zero]

end OfMultiple

end Decimal

section Natural

open Fraction

variable {significand : Nat} {exponent : Int}

theorem value_exactly (significand : Nat) (exponent : Int) :
    (((exactly significand exponent).1 : Nat) : ℚ) * 10 ^ (exactly significand exponent).2 =
      significand * 2 ^ exponent := by
  cases exponent with
  | ofNat k =>
    rw [exactly]
    simp
  | negSucc k =>
    rw [exactly, zpow_negSucc, zpow_negSucc, show (10 : ℚ) = 5 * 2 by norm_num, mul_pow, mul_inv,
      Nat.pow_eq]
    push_cast
    rw [mul_assoc, mul_inv_cancel_left₀ (by positivity)]

theorem nearest_of_mem_candidates {unit : Int} {n : Nat}
    (h : n ∈ candidates significand exponent unit) :
    nearest false (Fraction.scale 10 ⟨n, 1⟩ unit) = .finite false significand exponent := by
  rw [candidates] at h
  simpa using (List.mem_filter.1 h).2

theorem exists_shortest (h : IsNormal significand exponent) :
    ∃ n unit, nearest false (Fraction.scale 10 ⟨n, 1⟩ unit) = .finite false significand exponent ∧
      shortest significand exponent = .ofMultiple n unit := by
  simp only [shortest]
  generalize hfound : List.findSome? _ _ = found
  cases found with
  | none =>
    -- All digits are written, so the decimal is the number itself.
    refine ⟨(exactly significand exponent).1, (exactly significand exponent).2, ?_, rfl⟩
    have hvalue : (Fraction.scale 10 ⟨(exactly significand exponent).1, 1⟩
        (exactly significand exponent).2).value = (size significand exponent).value := by
      rw [value_scale, value_size, ← value_exactly, value]
      simp
    rw [nearest_congr (den_scale_pos (by decide) Nat.one_pos _) (den_size_pos _ _) hvalue,
      nearest_size h]
  | some found =>
    obtain ⟨count, -, hhead⟩ := List.exists_of_findSome?_eq_some hfound
    obtain ⟨n, hn, rfl⟩ := Option.map_eq_some_iff.1 hhead
    exact ⟨n, _, nearest_of_mem_candidates (List.mem_of_head? hn), rfl⟩

structure Reads (f : Fraction) (x : Number) : Prop where
  den : 0 < f.den
  text : Text.IsDecimal x.text f.value
  nearest : Number.nearest false f = x

theorem reads_zero : Reads ⟨0, 1⟩ (.finite false 0 minExponent) where
  den := Nat.one_pos
  text := by
    have hvalue : value ⟨0, 1⟩ = ((Text.natural [.zero] : Nat) : ℚ) := by
      rw [show Text.natural [.zero] = 0 from Text.natural_zeros 1, value]
      simp
    rw [hvalue]
    exact .positional (.whole (Text.isDigits_zeros 1))
  nearest := nearest_zero Nat.one_pos rfl

theorem exists_reads_of_isNormal (h : IsNormal significand exponent) :
    ∃ f, Reads f (.finite false significand exponent) := by
  obtain ⟨n, unit, hnearest, hshortest⟩ := exists_shortest h
  have hden : 0 < (Fraction.scale 10 ⟨n, 1⟩ unit).den := den_scale_pos (by decide) Nat.one_pos _
  have hvalue : (Fraction.scale 10 ⟨n, 1⟩ unit).value = n * 10 ^ unit := by
    rw [value_scale, value]
    simp
  have hn : n ≠ 0 := by
    rintro rfl
    rw [Nat.cast_zero, zero_mul, value_eq_zero_iff hden] at hvalue
    rw [nearest_zero hden hvalue] at hnearest
    cases hnearest
    exact absurd h.pos (Nat.lt_irrefl 0)
  refine ⟨_, hden, ?_, hnearest⟩
  rw [text, if_neg h.pos.ne', hshortest, hvalue, ← Decimal.value_ofMultiple]
  exact Decimal.isDecimal_text (Decimal.isDigit_of_mem_ofMultiple n unit)
    (Decimal.ofMultiple_ne_nil unit hn)

theorem infinite_or_reads_ofNat (n : Nat) : ofNat n = .infinite false ∨ ∃ f, Reads f (ofNat n) := by
  rw [ofNat]
  rcases nearest_cases (f := ⟨n, 1⟩) false Nat.one_pos with
    hinfinite | hzero | ⟨significand, exponent, hnormal, hfinite⟩
  · exact .inl hinfinite
  · rw [hzero]
    exact .inr ⟨_, reads_zero⟩
  · rw [hfinite]
    exact .inr (exists_reads_of_isNormal hnormal)

theorem Reads.text_ne_infinity {f : Fraction} {x : Number} (h : Reads f x) :
    x.text ≠ Number.text (.infinite false) := by
  intro htext
  have hletter : (0x49 : CodeUnit) ∈ x.text := by
    rw [htext]
    decide
  exact absurd (h.text.unit_cases hletter) (by decide)

theorem Reads.eq_of_text_eq {f g : Fraction} {x y : Number} (hx : Reads f x) (hy : Reads g y)
    (h : x.text = y.text) : x = y := by
  have hvalue : f.value = g.value := by
    rw [← hx.text.value_eq, h, hy.text.value_eq]
  rw [← hx.nearest, nearest_congr hx.den hy.den hvalue, hy.nearest]

theorem text_ofNat_inj {m n : Nat} (h : (ofNat m).text = (ofNat n).text) : ofNat m = ofNat n := by
  rcases infinite_or_reads_ofNat m with hm | ⟨f, hf⟩
  · rcases infinite_or_reads_ofNat n with hn | ⟨g, hg⟩
    · rw [hm, hn]
    · rw [hm] at h
      exact absurd h.symm hg.text_ne_infinity
  · rcases infinite_or_reads_ofNat n with hn | ⟨g, hg⟩
    · rw [hn] at h
      exact absurd h hf.text_ne_infinity
    · exact hf.eq_of_text_eq hg h

end Natural

section Units

def signs : Text := Text.ofString ".e+-Infity"

variable {u : CodeUnit}

theorem unit_cases_text_nearest {f : Fraction} (hf : 0 < f.den) (negative : Bool)
    (hu : u ∈ (nearest negative f).text) : u.isDigit = true ∨ u ∈ signs := by
  rcases nearest_cases negative hf with h | h | ⟨significand, exponent, hnormal, h⟩
  · have hletters : text (.infinite negative) ⊆ signs := by cases negative <;> decide
    rw [h] at hu
    exact .inr (hletters hu)
  · rw [h, text, if_pos rfl] at hu
    exact .inl (Text.isDigits_ofNat 0 u hu)
  · obtain ⟨g, hg⟩ := exists_reads_of_isNormal hnormal
    have hdecimal := hg.text
    rw [text, if_neg hnormal.pos.ne'] at hdecimal
    rw [h, text, if_neg hnormal.pos.ne', List.mem_append] at hu
    rcases hu with hu | hu
    · have hminus : (if negative then Text.ofString "-" else []) ⊆ signs := by
        cases negative <;> decide
      exact .inr (hminus hu)
    · have hmarks : [CodeUnit.dot, .letterE, .plus, .minus] ⊆ signs := by decide
      exact (hdecimal.unit_cases hu).imp_right fun h => hmarks h

theorem unit_cases_wholeText {n : Int} (hu : u ∈ wholeText n) : u.isDigit = true ∨ u ∈ signs := by
  have hminus : Text.ofString "-" ⊆ signs := by decide
  rw [wholeText] at hu
  split at hu
  · cases n with
    | ofNat n => exact .inl (Text.isDigits_ofNat n u hu)
    | negSucc n =>
      rcases List.mem_append.1 hu with hu | hu
      · exact .inr (hminus hu)
      · exact .inl (Text.isDigits_ofNat _ u hu)
  · exact unit_cases_text_nearest Nat.one_pos _ hu

theorem not_mem_wholeText (hdigit : u.isDigit = false) (hsign : u ∉ signs) (n : Int) :
    u ∉ wholeText n := by
  intro hu
  rcases unit_cases_wholeText hu with h | h
  · rw [h] at hdigit
    cases hdigit
  · exact hsign h

end Units

end Number

end Offside
