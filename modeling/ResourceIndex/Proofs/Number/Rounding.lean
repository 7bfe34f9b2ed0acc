import Mathlib.Algebra.Order.Field.Power
import Mathlib.Data.Rat.Cast.Order
import Mathlib.Tactic.FieldSimp
import Mathlib.Tactic.Linarith
import Mathlib.Tactic.NormNum
import Mathlib.Tactic.Positivity
import Mathlib.Tactic.Ring
import ResourceIndex.Number.BinaryFormat
/-
Rounding to a binary format. The rationals nearest to a magnitude form an interval around its value,
half a last place to either side, and a quarter below the least significand of a higher exponent;
the bounds belong to it if the significand is even. Each quotient in the interval is rounded to the
magnitude.
-/
namespace ResourceIndex.BinaryFormat

variable {f : BinaryFormat} {num den m n d bits : Nat} {q : Int} {x : ℚ}

theorem zpow_of_neg (b : ℚ) (h : q < 0) : b ^ q = (b ^ (-q).toNat)⁻¹ := by
  rw [← zpow_natCast, ← zpow_neg]
  congr 1
  omega

theorem zpow_of_nonneg (b : ℚ) (h : 0 ≤ q) : b ^ q = b ^ q.toNat := by
  rw [← zpow_natCast]
  congr 1
  omega

theorem hidden_eq (f : BinaryFormat) : f.hidden = 2 ^ (f.precision - 1) := by
  rw [hidden, Nat.shiftLeft_eq, Nat.one_mul]

theorem hidden_pos (f : BinaryFormat) : 0 < f.hidden := by
  rw [hidden_eq]
  exact Nat.two_pow_pos _

theorem cast_hidden (hp : 1 ≤ f.precision) : (f.hidden : ℚ) = 2 ^ ((f.precision : ℤ) - 1) := by
  rw [hidden_eq, Nat.cast_pow, Nat.cast_ofNat, ← zpow_natCast, Nat.cast_sub hp, Nat.cast_one]

theorem roundHalfEven_eq_of_nat (hd : 0 < d) (hlow : 2 * (d * m) ≤ 2 * n + d)
    (hhigh : 2 * n ≤ 2 * (d * m) + d)
    (hodd : m % 2 = 1 → 2 * (d * m) < 2 * n + d ∧ 2 * n < 2 * (d * m) + d) :
    roundHalfEven n d = m := by
  have hn : n = d * (n / d) + n % d := (Nat.div_add_mod n d).symm
  have hr : n % d < d := Nat.mod_lt n hd
  have hdown : n / d ≤ m := by
    by_contra h
    have hmul := Nat.mul_le_mul_left d (show m + 1 ≤ n / d by omega)
    rw [Nat.mul_add, Nat.mul_one] at hmul
    omega
  have hup : m ≤ n / d + 1 := by
    by_contra h
    have hmul := Nat.mul_le_mul_left d (show n / d + 2 ≤ m by omega)
    rw [Nat.mul_add] at hmul
    omega
  have hcases : m = n / d ∨ m = n / d + 1 := by omega
  simp only [roundHalfEven]
  rcases hcases with h | h
  · rw [h] at hlow hhigh hodd ⊢
    split
    · rfl
    · split
      · omega
      · omega
  · rw [h] at hlow hhigh hodd ⊢
    rw [Nat.mul_add, Nat.mul_one] at hlow hhigh hodd
    split
    · omega
    · split
      · rfl
      · omega

/-- What is within half a unit of a natural number is rounded to it. -/
theorem roundHalfEven_eq (hd : 0 < d) (hlow : (m : ℚ) - 1 / 2 ≤ n / d)
    (hhigh : (n : ℚ) / d ≤ m + 1 / 2)
    (hodd : m % 2 = 1 → (m : ℚ) - 1 / 2 < n / d ∧ (n : ℚ) / d < m + 1 / 2) :
    roundHalfEven n d = m := by
  have hd' : (0 : ℚ) < d := by exact_mod_cast hd
  rw [le_div_iff₀ hd'] at hlow
  rw [div_le_iff₀ hd'] at hhigh
  rw [lt_div_iff₀ hd', div_lt_iff₀ hd'] at hodd
  refine roundHalfEven_eq_of_nat hd ?_ ?_ fun h => ?_
  · have hle : (2 * (d * m) : ℚ) ≤ 2 * n + d := by linarith
    exact_mod_cast hle
  · have hle : (2 * n : ℚ) ≤ 2 * (d * m) + d := by linarith
    exact_mod_cast hle
  · obtain ⟨hl, hh⟩ := hodd h
    have hl' : (2 * (d * m) : ℚ) < 2 * n + d := by linarith
    have hh' : (2 * n : ℚ) < 2 * (d * m) + d := by linarith
    exact ⟨by exact_mod_cast hl', by exact_mod_cast hh'⟩

theorem scaled_snd_pos (hden : 0 < den) (num : Nat) (q : Int) : 0 < (scaled num den q).2 := by
  rw [scaled]
  split
  · exact hden
  · rw [Nat.shiftLeft_eq]
    exact Nat.mul_pos hden (Nat.two_pow_pos _)

theorem scaled_div (num den : Nat) (q : Int) :
    ((scaled num den q).1 : ℚ) / (scaled num den q).2 = num / den / 2 ^ q := by
  rw [scaled]
  split
  · rw [zpow_of_neg _ ‹q < 0›, div_inv_eq_mul, Nat.shiftLeft_eq, Nat.cast_mul,
      Nat.cast_pow, Nat.cast_ofNat]
    ring
  · rw [zpow_of_nonneg _ (not_lt.mp ‹¬ q < 0›), div_div, Nat.shiftLeft_eq, Nat.cast_mul,
      Nat.cast_pow, Nat.cast_ofNat]

/-- The logarithms give the size of a quotient up to a factor of two. -/
theorem lt_div_of_log2 (hnum : 0 < num) (hden : 0 < den) :
    (2 : ℚ) ^ ((Nat.log2 num : ℤ) - Nat.log2 den - 1) < num / den := by
  have hd : (0 : ℚ) < den := by exact_mod_cast hden
  have hl : (2 : ℚ) ^ (Nat.log2 num : ℤ) ≤ num := by
    rw [zpow_natCast]
    exact_mod_cast Nat.log2_self_le hnum.ne'
  have hh : (den : ℚ) < 2 ^ ((Nat.log2 den : ℤ) + 1) := by
    have h := Nat.lt_log2_self (n := den)
    rw [← Nat.cast_succ, zpow_natCast]
    exact_mod_cast h
  rw [lt_div_iff₀ hd]
  calc (2 : ℚ) ^ ((Nat.log2 num : ℤ) - Nat.log2 den - 1) * den
      < 2 ^ ((Nat.log2 num : ℤ) - Nat.log2 den - 1) * 2 ^ ((Nat.log2 den : ℤ) + 1) :=
        mul_lt_mul_of_pos_left hh (zpow_pos two_pos _)
    _ = 2 ^ (Nat.log2 num : ℤ) := by
        rw [← zpow_add₀ two_ne_zero]
        congr 1
        ring
    _ ≤ num := hl

theorem div_lt_of_log2 (hden : 0 < den) :
    (num : ℚ) / den < 2 ^ ((Nat.log2 num : ℤ) - Nat.log2 den + 1) := by
  have hd : (0 : ℚ) < den := by exact_mod_cast hden
  have hl : (2 : ℚ) ^ (Nat.log2 den : ℤ) ≤ den := by
    rw [zpow_natCast]
    exact_mod_cast Nat.log2_self_le hden.ne'
  have hh : (num : ℚ) < 2 ^ ((Nat.log2 num : ℤ) + 1) := by
    have h := Nat.lt_log2_self (n := num)
    rw [← Nat.cast_succ, zpow_natCast]
    exact_mod_cast h
  rw [div_lt_iff₀ hd]
  calc (num : ℚ) < 2 ^ ((Nat.log2 num : ℤ) + 1) := hh
    _ = 2 ^ ((Nat.log2 num : ℤ) - Nat.log2 den + 1) * 2 ^ (Nat.log2 den : ℤ) := by
        rw [← zpow_add₀ two_ne_zero]
        congr 1
        ring
    _ ≤ 2 ^ ((Nat.log2 num : ℤ) - Nat.log2 den + 1) * den :=
        mul_le_mul_of_nonneg_left hl (zpow_pos two_pos _).le

/-- The last place is the least one, not below that of the format, at which the quotient has no more
digits than the format. -/
structure IsLastPlace (f : BinaryFormat) (x : ℚ) (q : Int) : Prop where
  least : f.minExp ≤ q
  fits : x < 2 ^ (q + f.precision)
  fills : f.minExp < q → 2 ^ (q + f.precision - 1) ≤ x

theorem isLastPlace_lastPlace (hnum : 0 < num) (hden : 0 < den) :
    f.IsLastPlace ((num : ℚ) / den) (f.lastPlace num den) := by
  have hlow := lt_div_of_log2 hnum hden
  have hhigh : (num : ℚ) / den < _ := div_lt_of_log2 hden
  generalize hq : max f.minExp ((Nat.log2 num : Int) - Nat.log2 den - f.precision) = q
  have hscaled := scaled_div num den q
  have hpos := scaled_snd_pos hden num q
  have hfull : 1 <<< f.precision ≤ (scaled num den q).1 / (scaled num den q).2 ↔
      (2 : ℚ) ^ (q + f.precision) ≤ num / den := by
    have hd : (0 : ℚ) < (scaled num den q).2 := by exact_mod_cast hpos
    rw [Nat.shiftLeft_eq, Nat.one_mul, Nat.le_div_iff_mul_le hpos, ← Nat.cast_le (α := ℚ),
      Nat.cast_mul, ← le_div_iff₀ hd, hscaled, le_div_iff₀ (zpow_pos two_pos _), Nat.cast_pow,
      Nat.cast_ofNat, ← zpow_natCast, ← zpow_add₀ two_ne_zero, add_comm q]
  have hplace : f.lastPlace num den =
      if 1 <<< f.precision ≤ (scaled num den q).1 / (scaled num den q).2 then q + 1 else q := by
    rw [lastPlace, hq]
  rw [hplace]
  split
  · rename_i h
    have hx := hfull.mp h
    refine ⟨by omega, hhigh.trans_le (zpow_le_zpow_right₀ one_le_two (by omega)), fun _ => ?_⟩
    rwa [show q + 1 + f.precision - 1 = q + f.precision by ring]
  · rename_i h
    refine ⟨by omega, not_le.mp fun hle => h (hfull.mpr hle), fun hmin => ?_⟩
    exact (zpow_le_zpow_right₀ one_le_two (by omega)).trans hlow.le

/-- A magnitude as a significand that the format can hold and the exponent of its last place. -/
structure IsDecoded (f : BinaryFormat) (bits m : Nat) (q : Int) : Prop where
  least : f.minExp ≤ q
  fits : m < 2 * f.hidden
  fills : f.minExp < q → f.hidden ≤ m
  encoded : m + (q - f.minExp).toNat * f.hidden = bits

theorem isDecoded_decode (f : BinaryFormat) (bits : Nat) :
    f.IsDecoded bits (f.decode bits).1 (f.decode bits).2 := by
  have hdiv := Nat.div_add_mod bits f.hidden
  have hmod := Nat.mod_lt bits f.hidden_pos
  rw [decode]
  generalize bits / f.hidden = k at *
  split
  · rename_i hzero
    rw [hzero, Nat.mul_zero] at hdiv
    refine ⟨le_rfl, by omega, fun h => absurd h (lt_irrefl _), ?_⟩
    rw [sub_self, Int.toNat_zero, Nat.zero_mul, Nat.add_zero]
  · rename_i hzero
    refine ⟨by omega, by omega, fun _ => Nat.le_add_left _ _, ?_⟩
    obtain ⟨j, rfl⟩ := Nat.exists_eq_succ_of_ne_zero hzero
    rw [show (f.minExp + ((j + 1 : Nat) : Int) - 1 - f.minExp).toNat = j by omega]
    rw [Nat.mul_succ, Nat.mul_comm] at hdiv
    omega

/-- How far below a significand the numbers lie that are rounded to it, in units of the last
place. -/
def margin (f : BinaryFormat) (m : Nat) (q : Int) : ℚ :=
  if m = f.hidden ∧ f.minExp < q then 1 / 4 else 1 / 2

/-- The number is one of those nearest to a significand with its exponent. -/
structure Nears (f : BinaryFormat) (m : Nat) (q : Int) (x : ℚ) : Prop where
  low : (m - f.margin m q) * 2 ^ q ≤ x
  high : x ≤ (m + 1 / 2) * 2 ^ q
  inside : m % 2 = 1 → (m - f.margin m q) * 2 ^ q < x ∧ x < (m + 1 / 2) * 2 ^ q

theorem Nears.of_lt (hlow : (m - f.margin m q) * 2 ^ q < x) (hhigh : x < (m + 1 / 2) * 2 ^ q) :
    f.Nears m q x := ⟨hlow.le, hhigh.le, fun _ => ⟨hlow, hhigh⟩⟩

theorem margin_le (f : BinaryFormat) (m : Nat) (q : Int) : f.margin m q ≤ 1 / 2 := by
  rw [margin]
  split
  · norm_num
  · exact le_rfl

/-- At the last place of its significand a number is rounded to this significand. -/
theorem Nears.roundHalfEven (h : f.Nears m q (num / den)) (hden : 0 < den) :
    BinaryFormat.roundHalfEven (scaled num den q).1 (scaled num den q).2 = m := by
  have hpow : (0 : ℚ) < 2 ^ q := zpow_pos two_pos q
  have hmargin := f.margin_le m q
  refine roundHalfEven_eq (scaled_snd_pos hden num q) ?_ ?_ fun hodd => ?_
  · rw [scaled_div, le_div_iff₀ hpow]
    exact (mul_le_mul_of_nonneg_right (by linarith) hpow.le).trans h.low
  · rw [scaled_div, div_le_iff₀ hpow]
    exact h.high
  · obtain ⟨hlow, hhigh⟩ := h.inside hodd
    rw [scaled_div, lt_div_iff₀ hpow, div_lt_iff₀ hpow]
    exact ⟨(mul_le_mul_of_nonneg_right (by linarith) hpow.le).trans_lt hlow, hhigh⟩

theorem hidden_mul_zpow (hp : 1 ≤ f.precision) (q : Int) :
    (f.hidden : ℚ) * 2 ^ q = 2 ^ (q + f.precision - 1) := by
  rw [cast_hidden hp, ← zpow_add₀ two_ne_zero]
  congr 1
  ring

/-- A last place below that of the significand belongs to a number below every significand of this
exponent, which is only near to the least of them. -/
theorem Nears.lastPlace_of_lt {p : Int} (h : f.Nears m q x) (hp : 1 ≤ f.precision)
    (hm : f.IsDecoded bits m q) (hx : f.IsLastPlace x p) (hpq : p < q) :
    p = q - 1 ∧ f.minExp < q ∧ m = f.hidden := by
  have hpow : (0 : ℚ) < 2 ^ q := zpow_pos two_pos q
  have hmargin := f.margin_le m q
  have hq : f.minExp < q := hx.least.trans_lt hpq
  have hbelow : x < f.hidden * 2 ^ q := by
    rw [hidden_mul_zpow hp]
    exact hx.fits.trans_le (zpow_le_zpow_right₀ one_le_two (by omega))
  have hmin : m = f.hidden := by
    by_contra hne
    have hlarge : (f.hidden : ℚ) + 1 ≤ m := by
      have := hm.fills hq
      exact_mod_cast (show f.hidden + 1 ≤ m by omega)
    have hle : (f.hidden : ℚ) * 2 ^ q ≤ (m - f.margin m q) * 2 ^ q :=
      mul_le_mul_of_nonneg_right (by linarith) hpow.le
    linarith [h.low]
  refine ⟨?_, hq, hmin⟩
  by_contra hne
  have hone : (1 : ℚ) ≤ f.hidden := by exact_mod_cast f.hidden_pos
  have hhalf : (2 : ℚ) ^ (q + f.precision - 2) = f.hidden / 2 * 2 ^ q := by
    rw [div_mul_eq_mul_div, hidden_mul_zpow hp,
      show q + f.precision - 2 = q + f.precision - 1 - 1 by ring, zpow_sub_one₀ two_ne_zero]
    rfl
  have hfar : (2 : ℚ) ^ (p + f.precision) ≤ (m - f.margin m q) * 2 ^ q :=
    calc (2 : ℚ) ^ (p + f.precision)
      _ ≤ 2 ^ (q + f.precision - 2) := zpow_le_zpow_right₀ one_le_two (by omega)
      _ = f.hidden / 2 * 2 ^ q := hhalf
      _ ≤ (m - f.margin m q) * 2 ^ q := by
          refine mul_le_mul_of_nonneg_right ?_ hpow.le
          rw [hmin] at hmargin ⊢
          linarith
  linarith [h.low, hx.fits]

/-- A number near a significand is not above every significand of this exponent. -/
theorem Nears.lastPlace_le {p : Int} (h : f.Nears m q x) (hp : 1 ≤ f.precision)
    (hm : f.IsDecoded bits m q) (hx : f.IsLastPlace x p) : p ≤ q := by
  by_contra hqp
  have hpow : (0 : ℚ) < 2 ^ q := zpow_pos two_pos q
  have hfits : (m : ℚ) + 1 ≤ 2 * f.hidden := by exact_mod_cast hm.fits
  have hhigh : x < 2 * (f.hidden * 2 ^ q) := by
    have hlt : ((m : ℚ) + 1 / 2) * 2 ^ q < 2 * f.hidden * 2 ^ q :=
      mul_lt_mul_of_pos_right (by linarith) hpow
    linarith [h.high]
  have hlow : 2 * (f.hidden * 2 ^ q) ≤ x := by
    rw [hidden_mul_zpow hp, ← zpow_one_add₀ two_ne_zero]
    refine (zpow_le_zpow_right₀ one_le_two (by omega)).trans (hx.fills ?_)
    exact hm.least.trans_lt (not_le.mp hqp)
  linarith

/-- At a last place one below that of the least significand of an exponent, the numbers near to it
are rounded to its double. -/
theorem Nears.roundHalfEven_below (h : f.Nears f.hidden q (num / den)) (hp : 2 ≤ f.precision)
    (hden : 0 < den) (hmin : f.minExp < q)
    (hx : f.IsLastPlace ((num : ℚ) / den) (q - 1)) :
    BinaryFormat.roundHalfEven (scaled num den (q - 1)).1 (scaled num den (q - 1)).2 =
      2 * f.hidden := by
  have hhalf : (0 : ℚ) < 2 ^ (q - 1) := zpow_pos two_pos _
  have hdouble : (2 : ℚ) ^ q = 2 * 2 ^ (q - 1) := by
    rw [← zpow_one_add₀ two_ne_zero]
    congr 1
    ring
  have hlow := h.low
  have hfits := hx.fits
  rw [margin, if_pos ⟨rfl, hmin⟩, hdouble] at hlow
  rw [show q - 1 + f.precision = q - 1 + 1 + ((f.precision : ℤ) - 1) by ring,
    zpow_add₀ two_ne_zero, zpow_add_one₀ two_ne_zero, ← cast_hidden (by omega)] at hfits
  refine roundHalfEven_eq (scaled_snd_pos hden num _) ?_ ?_ fun hodd => ?_
  · rw [scaled_div, le_div_iff₀ hhalf, Nat.cast_mul, Nat.cast_ofNat]
    linarith
  · rw [scaled_div, div_le_iff₀ hhalf, Nat.cast_mul, Nat.cast_ofNat]
    linarith
  · omega

theorem Nears.ofQuotient_eq (h : f.Nears m q (num / den)) (hp : 2 ≤ f.precision)
    (hm : f.IsDecoded bits m q) (hnum : 0 < num) (hden : 0 < den) (hbits : bits ≤ f.infinity) :
    f.ofQuotient num den = bits := by
  rw [ofQuotient, if_neg hnum.ne']
  have hplace := isLastPlace_lastPlace (f := f) hnum hden
  suffices hround : BinaryFormat.roundHalfEven (scaled num den (f.lastPlace num den)).1
      (scaled num den (f.lastPlace num den)).2 +
        (f.lastPlace num den - f.minExp).toNat * f.hidden = bits by
    simp only [hround]
    exact Nat.min_eq_right hbits
  have hle := h.lastPlace_le (by omega) hm hplace
  generalize f.lastPlace num den = p at hplace hle ⊢
  rcases hle.eq_or_lt with rfl | hlt
  · rw [h.roundHalfEven hden]
    exact hm.encoded
  · obtain ⟨rfl, hmin, rfl⟩ := h.lastPlace_of_lt (by omega) hm hplace hlt
    rw [h.roundHalfEven_below hp hden hmin hplace, ← hm.encoded]
    obtain ⟨k, hk⟩ : ∃ k : ℕ, (q - f.minExp).toNat = k + 1 := ⟨(q - f.minExp).toNat - 1, by omega⟩
    rw [hk, show (q - 1 - f.minExp).toNat = k by omega]
    ring

end ResourceIndex.BinaryFormat
