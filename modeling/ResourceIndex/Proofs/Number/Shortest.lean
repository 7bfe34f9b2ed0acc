import ResourceIndex.Number.Shortest
import ResourceIndex.Proofs.Number.Rounding
/-
The shortest decimal is one that is rounded to the magnitude that it was made for. With 17 digits
the grid of decimals is finer than the interval of a double, so that one of the two points around
its value is in the interval; grids with fewer digits are only taken if they have such a point.
-/
namespace ResourceIndex.BinaryFormat

variable {f : BinaryFormat} {bits m c : Nat} {q t : Int}

/-- The value of `c * 10 ^ t`. -/
def decimal (c : Nat) (t : Int) : ℚ := c * 10 ^ t

theorem IsDecoded.pos (h : f.IsDecoded bits m q) (hbits : bits ≠ 0) : 0 < m := by
  rcases h.least.lt_or_eq with hq | hq
  · exact f.hidden_pos.trans_le (h.fills hq)
  · have hencoded := h.encoded
    rw [← hq, sub_self, Int.toNat_zero, Nat.zero_mul] at hencoded
    omega

namespace Neighbourhood

variable {n : Neighbourhood}

theorem point_eq (n : Neighbourhood) (c : Nat) (t : Int) :
    ((n.point c t).1 : ℚ) = decimal c t * n.den * (n.point c t).2 ∧ 0 < (n.point c t).2 := by
  rw [point, decimal]
  split
  · have hne : (10 : ℚ) ^ (-t).toNat ≠ 0 := pow_ne_zero _ (by norm_num)
    refine ⟨?_, Nat.pow_pos (by decide)⟩
    rw [zpow_of_neg _ ‹t < 0›, Nat.cast_mul, Nat.pow_eq, Nat.cast_pow, Nat.cast_ofNat]
    field_simp
  · refine ⟨?_, Nat.one_pos⟩
    rw [zpow_of_nonneg _ (not_lt.mp ‹¬ t < 0›), Nat.cast_mul, Nat.cast_mul, Nat.pow_eq,
      Nat.cast_pow, Nat.cast_ofNat, Nat.cast_one]
    ring

/-- A decimal is in an interval if it lies between the bounds. -/
theorem holds_iff (hden : 0 < n.den) (c : Nat) (t : Int) :
    n.holds c t = true ↔
      if n.closed then (n.low : ℚ) / n.den ≤ decimal c t ∧ decimal c t ≤ n.high / n.den
      else (n.low : ℚ) / n.den < decimal c t ∧ decimal c t < n.high / n.den := by
  obtain ⟨hpoint, hscale⟩ := n.point_eq c t
  have hd : (0 : ℚ) < n.den := by exact_mod_cast hden
  have hs : (0 : ℚ) < (n.point c t).2 := by exact_mod_cast hscale
  rw [div_le_iff₀ hd, le_div_iff₀ hd, div_lt_iff₀ hd, lt_div_iff₀ hd, holds]
  generalize n.point c t = p at hpoint hs ⊢
  cases n.closed with
  | true =>
    simp only [if_true, Bool.and_eq_true, decide_eq_true_eq]
    rw [← Nat.cast_le (α := ℚ), ← Nat.cast_le (α := ℚ), hpoint, Nat.cast_mul, Nat.cast_mul]
    exact and_congr (mul_le_mul_iff_left₀ hs) (mul_le_mul_iff_left₀ hs)
  | false =>
    simp only [Bool.false_eq_true, if_false, Bool.and_eq_true, decide_eq_true_eq]
    rw [← Nat.cast_lt (α := ℚ), ← Nat.cast_lt (α := ℚ), hpoint, Nat.cast_mul, Nat.cast_mul]
    exact and_congr (mul_lt_mul_iff_left₀ hs) (mul_lt_mul_iff_left₀ hs)

end Neighbourhood

/-- The interval of a magnitude has its value inside and the numbers nearest to it between its
bounds. -/
structure Neighbourhood.IsAround (n : Neighbourhood) (f : BinaryFormat) (m : Nat) (q : Int) :
    Prop where
  den_pos : 0 < n.den
  low : (n.low : ℚ) / n.den = (m - f.margin m q) * 2 ^ q
  value : (n.value : ℚ) / n.den = m * 2 ^ q
  high : (n.high : ℚ) / n.den = (m + 1 / 2) * 2 ^ q
  closed : n.closed = (m % 2 == 0)

/-- A quarter of the last place, as a quotient of naturals. -/
theorem quarter_eq (q : Int) :
    let unit : Nat × Nat := if q < 2 then (1, 1 <<< (2 - q).toNat) else (1 <<< (q - 2).toNat, 1)
    0 < unit.2 ∧ (unit.1 : ℚ) / unit.2 = 2 ^ q / 4 := by
  have hquarter : (2 : ℚ) ^ q / 4 = 2 ^ (q - 2) := by
    rw [zpow_sub₀ two_ne_zero]
    norm_num
  intro unit
  rw [hquarter]
  by_cases hq : q < 2
  · have hunit : unit = (1, 2 ^ (2 - q).toNat) := by
      simp only [unit, if_pos hq, Nat.shiftLeft_eq, Nat.one_mul]
    rw [hunit, zpow_of_neg _ (by omega), neg_sub]
    refine ⟨Nat.two_pow_pos _, ?_⟩
    push_cast
    exact one_div _
  · have hunit : unit = (2 ^ (q - 2).toNat, 1) := by
      simp only [unit, if_neg hq, Nat.shiftLeft_eq, Nat.one_mul]
    rw [hunit, zpow_of_nonneg _ (by omega)]
    refine ⟨Nat.one_pos, ?_⟩
    push_cast
    exact div_one _

theorem isAround_neighbourhood (hm : 0 < (f.decode bits).1) :
    (f.neighbourhood bits).IsAround f (f.decode bits).1 (f.decode bits).2 := by
  rw [neighbourhood]
  generalize f.decode bits = p at hm ⊢
  obtain ⟨m, q⟩ := p
  obtain ⟨hpos, hunit⟩ := quarter_eq q
  simp only
  generalize (if q < 2 then (1, 1 <<< (2 - q).toNat) else (1 <<< (q - 2).toNat, 1) : Nat × Nat) =
    unit at hpos hunit ⊢
  refine ⟨hpos, ?_, ?_, ?_, rfl⟩
  · rw [margin, Nat.cast_mul, mul_div_assoc, hunit, Nat.cast_sub (by split <;> omega)]
    split
    · push_cast
      ring
    · push_cast
      ring
  · rw [Nat.cast_mul, mul_div_assoc, hunit]
    push_cast
    ring
  · rw [Nat.cast_mul, mul_div_assoc, hunit]
    push_cast
    ring

theorem Neighbourhood.IsAround.holds_iff {n : Neighbourhood} (h : n.IsAround f m q) (c : Nat)
    (t : Int) : n.holds c t = true ↔ f.Nears m q (decimal c t) := by
  rw [Neighbourhood.holds_iff h.den_pos, h.low, h.high, h.closed]
  cases hm : m % 2 == 0 with
  | true =>
    have heven : m % 2 ≠ 1 := by
      have := beq_iff_eq.mp hm
      omega
    exact ⟨fun ⟨hl, hh⟩ => ⟨hl, hh, fun hodd => absurd hodd heven⟩, fun h => ⟨h.low, h.high⟩⟩
  | false =>
    have hodd : m % 2 = 1 := by
      have := beq_eq_false_iff_ne.mp hm
      omega
    exact ⟨fun ⟨hl, hh⟩ => ⟨hl.le, hh.le, fun _ => ⟨hl, hh⟩⟩, fun h => h.inside hodd⟩

namespace Neighbourhood

variable {n : Neighbourhood}

/-- The coefficient of the last point of a grid that is not above the value. -/
def floorOn (n : Neighbourhood) (t : Int) : Nat :=
  if t < 0 then n.value * Nat.pow 10 (-t).toNat / n.den else n.value / (n.den * Nat.pow 10 t.toNat)

theorem floorOn_spec (hden : 0 < n.den) (t : Int) :
    decimal (n.floorOn t) t ≤ n.value / n.den ∧
      (n.value : ℚ) / n.den < decimal (n.floorOn t + 1) t := by
  have hd : (0 : ℚ) < n.den := by exact_mod_cast hden
  have hten : (0 : ℚ) < 10 ^ t := zpow_pos (by norm_num) t
  -- Both forms of the coefficient are the same quotient rounded down.
  have hfloor : ∀ a b : Nat, 0 < b → (a : ℚ) / b = n.value / n.den / 10 ^ t →
      decimal (a / b) t ≤ n.value / n.den ∧ (n.value : ℚ) / n.den < decimal (a / b + 1) t := by
    intro a b hb heq
    have hb' : (0 : ℚ) < b := by exact_mod_cast hb
    rw [decimal, decimal, ← le_div_iff₀ hten, ← div_lt_iff₀ hten, ← heq, le_div_iff₀ hb',
      div_lt_iff₀ hb']
    have hlow := Nat.div_mul_le_self a b
    have hhigh := Nat.mul_comm b _ ▸ Nat.lt_mul_div_succ a hb
    exact ⟨by exact_mod_cast hlow, by exact_mod_cast hhigh⟩
  rw [floorOn]
  split
  · refine hfloor _ _ hden ?_
    rw [zpow_of_neg _ ‹t < 0›, Nat.pow_eq, div_inv_eq_mul]
    push_cast
    ring
  · refine hfloor _ _ (Nat.mul_pos hden (Nat.pow_pos (by decide))) ?_
    rw [zpow_of_nonneg _ (not_lt.mp ‹¬ t < 0›), Nat.pow_eq, div_div]
    push_cast
    rfl

theorem onGrid?_eq (n : Neighbourhood) (t : Int) :
    n.onGrid? t = match n.holds (n.floorOn t) t, n.holds (n.floorOn t + 1) t with
      | true, true => some (if n.distance (n.floorOn t + 1) t < n.distance (n.floorOn t) t
          then n.floorOn t + 1 else n.floorOn t, t)
      | true, false => some (n.floorOn t, t)
      | false, true => some (n.floorOn t + 1, t)
      | false, false => none := rfl

/-- A point that is taken on a grid is in the interval. -/
theorem holds_of_onGrid? {u : Int} (h : n.onGrid? t = some (c, u)) : n.holds c u = true := by
  rw [onGrid?_eq] at h
  cases hlow : n.holds (n.floorOn t) t <;> cases hhigh : n.holds (n.floorOn t + 1) t <;>
    rw [hlow, hhigh] at h
  · cases h
  · cases h
    exact hhigh
  · cases h
    exact hlow
  · cases h
    split
    · exact hhigh
    · exact hlow

theorem isSome_onGrid? (h : n.holds (n.floorOn t) t = true ∨ n.holds (n.floorOn t + 1) t = true) :
    (n.onGrid? t).isSome = true := by
  rw [onGrid?_eq]
  cases hlow : n.holds (n.floorOn t) t <;> cases hhigh : n.holds (n.floorOn t + 1) t
  · rw [hlow, hhigh] at h
    cases h with
    | inl h => cases h
    | inr h => cases h
  · rfl
  · rfl
  · rfl

end Neighbourhood

theorem lt_pow_digitCount (k : Nat) : k < 10 ^ digitCount k := by
  rw [digitCount]
  split
  · rename_i hk
    rw [hk]
    exact Nat.one_pos
  · exact (Nat.length_toDigits_le_iff (by decide) Nat.length_toDigits_pos).mp le_rfl

theorem pow_digitCount_le {k : Nat} (hk : 0 < k) : 10 ^ (digitCount k - 1) ≤ k := by
  rw [digitCount, if_neg hk.ne']
  have hpos : 0 < (Nat.toDigits 10 k).length := Nat.length_toDigits_pos
  by_contra h
  rcases Nat.eq_zero_or_pos ((Nat.toDigits 10 k).length - 1) with hone | hmore
  · rw [hone, Nat.pow_zero] at h
    omega
  · have hshort :=
      (Nat.length_toDigits_le_iff (n := k) (by decide : 1 < 10) hmore).mpr (not_le.mp h)
    omega

theorem digitCount_pos {k : Nat} (hk : 0 < k) : 0 < digitCount k := by
  rw [digitCount, if_neg hk.ne']
  exact Nat.length_toDigits_pos

/-- The decimal exponent is not too large. -/
theorem pow_decimalExponent_le {num den : Nat} (hnum : 0 < num) (hden : 0 < den) :
    (10 : ℚ) ^ (decimalExponent num den - 1) ≤ num / den := by
  have hd : (0 : ℚ) < den := by exact_mod_cast hden
  -- A quotient that is less than one is compared through its inverse.
  have hinverse : ∀ k : Nat, den ≤ num * 10 ^ k → (10 : ℚ) ^ (-(k : ℤ)) ≤ num / den := by
    intro k hk
    have hk' : (den : ℚ) ≤ num * 10 ^ k := by exact_mod_cast hk
    rw [zpow_neg, zpow_natCast, le_div_iff₀ hd, inv_mul_le_iff₀ (by positivity), mul_comm]
    exact hk'
  rw [decimalExponent]
  split
  · rename_i hle
    have hquotient := Nat.div_pos hle hden
    have hcount := digitCount_pos hquotient
    rw [show (digitCount (num / den) : ℤ) - 1 = ((digitCount (num / den) - 1 : Nat) : ℤ) by omega,
      zpow_natCast, le_div_iff₀ hd]
    have hmul := (Nat.mul_le_mul_right den (pow_digitCount_le hquotient)).trans
      (Nat.div_mul_le_self num den)
    exact_mod_cast hmul
  · rename_i hlt
    have hquotient := Nat.div_pos (not_le.mp hlt).le hnum
    have hcount := digitCount_pos hquotient
    have hbelow := lt_pow_digitCount (den / num)
    rw [Nat.div_lt_iff_lt_mul hnum, Nat.mul_comm] at hbelow
    simp only
    generalize digitCount (den / num) = k at hcount hbelow ⊢
    split
    · rename_i hle
      rw [show 2 - (k : ℤ) - 1 = -((k - 1 : Nat) : ℤ) by omega]
      exact hinverse _ hle
    · rw [show 1 - (k : ℤ) - 1 = -(k : ℤ) by ring]
      exact hinverse _ hbelow.le

theorem decimal_dropZeros (fuel c : Nat) (t : Int) :
    decimal (dropZeros fuel c t).1 (dropZeros fuel c t).2 = decimal c t := by
  induction fuel generalizing c t with
  | zero => rfl
  | succ fuel ih =>
    rw [dropZeros]
    split
    · rename_i h
      rw [ih, decimal, decimal]
      have hc : (c : ℚ) = (c / 10 : Nat) * 10 := by
        exact_mod_cast (Nat.div_mul_cancel (Nat.dvd_of_mod_eq_zero h.right)).symm
      rw [hc, zpow_add_one₀ (by norm_num)]
      ring
    · rfl

/-- On a grid that is finer than the interval one of the two points around the value is in it. -/
theorem nears_floor_or_succ {n : Neighbourhood} (h : n.IsAround f m q) (hm : m < 2 * f.hidden)
    (hp : 2 * f.hidden < 10 ^ 16) (hfine : (10 : ℚ) ^ t * 10 ^ 16 ≤ m * 2 ^ q) :
    f.Nears m q (decimal (n.floorOn t) t) ∨ f.Nears m q (decimal (n.floorOn t + 1) t) := by
  obtain ⟨hlow, hhigh⟩ := n.floorOn_spec h.den_pos t
  have hstep : decimal (n.floorOn t + 1) t = decimal (n.floorOn t) t + 10 ^ t := by
    rw [decimal, decimal]
    push_cast
    ring
  have hpow : (0 : ℚ) < 2 ^ q := zpow_pos two_pos q
  have hm' : (m : ℚ) + 1 ≤ 2 * f.hidden := by exact_mod_cast hm
  have hp' : (2 : ℚ) * f.hidden + 1 ≤ 10 ^ 16 := by exact_mod_cast hp
  rw [h.value] at hlow hhigh
  rw [hstep] at hhigh ⊢
  by_cases hedge : m = f.hidden ∧ f.minExp < q
  · -- Half a last place above the value there is room for a step of the grid.
    have hgap : (10 : ℚ) ^ t < 2 ^ q / 2 := by
      have hcast : (m : ℚ) = f.hidden := by exact_mod_cast hedge.left
      have hmul : (2 * m + 1 : ℚ) * 2 ^ q ≤ 10 ^ 16 * 2 ^ q :=
        mul_le_mul_of_nonneg_right (by linarith) hpow.le
      linarith
    refine .inr (.of_lt ?_ (by linarith))
    rw [margin, if_pos hedge]
    linarith
  · have hgap : (10 : ℚ) ^ t < 2 ^ q := by
      have hmul : (m + 1 : ℚ) * 2 ^ q ≤ 10 ^ 16 * 2 ^ q :=
        mul_le_mul_of_nonneg_right (by linarith) hpow.le
      linarith
    have hmargin : f.margin m q = 1 / 2 := if_neg hedge
    by_cases hfar : decimal (n.floorOn t) t ≤ (m - f.margin m q) * 2 ^ q
    · rw [hmargin] at hfar
      refine .inr (.of_lt ?_ (by linarith))
      rw [hmargin]
      linarith
    · exact .inl (.of_lt (not_le.mp hfar) (by linarith))

/-- The last of the grids that are tried has a point in the interval, if none before it has. -/
theorem exists_onGrid? (hp : 2 * f.hidden < 10 ^ 16) (hbits : bits ≠ 0) {t : Int}
    (ht : decimalExponent (f.neighbourhood bits).value (f.neighbourhood bits).den = t) :
    ∃ c u, (List.range 17).findSome? (fun k : Nat =>
      (f.neighbourhood bits).onGrid? (t - k - 1)) = some (c, u) := by
  have hdecoded := f.isDecoded_decode bits
  have hm := hdecoded.pos hbits
  have hn := isAround_neighbourhood hm
  have hvalue : 0 < (f.neighbourhood bits).value := by
    rw [Nat.pos_iff_ne_zero]
    intro hzero
    have hpos : (0 : ℚ) < (f.decode bits).1 * 2 ^ (f.decode bits).2 :=
      mul_pos (by exact_mod_cast hm) (zpow_pos two_pos _)
    rw [← hn.value, hzero, Nat.cast_zero, zero_div] at hpos
    exact lt_irrefl _ hpos
  have hexponent := pow_decimalExponent_le hvalue hn.den_pos
  rw [ht, hn.value] at hexponent
  have hfine : (10 : ℚ) ^ (t - (16 : Nat) - 1) * 10 ^ 16 ≤
      (f.decode bits).1 * 2 ^ (f.decode bits).2 := by
    rw [← zpow_natCast, ← zpow_add₀ (by norm_num)]
    convert hexponent using 2
    push_cast
    ring
  have hnears := nears_floor_or_succ hn hdecoded.fits hp hfine
  rw [← hn.holds_iff, ← hn.holds_iff] at hnears
  have hlast := Neighbourhood.isSome_onGrid? hnears
  have hfound : ((List.range 17).findSome? (fun k : Nat =>
      (f.neighbourhood bits).onGrid? (t - k - 1))).isSome = true :=
    List.findSome?_isSome_iff.mpr ⟨16, List.mem_range.mpr (by decide), hlast⟩
  obtain ⟨⟨c, u⟩, hcu⟩ := Option.isSome_iff_exists.mp hfound
  exact ⟨c, u, hcu⟩

/-- The shortest decimal of a magnitude is near to it. -/
theorem nears_shortest (hp : 2 * f.hidden < 10 ^ 16) (hbits : bits ≠ 0) :
    f.Nears (f.decode bits).1 (f.decode bits).2
      (decimal (f.shortest bits).1 (f.shortest bits).2) := by
  have hn := isAround_neighbourhood ((f.isDecoded_decode bits).pos hbits)
  generalize ht : decimalExponent (f.neighbourhood bits).value (f.neighbourhood bits).den = t
  obtain ⟨c, u, hfound⟩ := exists_onGrid? hp hbits ht
  have hshortest : f.shortest bits = dropZeros 20 c u := by
    delta shortest
    simp only [ht, hfound]
  obtain ⟨k, -, hgrid⟩ := List.exists_of_findSome?_eq_some hfound
  rw [hshortest, decimal_dropZeros, ← hn.holds_iff]
  exact Neighbourhood.holds_of_onGrid? hgrid

theorem hidden_double : double.hidden = 2 ^ 52 := rfl

theorem infinity_double : double.infinity = 2047 * 2 ^ 52 := rfl

/-- The numbers near to a finite magnitude of a double that is not zero lie between two powers. -/
theorem Nears.bounds_double (hbits : bits ≠ 0) (hfinite : bits < double.infinity)
    (hm : double.IsDecoded bits m q) {x : ℚ} (h : double.Nears m q x) :
    (2 : ℚ) ^ (-1075 : ℤ) ≤ x ∧ x ≤ 2 ^ (1024 : ℤ) := by
  have hpow : (0 : ℚ) < 2 ^ q := zpow_pos two_pos q
  have hmin : double.minExp = -1074 := rfl
  constructor
  · have hpos : (1 : ℚ) ≤ m := by exact_mod_cast hm.pos hbits
    have hleast : (2 : ℚ) ^ (-1074 : ℤ) ≤ 2 ^ q :=
      zpow_le_zpow_right₀ one_le_two (hmin ▸ hm.least)
    have hmargin := double.margin_le m q
    have hhalf : (2 : ℚ) ^ (-1074 : ℤ) = 2 * 2 ^ (-1075 : ℤ) := by
      rw [← zpow_one_add₀ two_ne_zero]
      rfl
    have hmul : (1 / 2 : ℚ) * 2 ^ q ≤ (m - double.margin m q) * 2 ^ q :=
      mul_le_mul_of_nonneg_right (by linarith) hpow.le
    linarith [h.low]
  · have hq : q ≤ 971 := by
      by_contra hlarge
      have hfills := hm.fills (by omega)
      have hencoded := hm.encoded
      rw [hidden_double] at hfills hencoded
      rw [infinity_double] at hfinite
      have hplaces : 2046 * 2 ^ 52 ≤ (q - double.minExp).toNat * 2 ^ 52 :=
        Nat.mul_le_mul_right _ (by omega)
      omega
    have hfits : (m : ℚ) + 1 ≤ 2 * 2 ^ 52 := by exact_mod_cast hidden_double ▸ hm.fits
    have htop : (2 : ℚ) ^ q ≤ 2 ^ (971 : ℤ) := zpow_le_zpow_right₀ one_le_two hq
    calc x ≤ (m + 1 / 2) * 2 ^ q := h.high
      _ ≤ 2 ^ (53 : ℤ) * 2 ^ (971 : ℤ) := by
          refine mul_le_mul ?_ htop hpow.le (by positivity)
          norm_num at hfits ⊢
          linarith
      _ = 2 ^ (1024 : ℤ) := by rw [← zpow_add₀ two_ne_zero]; rfl

theorem two_pow_lt_ten_pow : (2 : ℚ) ^ (1024 : ℤ) < 10 ^ (400 : ℤ) := by
  have h : 2 ^ 1024 < 10 ^ 400 := by decide +kernel
  exact_mod_cast h

theorem ten_pow_le_two_pow : (10 : ℚ) ^ (-400 : ℤ) ≤ 2 ^ (-1075 : ℤ) := by
  have h : 2 ^ 1075 ≤ 10 ^ 400 := by decide +kernel
  have h' : (2 : ℚ) ^ (1075 : ℤ) ≤ 10 ^ (400 : ℤ) := by exact_mod_cast h
  rw [zpow_neg, zpow_neg]
  exact inv_anti₀ (zpow_pos two_pos _) h'

theorem pos_of_nears (hbits : bits ≠ 0) (hfinite : bits < double.infinity)
    (h : double.Nears (double.decode bits).1 (double.decode bits).2 (decimal c t)) : 0 < c := by
  have hlow := (h.bounds_double hbits hfinite (double.isDecoded_decode bits)).left
  rw [Nat.pos_iff_ne_zero]
  intro hzero
  rw [hzero, decimal, Nat.cast_zero, zero_mul] at hlow
  exact absurd hlow (not_le.mpr (zpow_pos two_pos _))

theorem exponent_le_of_decimal_le (hc : 0 < c) (h : decimal c t ≤ 2 ^ (1024 : ℤ)) : t ≤ 400 := by
  by_contra ht
  have hone : (1 : ℚ) ≤ c := by exact_mod_cast hc
  have hten : (0 : ℚ) < 10 ^ t := zpow_pos (by norm_num) t
  have hpow : (10 : ℚ) ^ (400 : ℤ) ≤ decimal c t :=
    calc (10 : ℚ) ^ (400 : ℤ) ≤ 10 ^ t := zpow_le_zpow_right₀ (by norm_num) (by omega)
      _ = 1 * 10 ^ t := (one_mul _).symm
      _ ≤ c * 10 ^ t := mul_le_mul_of_nonneg_right hone hten.le
  exact absurd (hpow.trans h) (not_le.mpr two_pow_lt_ten_pow)

theorem le_exponent_of_le_decimal (h : 2 ^ (-1075 : ℤ) ≤ decimal c t) :
    -400 - (Nat.log2 c : Int) ≤ t := by
  by_contra ht
  have hten : (0 : ℚ) < 10 ^ t := zpow_pos (by norm_num) t
  have hlog : (c : ℚ) < 10 ^ ((Nat.log2 c : ℤ) + 1) :=
    calc (c : ℚ) < 2 ^ (Nat.log2 c + 1) := by exact_mod_cast Nat.lt_log2_self (n := c)
      _ ≤ 10 ^ (Nat.log2 c + 1) := pow_le_pow_left₀ (by norm_num) (by norm_num) _
      _ = 10 ^ ((Nat.log2 c : ℤ) + 1) := by rw [← zpow_natCast]; rfl
  have hpow : decimal c t < 10 ^ (-400 : ℤ) :=
    calc (c : ℚ) * 10 ^ t
      _ < 10 ^ ((Nat.log2 c : ℤ) + 1) * 10 ^ t := mul_lt_mul_of_pos_right hlog hten
      _ = 10 ^ ((Nat.log2 c : ℤ) + 1 + t) := (zpow_add₀ (by norm_num) _ _).symm
      _ ≤ 10 ^ (-400 : ℤ) := zpow_le_zpow_right₀ (by norm_num) (by omega)
  exact absurd (h.trans_lt hpow) (not_lt.mpr ten_pow_le_two_pow)

/-- A decimal near to a finite magnitude is rounded to it, and it is not so large or so small that
its size is decided without looking at it. -/
theorem ofDecimal_eq (hbits : bits ≠ 0) (hfinite : bits < double.infinity)
    (h : double.Nears (double.decode bits).1 (double.decode bits).2 (decimal c t)) :
    double.ofDecimal c t = bits := by
  have hm := double.isDecoded_decode bits
  obtain ⟨hlow, hhigh⟩ := h.bounds_double hbits hfinite hm
  have hc := pos_of_nears hbits hfinite h
  have hlarge := not_lt.mpr (exponent_le_of_decimal_le hc hhigh)
  have hsmall := not_lt.mpr (le_exponent_of_le_decimal hlow)
  have hquotient : ∀ num den : Nat, 0 < num → 0 < den → (num : ℚ) / den = decimal c t →
      double.ofQuotient num den = bits := by
    intro num den hnum hden heq
    rw [← heq] at h
    exact h.ofQuotient_eq (by decide) hm hnum hden hfinite.le
  rw [ofDecimal, if_neg hc.ne', if_neg hlarge, if_neg hsmall]
  split
  · refine hquotient _ _ hc (Nat.pow_pos (by decide)) ?_
    rw [decimal, zpow_of_neg _ ‹t < 0›, Nat.pow_eq, Nat.cast_pow, Nat.cast_ofNat, div_eq_mul_inv]
  · refine hquotient _ _ (Nat.mul_pos hc (Nat.pow_pos (by decide))) Nat.one_pos ?_
    rw [decimal, zpow_of_nonneg _ (not_lt.mp ‹¬ t < 0›), Nat.pow_eq, Nat.cast_mul, Nat.cast_pow,
      Nat.cast_ofNat, Nat.cast_one, div_one]

end ResourceIndex.BinaryFormat
