import ResourceIndex.Text.Cut
import ResourceIndex.Text.Lowercase
/-
Lower case and the characters that are no letters. An ASCII character that is no letter is its own
lower case and that of no other character, so signs and blanks stay where they are. A whole text
is lowered character by character once its capital sigmas have the form they take.
-/
namespace ResourceIndex.Text

variable {c x : Char} {s : List Char}

/-- ASCII characters that are no letters. -/
def IsSign (c : Char) : Prop := c.toNat < 128 ∧ c.isAlpha = false

instance (c : Char) : Decidable (IsSign c) :=
  inferInstanceAs (Decidable (c.toNat < 128 ∧ c.isAlpha = false))

theorem toLower_eq_or_isAlpha (hc : c.toNat < 128) :
    c.toLower = c ∨ c.isAlpha = true ∧ c.toLower.isAlpha = true := by
  have hascii : ∀ n < 128, (Char.ofNat n).toLower = Char.ofNat n ∨
      (Char.ofNat n).isAlpha = true ∧ (Char.ofNat n).toLower.isAlpha = true := by decide
  have hn := hascii c.toNat hc
  rwa [Char.ofNat_toNat] at hn

theorem toNat_ofNat {n : Nat} (h : n.isValidChar) : (Char.ofNat n).toNat = n := by
  rw [Char.ofNat, dif_pos h]
  rfl

/-- No row but that of the Kelvin sign, whose lower case is a letter, leads to ASCII. -/
theorem lowerRows_beyond : ∀ row ∈ lowerRows, (row.1 = row.2.1 ∧ row.1 + row.2.2.2 = 107) ∨
    128 ≤ row.1 + row.2.2.2 ∧ (row.2.1 + row.2.2.2 < 55296 ∨
      57343 < row.1 + row.2.2.2 ∧ row.2.1 + row.2.2.2 < 1114112) := by
  decide +kernel

theorem lowerShift?_beyond {n : Nat} {shift : Int} (h : lowerShift? n = some shift) :
    Char.ofNat (n + shift).toNat = 'k' ∨ 128 ≤ (Char.ofNat (n + shift).toNat).toNat := by
  obtain ⟨⟨lo, hi, step, shift'⟩, hfind, heq⟩ := Option.map_eq_some_iff.mp h
  obtain rfl : shift' = shift := heq
  have hin := List.find?_some hfind
  simp only [Bool.and_eq_true, decide_eq_true_eq] at hin
  obtain ⟨⟨hlo, hhi⟩, -⟩ := hin
  have hrow := lowerRows_beyond _ (List.mem_of_find?_eq_some hfind)
  simp only at hrow
  rcases hrow with ⟨hone, hk⟩ | ⟨hascii, hvalid⟩
  · left
    have hn : (n + shift').toNat = 107 := by omega
    rw [hn]
  · right
    rw [toNat_ofNat]
    · omega
    · unfold Nat.isValidChar
      omega

theorem lowerChar_ne_nil (c : Char) : lowerChar c ≠ [] := by
  unfold lowerChar
  split
  · exact List.cons_ne_nil _ _
  · split
    · exact List.cons_ne_nil _ _
    · split <;> exact List.cons_ne_nil _ _

theorem lowerChar_of_isSign (hc : IsSign c) : lowerChar c = [c] := by
  obtain ⟨hascii, hletter⟩ := hc
  rw [lowerChar, if_pos hascii]
  rcases toLower_eq_or_isAlpha hascii with h | ⟨h, -⟩
  · rw [h]
  · rw [hletter] at h
    cases h

theorem eq_of_mem_lowerChar (hx : IsSign x) (h : x ∈ lowerChar c) : c = x := by
  obtain ⟨hascii, hletter⟩ := hx
  unfold lowerChar at h
  split at h
  · rename_i hc
    obtain rfl := List.mem_singleton.mp h
    rcases toLower_eq_or_isAlpha hc with heq | ⟨-, hlower⟩
    · exact heq.symm
    · rw [hletter] at hlower
      cases hlower
  · split at h
    · exfalso
      rw [List.mem_cons, List.mem_singleton] at h
      rcases h with rfl | rfl
      · exact absurd hletter (by decide)
      · exact absurd hascii (by decide)
    · split at h
      · rename_i hshift
        exfalso
        obtain rfl := List.mem_singleton.mp h
        rcases lowerShift?_beyond hshift with hk | hbeyond
        · rw [hk] at hletter
          exact absurd hletter (by decide)
        · omega
      · exact (List.mem_singleton.mp h).symm

theorem mem_lowerChar_iff (hx : IsSign x) : x ∈ lowerChar c ↔ c = x := by
  constructor
  · exact eq_of_mem_lowerChar hx
  · rintro rfl
    rw [lowerChar_of_isSign hx]
    exact List.mem_singleton_self c

theorem lowerChars_cons (c : Char) (s : List Char) :
    lowerChars (c :: s) = lowerChar c ++ lowerChars s := List.flatMap_cons

theorem mem_lowerChars_iff (hx : IsSign x) : x ∈ lowerChars s ↔ x ∈ s := by
  rw [lowerChars, List.mem_flatMap]
  constructor
  · rintro ⟨c, hc, hmem⟩
    rwa [← eq_of_mem_lowerChar hx hmem]
  · exact fun h => ⟨x, h, (mem_lowerChar_iff hx).mpr rfl⟩

theorem lowerChars_eq_nil_iff : lowerChars s = [] ↔ s = [] := by
  constructor
  · intro h
    cases s with
    | nil => rfl
    | cons c s =>
      rw [lowerChars_cons, List.append_eq_nil_iff] at h
      exact absurd h.1 (lowerChar_ne_nil c)
  · rintro rfl
    rfl

theorem mem_dropLast_cons_iff : x ∈ (c :: s).dropLast ↔ s ≠ [] ∧ (x = c ∨ x ∈ s.dropLast) := by
  cases s with
  | nil => exact iff_of_false List.not_mem_nil fun h => h.1 rfl
  | cons d s =>
    rw [List.dropLast_cons_cons, List.mem_cons, and_iff_right (List.cons_ne_nil d s)]

/-- Lower case moves no sign to the end of a text, nor away from it. -/
theorem mem_dropLast_lowerChars_iff (hx : IsSign x) :
    x ∈ (lowerChars s).dropLast ↔ x ∈ s.dropLast := by
  induction s with
  | nil => exact Iff.rfl
  | cons c s ih =>
    rw [lowerChars_cons]
    rw [mem_dropLast_cons_iff]
    cases s with
    | nil =>
      rw [show lowerChars [] = [] from rfl, List.append_nil]
      refine iff_of_false ?_ fun h => h.1 rfl
      intro h
      obtain rfl := eq_of_mem_lowerChar hx (List.dropLast_subset _ h)
      rw [lowerChar_of_isSign hx] at h
      exact List.not_mem_nil h
    | cons d s =>
      have hne : lowerChars (d :: s) ≠ [] :=
        fun h => List.cons_ne_nil d s (lowerChars_eq_nil_iff.mp h)
      rw [List.dropLast_append_of_ne_nil hne, List.mem_append, ih, mem_lowerChar_iff hx, eq_comm,
        and_iff_right (List.cons_ne_nil d s)]

/-- The form that a character takes between the text before it, in reverse, and the text behind. -/
def sigmaForm (before : List Char) (c : Char) (s : List Char) : Char :=
  if c = 'Σ' then if meetsCased before && !meetsCased s then 'ς' else 'σ' else c

/-- The text with the form that its capital sigmas take behind `before`. -/
def settleSigmas (before : List Char) : List Char → List Char
  | [] => []
  | c :: s => sigmaForm before c s :: settleSigmas (c :: before) s

theorem lowerAfter_cons (before : List Char) (c : Char) (s : List Char) :
    lowerAfter before (c :: s) =
      lowerChar (sigmaForm before c s) ++ lowerAfter (c :: before) s := by
  rw [lowerAfter, sigmaForm]
  split
  · split
    · rfl
    · rfl
  · rfl

theorem lowerAfter_eq (before s : List Char) :
    lowerAfter before s = lowerChars (settleSigmas before s) := by
  induction s generalizing before with
  | nil => rfl
  | cons c s ih => rw [lowerAfter_cons, ih, settleSigmas, lowerChars_cons]

theorem sigmaForm_eq_iff (hx : IsSign x) (before s : List Char) :
    sigmaForm before c s = x ↔ c = x := by
  rw [sigmaForm]
  split
  · rename_i hc
    subst hc
    split <;> exact iff_of_false (by rintro rfl; exact absurd hx (by decide))
      (by rintro rfl; exact absurd hx (by decide))
  · rfl

theorem mem_settleSigmas_iff (hx : IsSign x) (before s : List Char) :
    x ∈ settleSigmas before s ↔ x ∈ s := by
  induction s generalizing before with
  | nil => exact Iff.rfl
  | cons c s ih =>
    rw [settleSigmas, List.mem_cons, List.mem_cons, ih, eq_comm, sigmaForm_eq_iff hx, eq_comm]

theorem mem_dropLast_settleSigmas_iff (hx : IsSign x) (before s : List Char) :
    x ∈ (settleSigmas before s).dropLast ↔ x ∈ s.dropLast := by
  induction s generalizing before with
  | nil => exact Iff.rfl
  | cons c s ih =>
    have hne : settleSigmas (c :: before) s ≠ [] ↔ s ≠ [] := by
      cases s with
      | nil => exact Iff.rfl
      | cons d s => exact iff_of_true (List.cons_ne_nil _ _) (List.cons_ne_nil d s)
    rw [settleSigmas, mem_dropLast_cons_iff, mem_dropLast_cons_iff, ih, hne, eq_comm (a := x),
      sigmaForm_eq_iff hx, eq_comm (a := x)]

theorem mem_lower_iff (hx : IsSign x) : x ∈ lower s ↔ x ∈ s := by
  rw [lower, lowerAfter_eq, mem_lowerChars_iff hx, mem_settleSigmas_iff hx]

theorem mem_dropLast_lower_iff (hx : IsSign x) : x ∈ (lower s).dropLast ↔ x ∈ s.dropLast := by
  rw [lower, lowerAfter_eq, mem_dropLast_lowerChars_iff hx, mem_dropLast_settleSigmas_iff hx]

theorem isSign_of_isDigit (h : c.isDigit = true) : IsSign c := by
  have hdigits : ∀ n, 48 ≤ n → n ≤ 57 → IsSign (Char.ofNat n) := by
    intro n hlow hhigh
    have hall : ∀ n < 10, IsSign (Char.ofNat (48 + n)) := by decide
    obtain ⟨k, rfl⟩ := Nat.exists_eq_add_of_le hlow
    exact hall k (by omega)
  have hbounds := Char.isDigit_iff_toNat.mp h
  have hsign := hdigits c.toNat hbounds.1 hbounds.2
  rwa [Char.ofNat_toNat] at hsign

theorem toNat_lt_of_isAlpha (h : c.isAlpha = true) : c.toNat < 128 := by
  unfold Char.isAlpha Char.isUpper Char.isLower at h
  simp only [Bool.or_eq_true, Bool.and_eq_true, decide_eq_true_eq] at h
  rcases h with h | h
  · exact Nat.lt_of_le_of_lt h.2 (by decide)
  · exact Nat.lt_of_le_of_lt h.2 (by decide)

theorem toNat_lt_of_toLower (h : c.toLower.toNat < 128) : c.toNat < 128 := by
  unfold Char.toLower at h
  split at h
  · rename_i hupper
    exact Nat.lt_of_le_of_lt hupper.2 (by decide)
  · exact h

theorem lowerAfter_of_ascii (h : ∀ c ∈ s, c.toNat < 128) (before : List Char) :
    lowerAfter before s = lowerAscii s := by
  induction s generalizing before with
  | nil => rfl
  | cons c s ih =>
    obtain ⟨hc, hs⟩ := List.forall_mem_cons.mp h
    have hsigma : c ≠ 'Σ' := by
      rintro rfl
      exact absurd hc (by decide)
    rw [lowerAfter, if_neg hsigma, lowerChar, if_pos hc, ih hs]
    rfl

theorem lower_of_ascii (h : ∀ c ∈ s, c.toNat < 128) : lower s = lowerAscii s :=
  lowerAfter_of_ascii h []

end ResourceIndex.Text
