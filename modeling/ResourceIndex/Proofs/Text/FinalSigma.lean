import ResourceIndex.Proofs.Text.Lowercase
import ResourceIndex.Text.Blank
/-
The two ways of writing a text in lower case. They differ in the capital sigmas that end a word, and
in nothing else. Blanks are no letters: none appears or goes away when a text is lowered.
-/
namespace ResourceIndex.Text

variable {c x : Char} {s t : List Char}

/-- A capital sigma ends a word of the text: a cased letter stands in front of it and none behind
it, characters that have no say in this passed over. -/
def HasFinalSigma (s : List Char) : Prop :=
  ∃ u v, s = u ++ 'Σ' :: v ∧ meetsCased u.reverse = true ∧ meetsCased v = false

/-- Only the form at the end of a word differs from the form elsewhere. -/
theorem lowerChar_sigmaForm_eq_iff (before s : List Char) (c : Char) :
    lowerChar (sigmaForm before c s) = lowerChar c ↔
      (c = 'Σ' → ¬ (meetsCased before = true ∧ meetsCased s = false)) := by
  by_cases hc : c = 'Σ'
  · subst hc
    rw [sigmaForm, if_pos rfl, imp_iff_right rfl, ← Bool.not_eq_true', ← Bool.and_eq_true]
    split
    · rename_i hfinal
      exact iff_of_false (by decide) fun h => h hfinal
    · rename_i hmedial
      exact iff_of_true (by decide) hmedial
  · rw [sigmaForm, if_neg hc]
    exact iff_of_true rfl fun h => absurd h hc

theorem length_lowerChar_sigmaForm (before s : List Char) (c : Char) :
    (lowerChar (sigmaForm before c s)).length = (lowerChar c).length := by
  rw [sigmaForm]
  split
  · rename_i hc
    subst hc
    split
    · decide
    · decide
  · rfl

/-- By induction on the text; what stands before it is carried along in reverse. -/
theorem lowerAfter_eq_lowerChars_iff (before s : List Char) :
    lowerAfter before s = lowerChars s ↔ ∀ u v, s = u ++ 'Σ' :: v →
      ¬ (meetsCased (u.reverse ++ before) = true ∧ meetsCased v = false) := by
  induction s generalizing before with
  | nil => exact iff_of_true rfl fun u v h => absurd h.symm (by simp)
  | cons c s ih =>
    rw [lowerAfter_cons, lowerChars_cons]
    constructor
    · intro heq
      obtain ⟨hfirst, hrest⟩ := List.append_inj heq (length_lowerChar_sigmaForm before s c)
      rw [lowerChar_sigmaForm_eq_iff] at hfirst
      rw [ih] at hrest
      intro u v hsplit
      cases u with
      | nil =>
        obtain ⟨rfl, rfl⟩ := List.cons.inj hsplit
        exact hfirst rfl
      | cons y u =>
        obtain ⟨rfl, rfl⟩ := List.cons.inj hsplit
        rw [List.reverse_cons, List.append_assoc]
        exact hrest u v rfl
    · intro h
      have hfirst : lowerChar (sigmaForm before c s) = lowerChar c := by
        rw [lowerChar_sigmaForm_eq_iff]
        rintro rfl
        exact h [] s rfl
      have hrest : lowerAfter (c :: before) s = lowerChars s := by
        rw [ih]
        rintro u v rfl
        have hcons := h (c :: u) v rfl
        rwa [List.reverse_cons, List.append_assoc] at hcons
      rw [hfirst, hrest]

theorem lower_eq_lowerChars_iff : lower s = lowerChars s ↔ ¬ HasFinalSigma s := by
  rw [lower, lowerAfter_eq_lowerChars_iff]
  simp only [HasFinalSigma, List.append_nil, not_exists, not_and]

/-- The code points of blanks. -/
def blankRanges : List (Nat × Nat) := [(9, 13), (32, 32), (133, 133), (160, 160), (5760, 5760),
  (8192, 8202), (8232, 8233), (8239, 8239), (8287, 8287), (12288, 12288)]

theorem isBlank_iff : isBlank c = true ↔ ∃ r ∈ blankRanges, r.1 ≤ c.toNat ∧ c.toNat ≤ r.2 := by
  simp only [isBlank, blankRanges, Bool.or_eq_true, Bool.and_eq_true, decide_eq_true_eq,
    beq_iff_eq, List.mem_cons, or_and_right, exists_or, exists_eq_left, List.not_mem_nil, or_false]
  omega

/-- No row of the lower case mapping begins or ends at a blank. -/
theorem lowerRows_plain : ∀ row ∈ lowerRows, ∀ r ∈ blankRanges, (row.2.1 < r.1 ∨ r.2 < row.1) ∧
    (row.2.1 + row.2.2.2 < r.1 ∨ r.2 < row.1 + row.2.2.2) := by
  decide +kernel

theorem isBlank_of_lowerShift? {shift : Int} (h : lowerShift? c.toNat = some shift) :
    isBlank c = false ∧ isBlank (Char.ofNat (c.toNat + shift).toNat) = false := by
  obtain ⟨⟨lo, hi, step, shift'⟩, hfind, heq⟩ := Option.map_eq_some_iff.mp h
  obtain rfl : shift' = shift := heq
  have hin := List.find?_some hfind
  simp only [Bool.and_eq_true, decide_eq_true_eq] at hin
  obtain ⟨⟨hlo, hhi⟩, -⟩ := hin
  have hrow := List.mem_of_find?_eq_some hfind
  have hbeyond := lowerRows_beyond _ hrow
  simp only at hbeyond
  have hvalid : (c.toNat + shift').toNat.isValidChar := by
    unfold Nat.isValidChar
    omega
  rw [← Bool.not_eq_true, ← Bool.not_eq_true, isBlank_iff, isBlank_iff, toNat_ofNat hvalid]
  constructor
  · rintro ⟨r, hr, hblank⟩
    have hplain := (lowerRows_plain _ hrow r hr).1
    simp only at hplain
    omega
  · rintro ⟨r, hr, hblank⟩
    have hplain := (lowerRows_plain _ hrow r hr).2
    simp only at hplain
    omega

theorem isBlank_of_mem_lowerChar (h : x ∈ lowerChar c) : isBlank x = isBlank c := by
  have hascii : ∀ n < 128, isBlank (Char.ofNat n).toLower = isBlank (Char.ofNat n) := by decide
  unfold lowerChar at h
  split at h
  · rename_i hc
    obtain rfl := List.mem_singleton.mp h
    have hn := hascii c.toNat hc
    rwa [Char.ofNat_toNat] at hn
  · split at h
    · rename_i hdotted
      rw [hdotted]
      rw [List.mem_cons, List.mem_singleton] at h
      rcases h with rfl | rfl
      · decide
      · decide
    · split at h
      · rename_i shift hshift
        obtain rfl := List.mem_singleton.mp h
        obtain ⟨hc, hx⟩ := isBlank_of_lowerShift? hshift
        rw [hc, hx]
      · rw [List.mem_singleton.mp h]

theorem forall_isBlank_lowerChars_iff :
    (∀ x ∈ lowerChars s, isBlank x = false) ↔ ∀ c ∈ s, isBlank c = false := by
  constructor
  · intro h c hc
    obtain ⟨x, hx⟩ := List.exists_mem_of_ne_nil _ (lowerChar_ne_nil c)
    rw [← isBlank_of_mem_lowerChar hx]
    exact h x (List.mem_flatMap.mpr ⟨c, hc, hx⟩)
  · intro h x hx
    obtain ⟨c, hc, hmem⟩ := List.mem_flatMap.mp hx
    rw [isBlank_of_mem_lowerChar hmem]
    exact h c hc

end ResourceIndex.Text
