import ResourceIndex.Proofs.Text.Lowercase
import ResourceIndex.Text.Percent
/-
Percent-encoded texts. What is encoded decodes to the bytes of the text as long as the percent sign
itself is encoded, and the bytes of a text are read as this text. One dot has three encoded forms.
-/
namespace ResourceIndex.Text

variable {c x : Char} {s t set : List Char} {bs : List Nat}

theorem charBytes_ne_nil (c : Char) : charBytes c ≠ [] := by
  simp only [charBytes]
  split
  · exact List.cons_ne_nil _ _
  split
  · exact List.cons_ne_nil _ _
  split
  · exact List.cons_ne_nil _ _
  · exact List.cons_ne_nil _ _

theorem toNat_valid (c : Char) : c.toNat < 0xD800 ∨ 0xDFFF < c.toNat ∧ c.toNat < 0x110000 := c.valid

theorem lt_of_mem_charBytes {b : Nat} (h : b ∈ charBytes c) : b < 256 := by
  have hc := toNat_valid c
  simp only [charBytes] at h
  split at h
  · simp only [List.mem_cons, List.not_mem_nil, or_false] at h
    omega
  split at h
  · simp only [List.mem_cons, List.not_mem_nil, or_false] at h
    omega
  split at h
  · simp only [List.mem_cons, List.not_mem_nil, or_false] at h
    omega
  · simp only [List.mem_cons, List.not_mem_nil, or_false] at h
    omega

theorem isContinuation_add {k : Nat} (h : k < 0x40) : isContinuation (0x80 + k) = true := by
  simp only [isContinuation, Bool.and_eq_true, decide_eq_true_eq]
  omega

/-- The bytes of a character are read as this character. -/
theorem firstChar?_charBytes (c : Char) (bs : List Nat) :
    firstChar? (charBytes c ++ bs) = some (c, bs) := by
  have hc := toNat_valid c
  have hcontinues : ∀ k, isContinuation (0x80 + k % 0x40) = true :=
    fun k => isContinuation_add (Nat.mod_lt k (by decide))
  simp only [charBytes]
  split
  · simp [firstChar?, *]
  split
  · have hlead : ¬ 0xC0 + c.toNat / 0x40 < 0x80 ∧ 0xC2 ≤ 0xC0 + c.toNat / 0x40 ∧
        0xC0 + c.toNat / 0x40 < 0xE0 := by omega
    have hvalue : c.toNat / 0x40 * 0x40 + c.toNat % 0x40 = c.toNat := Nat.div_add_mod' _ _
    simp [firstChar?, hlead, hcontinues, hvalue]
  split
  · have hlead : ¬ 0xE0 + c.toNat / 0x1000 < 0x80 ∧ ¬ 0xE0 + c.toNat / 0x1000 < 0xE0 ∧
        0xE0 + c.toNat / 0x1000 < 0xF0 := by omega
    have hvalue : c.toNat / 0x1000 * 0x1000 + c.toNat / 0x40 % 0x40 * 0x40 + c.toNat % 0x40 =
        c.toNat := by omega
    have hrange : 0x800 ≤ c.toNat ∧ (c.toNat < 0xD800 ∨ 0xDFFF < c.toNat) := by omega
    simp [firstChar?, hlead, hcontinues, hvalue, hrange]
  · have hlead : ¬ 0xF0 + c.toNat / 0x40000 < 0x80 ∧ ¬ 0xF0 + c.toNat / 0x40000 < 0xE0 ∧
        ¬ 0xF0 + c.toNat / 0x40000 < 0xF0 ∧ 0xF0 + c.toNat / 0x40000 < 0xF5 := by omega
    have hvalue : c.toNat / 0x40000 * 0x40000 + c.toNat / 0x1000 % 0x40 * 0x1000 +
        c.toNat / 0x40 % 0x40 * 0x40 + c.toNat % 0x40 = c.toNat := by omega
    have hrange : 0x10000 ≤ c.toNat ∧ c.toNat < 0x110000 := by omega
    simp [firstChar?, hlead, hcontinues, hvalue, hrange]

theorem decodeFrom?_bytesOf {fuel : Nat} (h : (bytesOf s).length ≤ fuel) :
    decodeFrom? fuel (bytesOf s) = some s := by
  induction s generalizing fuel with
  | nil => cases fuel <;> rfl
  | cons c s ih =>
    obtain ⟨b, bs, hbytes⟩ := List.exists_cons_of_ne_nil (charBytes_ne_nil c)
    have hfirst := firstChar?_charBytes c (bytesOf s)
    have hcons : bytesOf (c :: s) = charBytes c ++ bytesOf s := List.flatMap_cons
    rw [hcons, hbytes] at h ⊢
    rw [hbytes] at hfirst
    rw [List.cons_append, List.length_cons, List.length_append] at h
    obtain ⟨fuel, rfl⟩ := Nat.exists_eq_succ_of_ne_zero (Nat.ne_zero_of_lt h)
    rw [List.cons_append] at hfirst ⊢
    have hrest : decodeFrom? fuel (bytesOf s) = some s := ih (by omega)
    rw [decodeFrom?, hfirst, Option.bind_eq_bind, Option.bind_some]
    · simp only [hrest]
      rfl
    · exact List.cons_ne_nil _ _

/-- The bytes of a text are read as this text. -/
theorem ofBytes?_bytesOf (s : List Char) : ofBytes? (bytesOf s) = some s :=
  decodeFrom?_bytesOf (Nat.le_refl _)

theorem bytesOf_inj (h : bytesOf s = bytesOf t) : s = t := by
  have hread := ofBytes?_bytesOf s
  rw [h, ofBytes?_bytesOf] at hread
  exact (Option.some.inj hread).symm

theorem hexValue?_upperHex : ∀ n < 16, hexValue? (upperHex n) = some n := by decide

theorem percentDecode_percentByte {b : Nat} (h : b < 256) (r : List Char) :
    percentDecode (percentByte b ++ r) = b :: percentDecode r := by
  have hhigh := hexValue?_upperHex (b / 16) (by omega)
  have hlow := hexValue?_upperHex (b % 16) (by omega)
  simp only [percentByte, List.cons_append, List.nil_append, percentDecode, hhigh, hlow,
    Nat.div_add_mod']

theorem percentDecode_flatMap_percentByte (h : ∀ b ∈ bs, b < 256) (r : List Char) :
    percentDecode (bs.flatMap percentByte ++ r) = bs ++ percentDecode r := by
  induction bs with
  | nil => rfl
  | cons b bs ih =>
    obtain ⟨hb, hbs⟩ := List.forall_mem_cons.mp h
    rw [List.flatMap_cons, List.append_assoc, percentDecode_percentByte hb, ih hbs,
      List.cons_append]

theorem percentDecode_cons (hc : c ≠ '%') (r : List Char) :
    percentDecode (c :: r) = charBytes c ++ percentDecode r := by
  rw [percentDecode]
  exact fun _ _ _ hpercent => absurd hpercent hc

theorem percentDecode_percentEncode (h : '%' ∈ set) (s : List Char) :
    percentDecode (percentEncode set s) = bytesOf s := by
  induction s with
  | nil => rfl
  | cons c s ih =>
    rw [percentEncode, List.flatMap_cons, bytesOf, List.flatMap_cons]
    split
    · rw [percentDecode_flatMap_percentByte fun b => lt_of_mem_charBytes]
      exact congrArg _ ih
    · rename_i hplain
      have hc : c ≠ '%' := by
        rintro rfl
        exact hplain (by simp [h])
      rw [List.singleton_append, percentDecode_cons hc]
      exact congrArg _ ih

/-- The characters of an encoded text are those of the text that are not in the set, percent signs
and digits. -/
theorem mem_percentEncode (h : x ∈ percentEncode set s) :
    x ∈ s ∧ x ∉ set ∨ x = '%' ∨ ∃ n < 16, x = upperHex n := by
  obtain ⟨c, hc, hx⟩ := List.mem_flatMap.mp h
  split at hx
  · obtain ⟨b, hb, hx⟩ := List.mem_flatMap.mp hx
    have hbyte := lt_of_mem_charBytes hb
    simp only [percentByte, List.mem_cons, List.not_mem_nil, or_false] at hx
    rcases hx with rfl | rfl | rfl
    · exact .inr (.inl rfl)
    · exact .inr (.inr ⟨b / 16, by omega, rfl⟩)
    · exact .inr (.inr ⟨b % 16, by omega, rfl⟩)
  · rename_i hplain
    obtain rfl := List.mem_singleton.mp hx
    refine .inl ⟨hc, fun hset => hplain ?_⟩
    rw [List.contains_iff_mem.mpr hset, Bool.or_true]

/-- A decoded text begins with the byte of a code, or with those of the first character. -/
theorem percentDecode_cons_cases (c : Char) (r : List Char) :
    (∃ a b r' x y, c :: r = '%' :: a :: b :: r' ∧ hexValue? a = some x ∧ hexValue? b = some y ∧
      percentDecode (c :: r) = (x * 16 + y) :: percentDecode r') ∨
    percentDecode (c :: r) = charBytes c ++ percentDecode r := by
  generalize hs : c :: r = s
  fun_cases percentDecode s with
  | case1 a b r' x y hb ha => exact .inl ⟨a, b, r', x, y, rfl, ha, hb, rfl⟩
  | case2 a b r' =>
    cases hs
    exact .inr rfl
  | case3 c' r' =>
    cases hs
    exact .inr rfl
  | case4 => cases hs

theorem percentDecode_ne_nil (c : Char) (r : List Char) : percentDecode (c :: r) ≠ [] := by
  rcases percentDecode_cons_cases c r with ⟨_, _, _, _, _, _, _, _, h⟩ | h
  · rw [h]
    exact List.cons_ne_nil _ _
  · rw [h]
    exact List.append_ne_nil_of_left_ne_nil (charBytes_ne_nil c) _

/-- The written forms of one dot. -/
def dotForms : List (List Char) := [['.'], ['%', '2', 'e'], ['%', '2', 'E']]

theorem percentDecode_dotForm {p : List Char} (hp : p ∈ dotForms) (r : List Char) :
    percentDecode (p ++ r) = 46 :: percentDecode r := by
  simp only [dotForms, List.mem_cons, List.not_mem_nil, or_false] at hp
  rcases hp with rfl | rfl | rfl
  · exact percentDecode_cons (by decide) r
  · rfl
  · rfl

theorem hexValue?_lt {n : Nat} (h : hexValue? c = some n) : n < 16 ∧ c.toNat < 128 := by
  simp only [hexValue?, Bool.and_eq_true, decide_eq_true_eq] at h
  split at h
  · cases h
    omega
  split at h
  · cases h
    omega
  split at h
  · cases h
    omega
  · cases h

theorem eq_of_hexValue?_dot {a b : Char} {x y : Nat} (ha : hexValue? a = some x)
    (hb : hexValue? b = some y) (h : x * 16 + y = 46) : a = '2' ∧ (b = 'e' ∨ b = 'E') := by
  obtain ⟨hx, hascii⟩ := hexValue?_lt ha
  obtain ⟨hy, hascii'⟩ := hexValue?_lt hb
  obtain ⟨rfl, rfl⟩ : x = 2 ∧ y = 14 := by omega
  have htwo : ∀ n < 128, hexValue? (Char.ofNat n) = some 2 → Char.ofNat n = '2' := by decide
  have hfourteen : ∀ n < 128, hexValue? (Char.ofNat n) = some 14 →
      Char.ofNat n = 'e' ∨ Char.ofNat n = 'E' := by decide
  have hfirst := htwo a.toNat hascii
  have hsecond := hfourteen b.toNat hascii'
  rw [Char.ofNat_toNat] at hfirst hsecond
  exact ⟨hfirst ha, hsecond hb⟩

theorem eq_dot_of_charBytes {u : List Nat} (h : charBytes c ++ u = 46 :: bs) :
    c = '.' ∧ u = bs := by
  have hfirst := firstChar?_charBytes c u
  rw [h] at hfirst
  cases hfirst
  exact ⟨rfl, rfl⟩

/-- A text that decodes to a dot first begins with one of its forms. -/
theorem exists_dotForm_of_percentDecode (h : percentDecode s = 46 :: bs) :
    ∃ p ∈ dotForms, ∃ r, s = p ++ r ∧ percentDecode r = bs := by
  cases s with
  | nil => cases h
  | cons c r =>
    rcases percentDecode_cons_cases c r with ⟨a, b, r', x, y, hs, ha, hb, hdecode⟩ | hdecode
    · rw [hdecode] at h
      obtain ⟨hvalue, hrest⟩ := List.cons.inj h
      obtain ⟨rfl, hb⟩ := eq_of_hexValue?_dot ha hb hvalue
      rw [hs]
      rcases hb with rfl | rfl
      · exact ⟨['%', '2', 'e'], by decide, r', rfl, hrest⟩
      · exact ⟨['%', '2', 'E'], by decide, r', rfl, hrest⟩
    · rw [hdecode] at h
      obtain ⟨rfl, hrest⟩ := eq_dot_of_charBytes h
      exact ⟨['.'], by decide, r, rfl, hrest⟩

end ResourceIndex.Text
