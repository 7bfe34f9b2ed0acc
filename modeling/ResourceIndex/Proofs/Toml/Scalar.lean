import ResourceIndex.Proofs.Text.Cut
import ResourceIndex.Proofs.Text.Digits
import ResourceIndex.Proofs.Toml.Quoted
import ResourceIndex.Toml.Printer
import ResourceIndex.Toml.Reader
/-
Values of documents in their written form. A text is read from between its quotes, and a whole
number of signed 64 bits is no date, no fraction and no other word.
-/
namespace ResourceIndex.Toml

open Text

variable {c mark : Char} {s t r : List Char} {n : Nat} {v : Scalar} {w : Json}

/-- Text that is nothing but digits. -/
def AllDigits (s : List Char) : Prop := ∀ c ∈ s, c.isDigit = true

theorem allDigits_natText (n : Nat) : AllDigits (natText n) := fun _ => isDigit_of_mem_natText

theorem AllDigits.notMem (h : AllDigits s) (hmark : mark.isDigit = false) : mark ∉ s := by
  intro hmem
  rw [h mark hmem] at hmark
  cases hmark

theorem AllDigits.after?_eq_none (h : AllDigits s) (hmark : mark.isDigit = false) :
    after? mark s = none := by
  cases s with
  | nil => rfl
  | cons c s =>
    refine if_neg ?_
    rintro rfl
    exact h.notMem hmark List.mem_cons_self

/-- Digits hold no sign that goes behind a first field. -/
theorem AllDigits.bind_field?_eq_none {α : Type} (h : AllDigits s) (hmark : mark.isDigit = false)
    (count low high : Nat) (f : Nat × List Char → List Char → Option α) :
    ((field? count low high s).bind fun p => (after? mark p.2).bind (f p)) = none := by
  rw [Option.bind_eq_none_iff]
  intro p hp
  obtain ⟨k, -, hk⟩ := Option.bind_eq_some_iff.mp hp
  split at hk
  · cases hk
    rw [AllDigits.after?_eq_none (fun c hc => h c (List.mem_of_mem_drop hc)) hmark]
    rfl
  · cases hk

theorem AllDigits.moment?_eq_none (h : AllDigits s) : moment? s = none := by
  have hdate : date? s = none := h.bind_field?_eq_none (by decide) 4 0 9999 _
  have htime : time? s = none := h.bind_field?_eq_none (by decide) 2 0 23 _
  rw [moment?, hdate, htime]

theorem AllDigits.cutSign_eq (h : AllDigits s) : cutSign s = (false, s) := by
  rw [cutSign]
  · rintro r rfl
    exact h.notMem (by decide) List.mem_cons_self
  · rintro r rfl
    exact h.notMem (by decide) List.mem_cons_self

theorem AllDigits.float?_eq_none (h : AllDigits s) : float? s = none := by
  have hmarks : (s.any fun c => c = '.' || c = 'e' || c = 'E') = false := by
    rw [List.any_eq_false]
    intro c hc
    simp only [Bool.or_eq_true, decide_eq_true_iff]
    rintro ((rfl | rfl) | rfl)
    · exact h.notMem (by decide) hc
    · exact h.notMem (by decide) hc
    · exact h.notMem (by decide) hc
  simp only [float?, h.cutSign_eq, hmarks, Bool.false_eq_true, not_false_eq_true, or_true, if_true,
    Option.bind_eq_bind, Option.bind_fun_none]

theorem AllDigits.grouped?_eq (h : AllDigits s) (hne : s ≠ []) :
    grouped? Char.isDigit s = some s := by
  have hall : s.all Char.isDigit = true := List.all_eq_true.mpr h
  have hsome : s.isEmpty = false := List.isEmpty_eq_false_iff.mpr hne
  rw [grouped?, splitOn_of_notMem (h.notMem (by decide)), List.all_cons, List.all_nil, hall, hsome]
  exact congrArg some (List.append_nil s)

theorem decimal?_natText (n : Nat) : decimal? (natText n) = some (natText n) := by
  cases n with
  | zero => rfl
  | succ n =>
    have hhead := head?_natText_ne (Nat.succ_pos n)
    rw [decimal?, (allDigits_natText _).grouped?_eq (natText_ne_nil _)]
    exact if_neg fun hzero => hhead hzero.left

theorem integer?_natText (h : n ≤ Int64.maxValue.toInt) : integer? (natText n) = some (.nat n) := by
  have hinWord : inWord n = some (.nat n) := by
    have hmin : Int64.minValue.toInt = -9223372036854775808 := by decide
    refine if_pos ⟨?_, h⟩
    rw [hmin]
    omega
  have hsigned : ((decimal? (cutSign (natText n)).2).bind fun s =>
      inWord (if (cutSign (natText n)).1 then -(digitsValue s : Int) else digitsValue s)) =
        some (.nat n) := by
    rw [(allDigits_natText n).cutSign_eq, decimal?_natText, Option.bind_some, digitsValue_natText]
    exact hinWord
  cases n with
  | zero => rfl
  | succ n =>
    have hhead := head?_natText_ne (Nat.succ_pos n)
    rw [integer?]
    · exact hsigned
    · intro r hr
      rw [hr] at hhead
      exact hhead rfl
    · intro r hr
      rw [hr] at hhead
      exact hhead rfl
    · intro r hr
      rw [hr] at hhead
      exact hhead rfl

/-- A number is read as itself. -/
theorem word?_natText (h : n ≤ Int64.maxValue.toInt) : word? (natText n) = some (.nat n) := by
  have hdigits := allDigits_natText n
  have hother (w : String) (hw : (w.toList.any fun c => !c.isDigit) = true) :
      String.ofList (natText n) ≠ w := by
    rintro rfl
    obtain ⟨c, hc, hletter⟩ := List.any_eq_true.mp hw
    rw [String.toList_ofList] at hc
    exact hdigits.notMem (Bool.not_eq_true' _ ▸ hletter) hc
  rw [word?]
  split
  case h_9 =>
    rw [hdigits.moment?_eq_none, hdigits.float?_eq_none]
    exact integer?_natText h
  all_goals
    rename_i heq
    exact absurd heq (hother _ (by decide))

theorem word?_truth (b : Bool) :
    word? (if b then "true" else "false").toList = some (.bool b) := by
  cases b with
  | false => rfl
  | true => rfl

theorem cutWord_append (h : ∀ c ∈ t, isWordChar c = true) (r : List Char) :
    cutWord (t ++ '\n' :: r) = (t, '\n' :: r) := by
  have hfront : (t ++ '\n' :: r).takeWhile isWordChar = t := by
    rw [List.takeWhile_append_of_pos h]
    exact List.append_nil t
  rw [cutWord, hfront, List.drop_left]
  split
  · rename_i hblank
    cases hblank
  · rfl

/-- A word at the end of a line is a value. -/
theorem value?_word (hne : t ≠ []) (h : ∀ c ∈ t, isWordChar c = true) (hw : word? t = some w)
    (levels : Nat) (r : List Char) :
    value? levels (t ++ '\n' :: r) = some (w, '\n' :: r) := by
  obtain ⟨c, s, rfl⟩ := List.exists_cons_of_ne_nil hne
  have hc := h c List.mem_cons_self
  have hfirst (x : Char) (hx : isWordChar x = false) (u : List Char) :
      c :: (s ++ '\n' :: r) ≠ x :: u := by
    rintro ⟨⟩
    rw [hc] at hx
    cases hx
  have hcut := cutWord_append h r
  rw [List.cons_append] at hcut ⊢
  rw [value?, hcut]
  · simp only [hw]
    rfl
  · exact hfirst '[' (by decide)
  · exact hfirst '\x7b' (by decide)
  · exact hfirst '"' (by decide)
  · exact hfirst '\'' (by decide)

theorem exists_quote (s : List Char) : ∃ q t, quoted s = q :: t ∧ (q = '"' ∨ q = '\'') := by
  unfold quoted
  extract_lets lines escapes backslash doubles singles start basic linesBasic
  split
  · exact ⟨_, _, rfl, .inl rfl⟩
  split
  · exact ⟨_, _, rfl, .inr rfl⟩
  split
  · exact ⟨_, _, rfl, .inl rfl⟩
  split
  · exact ⟨_, _, rfl, .inr rfl⟩
  split
  · exact ⟨_, _, rfl, .inl rfl⟩
  · exact ⟨_, _, rfl, .inl rfl⟩

theorem value?_quoted (s : String) (levels : Nat) (r : List Char) :
    value? levels (quoted s.toList ++ '\n' :: r) = some (.str s, '\n' :: r) := by
  have hread := string?_quoted s.toList r
  obtain ⟨q, t, htext, hq⟩ := exists_quote s.toList
  rw [htext] at hread ⊢
  rcases hq with rfl | rfl
  · rw [List.cons_append] at hread ⊢
    rw [value?, hread, Option.map_some, String.ofList_toList]
  · rw [List.cons_append] at hread ⊢
    rw [value?, hread, Option.map_some, String.ofList_toList]

/-- A value that has a written form is read as it was. -/
theorem value?_render? (h : v.render? = some t) (levels : Nat) (r : List Char) :
    value? levels (t ++ '\n' :: r) = some (v.toJson, '\n' :: r) := by
  cases v with
  | text s =>
    cases h
    exact value?_quoted s levels r
  | number n =>
    rw [Scalar.render?] at h
    split at h
    · rename_i hn
      cases h
      refine value?_word (natText_ne_nil n) (fun c hc => ?_) (word?_natText hn) levels r
      have hdigit := isDigit_of_mem_natText hc
      simp [isWordChar, Char.isAlphanum, hdigit]
    · cases h
  | truth b =>
    cases h
    refine value?_word ?_ (List.all_eq_true.mp ?_) (word?_truth b) levels r
    · cases b with
      | false => decide
      | true => decide
    · cases b with
      | false => decide
      | true => decide

end ResourceIndex.Toml
