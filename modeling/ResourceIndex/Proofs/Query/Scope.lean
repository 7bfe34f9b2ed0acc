import ResourceIndex.Proofs.Text.Blank
import ResourceIndex.Query.Scope
/-
What is taken out of a text as its scope. The words that name a scope are dropped and all others
stay in their order; the scope is named by the first of those dropped, and no other is left or
made, so a text without its scope is left alone.
-/
namespace ResourceIndex.Query

open Text (isBlank words BlankLed)

variable {s p r v w text : List Char} {values : List (List Char)}

/-- The word begins like a scope and goes on. -/
def NamesScope (w : List Char) : Prop := ∃ v, v ≠ [] ∧ w = scopeMark ++ v

/-- What a word names as a scope. -/
def scopeValue? (w : List Char) : Option (List Char) :=
  (scopeMark.isPrefixOf? w).filter fun v => !v.isEmpty

theorem scopeValue?_eq_some_iff : scopeValue? w = some v ↔ w = scopeMark ++ v ∧ v ≠ [] := by
  rw [scopeValue?, Option.filter_eq_some_iff, List.isPrefixOf?_eq_some_iff_append_eq,
    Bool.not_eq_true', List.isEmpty_eq_false_iff, eq_comm]

theorem scopeValue?_eq_none_iff : scopeValue? w = none ↔ ¬ NamesScope w := by
  rw [Option.eq_none_iff_forall_not_mem, NamesScope, not_exists]
  refine forall_congr' fun v => not_congr ?_
  rw [Option.mem_def, scopeValue?_eq_some_iff, and_comm]

instance (w : List Char) : Decidable (NamesScope w) :=
  decidable_of_iff (¬ scopeValue? w = none) (by rw [scopeValue?_eq_none_iff, not_not])

theorem isBlank_of_mem_scopeMark : ∀ c ∈ scopeMark, isBlank c = false := by
  intro c hc
  have hall : scopeMark.all (fun c => !isBlank c) = true := by decide
  rw [← Bool.not_eq_true']
  exact List.all_eq_true.mp hall c hc

/-- The mark of a scope does not reach over the end of a word. -/
theorem exists_of_scopeMark_append {rest : List Char} (hr : BlankLed r)
    (h : scopeMark ++ rest = p ++ r) : ∃ v, p = scopeMark ++ v ∧ rest = v ++ r := by
  rcases List.append_eq_append_iff.mp h with ⟨v, hp, hrest⟩ | ⟨u, hmark, hr'⟩
  · exact ⟨v, hp, hrest⟩
  · cases u with
    | nil => exact ⟨[], by rw [hmark, List.append_nil, List.append_nil], hr'.symm⟩
    | cons c u =>
      have hblank : isBlank c = true := hr c (by rw [hr']; rfl)
      have hmem : c ∈ scopeMark := hmark ▸ List.mem_append_right p List.mem_cons_self
      rw [isBlank_of_mem_scopeMark c hmem] at hblank
      cases hblank

theorem takeWhile_append_blankLed (hp : ∀ c ∈ p, isBlank c = false) (hr : BlankLed r) :
    (p ++ r).takeWhile (fun c => !isBlank c) = p ∧
      (p ++ r).dropWhile (fun c => !isBlank c) = r := by
  have hplain : ∀ c ∈ p, (!isBlank c) = true := fun c hc => by rw [hp c hc]; rfl
  rw [List.takeWhile_append_of_pos hplain, List.dropWhile_append_of_pos hplain]
  cases r with
  | nil => exact ⟨List.append_nil p, rfl⟩
  | cons c r =>
    have hc : ¬ (!isBlank c) = true := by rw [hr c rfl]; exact Bool.false_ne_true
    have htake : (c :: r).takeWhile (fun c => !isBlank c) = [] := List.takeWhile_cons_of_neg hc
    rw [htake, List.append_nil]
    exact ⟨rfl, List.dropWhile_cons_of_neg hc⟩

/-- The word at the start of a text decides whether a scope is named there. -/
theorem scopeAt?_append (hp : ∀ c ∈ p, isBlank c = false) (hr : BlankLed r) :
    scopeAt? (p ++ r) = (scopeValue? p).map fun v => (v, r) := by
  rw [scopeAt?]
  cases hvalue : scopeValue? p with
  | some v =>
    obtain ⟨rfl, hne⟩ := scopeValue?_eq_some_iff.mp hvalue
    have hmark : scopeMark.isPrefixOf? (scopeMark ++ v ++ r) = some (v ++ r) :=
      List.isPrefixOf?_eq_some_iff_append_eq.mpr (List.append_assoc ..).symm
    obtain ⟨htake, hdrop⟩ :=
      takeWhile_append_blankLed (fun c hc => hp c (List.mem_append_right _ hc)) hr
    simp only [hmark, htake, hdrop, if_neg hne, Option.map_some]
  | none =>
    cases hmark : scopeMark.isPrefixOf? (p ++ r) with
    | none => rfl
    | some rest =>
      obtain ⟨v, rfl, rfl⟩ := exists_of_scopeMark_append hr
        (List.isPrefixOf?_eq_some_iff_append_eq.mp hmark)
      obtain rfl : v = [] := by
        by_contra hne
        exact scopeValue?_eq_none_iff.mp hvalue ⟨v, hne, rfl⟩
      have htake := (takeWhile_append_blankLed (p := []) (fun c hc => nomatch hc) hr).1
      simp only [htake, if_true, Option.map_none]

/-- What is left of a text, and the scopes that were named in it. -/
structure Stripped (s : List Char) (values : List (List Char)) (text : List Char) : Prop where
  values : values = (words s).filterMap scopeValue?
  words : words text = (words s).filter fun w => ¬ NamesScope w
  same : (∀ w ∈ Text.words s, ¬ NamesScope w) → text = s

theorem stripped_nil : Stripped [] [] [] := by
  constructor
  case values => rw [Text.words_nil]; rfl
  case words => rw [Text.words_nil]; rfl
  case same => exact fun _ => rfl

/-- A word that names a scope is dropped. -/
theorem Stripped.of_scope (h : Stripped r values text) (hwords : Text.words s = p :: Text.words r)
    (hv : scopeValue? p = some v) : Stripped s (v :: values) text := by
  obtain ⟨hp, hne⟩ := scopeValue?_eq_some_iff.mp hv
  have hnames : NamesScope p := ⟨v, hne, hp⟩
  constructor
  case values => rw [hwords, List.filterMap_cons_some hv, h.values]
  case words => rw [hwords, List.filter_cons_of_neg (by simpa using hnames), h.words]
  case same =>
    intro hnone
    rw [hwords] at hnone
    exact absurd hnames (hnone p List.mem_cons_self)

theorem Stripped.cons_blank (h : Stripped s values text) {c : Char} (hc : isBlank c = true) :
    Stripped (c :: s) values (c :: text) := by
  constructor
  case values => rw [Text.words_cons hc, h.values]
  case words => rw [Text.words_cons hc, Text.words_cons hc, h.words]
  case same =>
    intro hnone
    rw [Text.words_cons hc] at hnone
    rw [h.same hnone]

theorem Stripped.word_append (h : Stripped r values text) (hp : ∀ c ∈ p, isBlank c = false)
    (hr : BlankLed r) (htext : BlankLed text) (hv : scopeValue? p = none) :
    Stripped (p ++ r) values (p ++ text) := by
  have hnone : ∀ w ∈ Text.words p, scopeValue? w = none := by
    intro w hw
    rwa [Text.eq_of_mem_words hp hw]
  have hkept : ∀ w ∈ Text.words p, ¬ NamesScope w :=
    fun w hw => scopeValue?_eq_none_iff.mp (hnone w hw)
  constructor
  case values =>
    rw [Text.words_append hr, List.filterMap_append, List.filterMap_eq_nil_iff.mpr hnone,
      List.nil_append, h.values]
  case words =>
    rw [Text.words_append hr, Text.words_append htext, List.filter_append, h.words,
      List.filter_eq_self.mpr fun w hw => decide_eq_true (hkept w hw)]
  case same =>
    intro hall
    rw [h.same fun w hw => hall w (by
      rw [Text.words_append hr]
      exact List.mem_append_right _ hw)]

theorem words_append_of_scopeValue? (hp : ∀ c ∈ p, isBlank c = false) (hr : BlankLed r)
    (h : scopeValue? p = some v) : words (p ++ r) = p :: words r := by
  have hne : p ≠ [] := by
    rw [(scopeValue?_eq_some_iff.mp h).1]
    exact List.cons_ne_nil _ _
  rw [Text.words_append hr, Text.IsWord.words_eq ⟨hne, hp⟩, List.singleton_append]

theorem withoutScopes_nil (n : Nat) : withoutScopes n [] = ([], []) := by
  cases n with
  | zero => rfl
  | succ n => rfl

theorem withoutScopes_cons (n : Nat) (c : Char) (s : List Char) :
    withoutScopes (n + 1) (c :: s) = match if isBlank c then scopeAt? s else none with
      | some (value, rest) => (value :: (withoutScopes n rest).1, (withoutScopes n rest).2)
      | none => ((withoutScopes n s).1, c :: (withoutScopes n s).2) := Eq.refl _

theorem withoutScopes_append (hp : ∀ c ∈ p, isBlank c = false) (n : Nat) (r : List Char) :
    withoutScopes (p.length + n) (p ++ r) =
      ((withoutScopes n r).1, p ++ (withoutScopes n r).2) := by
  induction p with
  | nil => rw [List.length_nil, Nat.zero_add]; rfl
  | cons c p ih =>
    obtain ⟨hc, hp⟩ := List.forall_mem_cons.mp hp
    have hlength : (c :: p).length + n = (p.length + n) + 1 := by rw [List.length_cons]; omega
    rw [hlength, List.cons_append, withoutScopes_cons, hc, if_neg Bool.false_ne_true]
    simp only [ih hp, List.cons_append]

theorem exists_word_append (s : List Char) :
    ∃ p r, s = p ++ r ∧ (∀ c ∈ p, isBlank c = false) ∧ BlankLed r := by
  refine ⟨s.takeWhile fun c => !isBlank c, s.dropWhile fun c => !isBlank c,
    List.takeWhile_append_dropWhile.symm, ?_, Text.blankLed_dropWhile s⟩
  intro c hc
  have hplain := List.mem_takeWhile_imp hc
  rwa [Bool.not_eq_true'] at hplain

/-- Behind each blank a word begins, and the text is stripped word by word. -/
theorem stripped_withoutScopes {n : Nat} (hs : BlankLed s) (hn : s.length ≤ n) :
    BlankLed (withoutScopes n s).2 ∧ Stripped s (withoutScopes n s).1 (withoutScopes n s).2 := by
  induction hlength : s.length using Nat.strong_induction_on generalizing s n with
  | _ length ih =>
    cases s with
    | nil =>
      rw [withoutScopes_nil]
      exact ⟨hs, stripped_nil⟩
    | cons c u =>
      have hc : isBlank c = true := hs c rfl
      obtain ⟨p, r, rfl, hp, hr⟩ := exists_word_append u
      rw [List.length_cons, List.length_append] at hn hlength
      obtain ⟨m, rfl⟩ : ∃ m, n = m + 1 := ⟨n - 1, by omega⟩
      rw [withoutScopes_cons, hc, if_pos rfl, scopeAt?_append hp hr]
      cases hv : scopeValue? p with
      | some v =>
        obtain ⟨hled, hrest⟩ := ih r.length (by omega) hr (n := m) (by omega) rfl
        have hwords : words (c :: (p ++ r)) = p :: words r := by
          rw [Text.words_cons hc, words_append_of_scopeValue? hp hr hv]
        exact ⟨hled, hrest.of_scope hwords hv⟩
      | none =>
        obtain ⟨k, rfl⟩ : ∃ k, m = p.length + k := ⟨m - p.length, by omega⟩
        obtain ⟨hled, hrest⟩ := ih r.length (by omega) hr (n := k) (by omega) rfl
        have hword := (hrest.word_append hp hr hled hv).cons_blank hc
        simp only [Option.map_none, withoutScopes_append hp]
        exact ⟨Text.blankLed_cons hc _, hword⟩

/-- The start of a text is like the place behind a blank. -/
theorem exists_stripped (text : String) : ∃ values rest, Stripped text.toList values rest ∧
    extractScope text = (String.ofList (Text.trim rest), values.head?.map String.ofList) := by
  obtain ⟨p, r, htext, hp, hr⟩ := exists_word_append text.toList
  rw [extractScope, htext]
  simp only [scopeAt?_append hp hr]
  cases hv : scopeValue? p with
  | some v =>
    obtain ⟨-, hrest⟩ := stripped_withoutScopes hr (n := r.length) (Nat.le_refl _)
    exact ⟨_, _, hrest.of_scope (words_append_of_scopeValue? hp hr hv) hv, rfl⟩
  | none =>
    obtain ⟨hled, hrest⟩ := stripped_withoutScopes hr (n := r.length) (Nat.le_refl _)
    refine ⟨_, _, hrest.word_append hp hr hled hv, ?_⟩
    simp only [Option.map_none, List.length_append, withoutScopes_append hp]

/-- What a text gives as its scope and as what is left of it. -/
structure Extracted (text query : String) (scope : Option String) : Prop where
  scope_iff : ∀ v, scope = some v ↔ ∃ before behind,
    words text.toList = before ++ (scopeMark ++ v.toList) :: behind ∧ v ≠ "" ∧
      ∀ w ∈ before, ¬ NamesScope w
  none_iff : scope = none ↔ ∀ w ∈ words text.toList, ¬ NamesScope w
  words : words query.toList = (words text.toList).filter fun w => ¬ NamesScope w
  trimmed : Text.IsTrimmed query.toList
  /-- Nothing is left to be taken out. -/
  again : extractScope query = (query, none)

theorem Stripped.findSome?_eq (h : Stripped s values text) :
    values.head? = (Text.words s).findSome? scopeValue? := by
  rw [h.values, List.head?_filterMap]

theorem Stripped.scope_iff (h : Stripped s values text) (v : String) :
    values.head?.map String.ofList = some v ↔ ∃ before behind,
      Text.words s = before ++ (scopeMark ++ v.toList) :: behind ∧ v ≠ "" ∧
        ∀ w ∈ before, ¬ NamesScope w := by
  have hofList : values.head?.map String.ofList = some v ↔ values.head? = some v.toList := by
    rw [Option.map_eq_some_iff]
    constructor
    · rintro ⟨u, hu, rfl⟩
      rw [hu, String.toList_ofList]
    · exact fun hv => ⟨v.toList, hv, String.ofList_toList⟩
  have hne : v.toList ≠ [] ↔ v ≠ "" := not_congr String.toList_eq_nil_iff
  rw [hofList, h.findSome?_eq, List.findSome?_eq_some_iff]
  constructor
  · rintro ⟨before, w, behind, hwords, hw, hbefore⟩
    obtain ⟨rfl, hv⟩ := scopeValue?_eq_some_iff.mp hw
    exact ⟨before, behind, hwords, hne.mp hv,
      fun w hw => scopeValue?_eq_none_iff.mp (hbefore w hw)⟩
  · rintro ⟨before, behind, hwords, hv, hbefore⟩
    exact ⟨before, _, behind, hwords, scopeValue?_eq_some_iff.mpr ⟨rfl, hne.mpr hv⟩,
      fun w hw => scopeValue?_eq_none_iff.mpr (hbefore w hw)⟩

theorem Stripped.none_iff (h : Stripped s values text) :
    values.head?.map String.ofList = none ↔ ∀ w ∈ Text.words s, ¬ NamesScope w := by
  rw [Option.map_eq_none_iff, h.findSome?_eq, List.findSome?_eq_none_iff]
  exact forall₂_congr fun w _ => scopeValue?_eq_none_iff

/-- The scope of a text is named by the first of its words that name one; all of these are taken
out, and the other words stay. -/
theorem scope_words_extracted (text : String) :
    Extracted text (extractScope text).1 (extractScope text).2 := by
  obtain ⟨values, rest, hstripped, heq⟩ := exists_stripped text
  rw [heq]
  have hwords : words (Text.trim rest) = (words text.toList).filter fun w => ¬ NamesScope w := by
    rw [Text.words_trim, hstripped.words]
  constructor
  case scope_iff => exact hstripped.scope_iff
  case none_iff => exact hstripped.none_iff
  case words => rw [String.toList_ofList, hwords]
  case trimmed =>
    rw [String.toList_ofList]
    exact Text.isTrimmed_trim rest
  case again =>
    obtain ⟨values', rest', hagain, heq'⟩ := exists_stripped (String.ofList (Text.trim rest))
    rw [String.toList_ofList] at hagain
    have hnone : ∀ w ∈ words (Text.trim rest), ¬ NamesScope w := by
      intro w hw
      rw [hwords, List.mem_filter, decide_eq_true_eq] at hw
      exact hw.2
    rw [heq', hagain.none_iff.mpr hnone, hagain.same hnone, Text.trim_trim]

example : extractScope "x scope:a\u00a0scope:b scope: y" = ("x scope: y", some "a") := by
  decide +kernel

end ResourceIndex.Query
