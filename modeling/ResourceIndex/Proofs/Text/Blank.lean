import Mathlib.Data.List.DropRight
import Mathlib.Data.List.TakeWhile
import ResourceIndex.Text.Blank
/-
Blanks around and between words. Trimming takes away the blanks at both ends and nothing else, so
the words of a text stay as they are; a text falls apart into its words at every blank.
-/
namespace ResourceIndex.Text

variable {s t u v : List Char} {c : Char}

/-- No blank stands at either end of the text. -/
structure IsTrimmed (s : List Char) : Prop where
  head : ∀ c, s.head? = some c → isBlank c = false
  last : ∀ c, s.getLast? = some c → isBlank c = false

theorem eq_false_of_head?_dropWhile {p : Char → Bool} (h : (s.dropWhile p).head? = some c) :
    p c = false := by
  have hhead := List.head?_dropWhile_not p s
  rwa [h] at hhead

theorem eq_false_of_dropWhile {p : Char → Bool} (h : s.dropWhile p = c :: u) : p c = false :=
  eq_false_of_head?_dropWhile (by rw [h]; rfl)

theorem dropWhile_of_head? {p : Char → Bool} (h : ∀ c, s.head? = some c → p c = false) :
    s.dropWhile p = s := by
  cases s with
  | nil => rfl
  | cons c s => exact List.dropWhile_cons_of_neg (by rw [h c rfl]; exact Bool.false_ne_true)

theorem trimEnd_prefix (p : Char → Bool) (s : List Char) : trimEnd p s <+: s :=
  List.rdropWhile_prefix p s

theorem isTrimmed_trim (s : List Char) : IsTrimmed (trim s) := by
  constructor
  case head =>
    intro c hc
    obtain ⟨v, hv⟩ := trimEnd_prefix isBlank (trimStart isBlank s)
    have hhead : (trimStart isBlank s).head? = some c := by
      rw [← hv, List.head?_append]
      change (trim s).head?.or v.head? = some c
      rw [hc, Option.some_or]
    exact eq_false_of_head?_dropWhile hhead
  case last =>
    intro c hc
    rw [trim, trimEnd, List.getLast?_reverse] at hc
    exact eq_false_of_head?_dropWhile hc

theorem IsTrimmed.trim_eq (h : IsTrimmed s) : trim s = s := by
  have hstart : trimStart isBlank s = s := dropWhile_of_head? h.head
  have hend : s.reverse.dropWhile isBlank = s.reverse :=
    dropWhile_of_head? fun c hc => h.last c (by rwa [List.head?_reverse] at hc)
  rw [trim, hstart, trimEnd, hend, List.reverse_reverse]

theorem trim_eq_self_iff : trim s = s ↔ IsTrimmed s :=
  ⟨fun h => h ▸ isTrimmed_trim s, IsTrimmed.trim_eq⟩

theorem trim_trim (s : List Char) : trim (trim s) = trim s := (isTrimmed_trim s).trim_eq

/-- Only blanks are taken away. -/
theorem exists_eq_append_trim_append (s : List Char) :
    ∃ u v, s = u ++ trim s ++ v ∧ (∀ c ∈ u, isBlank c = true) ∧ ∀ c ∈ v, isBlank c = true := by
  refine ⟨s.takeWhile isBlank, (trimStart isBlank s).rtakeWhile isBlank, ?_, ?_, ?_⟩
  · have hend : trim s ++ (trimStart isBlank s).rtakeWhile isBlank = trimStart isBlank s :=
      List.rdropWhile_append_rtakeWhile
    rw [List.append_assoc, hend]
    exact List.takeWhile_append_dropWhile.symm
  · exact fun c hc => List.mem_takeWhile_imp hc
  · exact fun c hc => List.mem_rtakeWhile_imp hc

theorem trim_eq_of_length_le (h : s.length ≤ (trim s).length) : trim s = s := by
  obtain ⟨u, v, hs, -⟩ := exists_eq_append_trim_append s
  have hlength := congrArg List.length hs
  rw [List.length_append, List.length_append] at hlength
  have hu : u = [] := List.length_eq_zero_iff.mp (by omega)
  have hv : v = [] := List.length_eq_zero_iff.mp (by omega)
  rw [hu, hv, List.nil_append, List.append_nil] at hs
  exact hs.symm

/-- The words of a text: its longest parts without blanks. -/
def words (s : List Char) : List (List Char) := (s.splitOnP isBlank).filter fun w => !w.isEmpty

/-- What can be a word: it is not empty, and no blank is in it. -/
structure IsWord (w : List Char) : Prop where
  ne_nil : w ≠ []
  plain : ∀ c ∈ w, isBlank c = false

theorem words_nil : words [] = [] := by rw [words, List.splitOnP_nil]; rfl

theorem words_append_cons (hc : isBlank c = true) (s t : List Char) :
    words (s ++ c :: t) = words s ++ words t := by
  rw [words, List.splitOnP_append_cons s t hc, List.filter_append]
  rfl

theorem words_cons (hc : isBlank c = true) (s : List Char) : words (c :: s) = words s := by
  have hcons := words_append_cons hc [] s
  rwa [words_nil, List.nil_append, List.nil_append] at hcons

theorem IsWord.words_eq (h : IsWord s) : words s = [s] := by
  rw [words, List.splitOnP_eq_singleton h.plain]
  exact List.filter_cons_of_pos (by rw [List.isEmpty_eq_false_iff.mpr h.ne_nil]; rfl)

theorem eq_of_mem_words (h : ∀ c ∈ s, isBlank c = false) (ht : t ∈ words s) : t = s := by
  by_cases hs : s = []
  · rw [hs, words_nil] at ht
    exact absurd ht List.not_mem_nil
  · rw [IsWord.words_eq ⟨hs, h⟩] at ht
    exact List.mem_singleton.mp ht

/-- The text is empty or begins with a blank. -/
def BlankLed (s : List Char) : Prop := ∀ c, s.head? = some c → isBlank c = true

theorem blankLed_cons (hc : isBlank c = true) (s : List Char) : BlankLed (c :: s) := by
  rintro x ⟨⟩
  exact hc

theorem blankLed_dropWhile (s : List Char) : BlankLed (s.dropWhile fun c => !isBlank c) := by
  intro c hc
  have hstop := eq_false_of_head?_dropWhile hc
  rwa [Bool.not_eq_false'] at hstop

/-- A word ends where a blank follows. -/
theorem words_append (ht : BlankLed t) (s : List Char) : words (s ++ t) = words s ++ words t := by
  cases t with
  | nil => rw [List.append_nil, words_nil, List.append_nil]
  | cons c t => rw [words_append_cons (ht c rfl), words_cons (ht c rfl)]

theorem words_blanks_append (h : ∀ c ∈ u, isBlank c = true) (s : List Char) :
    words (u ++ s) = words s := by
  induction u with
  | nil => rfl
  | cons c u ih =>
    obtain ⟨hc, hu⟩ := List.forall_mem_cons.mp h
    rw [List.cons_append, words_cons hc, ih hu]

theorem words_of_blanks (h : ∀ c ∈ s, isBlank c = true) : words s = [] := by
  have hblanks := words_blanks_append h []
  rwa [List.append_nil, words_nil] at hblanks

theorem words_append_blanks (h : ∀ c ∈ v, isBlank c = true) (s : List Char) :
    words (s ++ v) = words s := by
  cases v with
  | nil => rw [List.append_nil]
  | cons c v =>
    obtain ⟨hc, hv⟩ := List.forall_mem_cons.mp h
    rw [words_append_cons hc, words_of_blanks hv, List.append_nil]

theorem words_trim (s : List Char) : words (trim s) = words s := by
  obtain ⟨u, v, hs, hu, hv⟩ := exists_eq_append_trim_append s
  conv_rhs => rw [hs]
  rw [words_append_blanks hv, words_blanks_append hu]

end ResourceIndex.Text
