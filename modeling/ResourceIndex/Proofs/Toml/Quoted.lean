import Mathlib.Data.List.Infix
import ResourceIndex.Toml.Quoted
/-
Strings of documents in their written form. Whatever the text, the form that is chosen for it is
read as this text again, provided that the line ends behind it.
-/
namespace ResourceIndex.Toml

variable {c x : Char} {s t r : List Char} {lines : Bool} {quotes : Nat}

/-- How a character may stand between double quotes. -/
inductive Spells (lines : Bool) (c : Char) : List Char → Prop where
  | plain (hc : isPlain c = true ∨ lines = true ∧ c = '\n') (quote : c ≠ '"') (back : c ≠ '\\') :
      Spells lines c [c]
  | short {x : Char} (hx : shortEscape? x = some c) : Spells lines c ['\\', x]
  | code {x y : Char} (hx : codePoint? ['0', '0', x, y] = some c) :
      Spells lines c ['\\', 'u', '0', '0', x, y]

theorem codePoint?_upper : ∀ n < 128, codePoint? ['0', '0', (Nat.digitChar (n / 16)).toUpper,
    (Nat.digitChar (n % 16)).toUpper] = some (Char.ofNat n) := by decide

/-- Each character is escaped in a way that it is read by. -/
theorem exists_spells (hc : c ≠ '"') (lines : Bool) (quotes : Nat) (s : List Char) :
    ∃ t, Spells lines c t ∧ escapedFrom lines quotes (c :: s) = t ++ escapedFrom lines 0 s := by
  rw [escapedFrom, if_neg hc]
  refine ⟨_, ?_, rfl⟩
  split
  · rename_i hback
    subst hback
    exact .short rfl
  rename_i hback
  split
  · rename_i hfeed
    subst hfeed
    cases lines with
    | false => exact .short rfl
    | true => exact .plain (.inr ⟨rfl, rfl⟩) hc hback
  rename_i hfeed
  split
  · rename_i htab
    subst htab
    exact .short rfl
  split
  · rename_i hreturn
    subst hreturn
    exact .short rfl
  split
  · rename_i hbackspace
    subst hbackspace
    exact .short rfl
  split
  · rename_i hformfeed
    subst hformfeed
    exact .short rfl
  split
  · rename_i hescape
    have hascii : c.toNat < 128 := by
      simp only [needsEscape, isPlain, Bool.and_eq_true, Bool.not_eq_true', Bool.or_eq_false_iff,
        Bool.and_eq_false_iff, decide_eq_false_iff_not, not_not, Nat.not_le] at hescape
      omega
    have hcode := codePoint?_upper c.toNat hascii
    rw [Char.ofNat_toNat] at hcode
    exact .code hcode
  · rename_i hplain
    refine .plain (.inl ?_) hc hback
    simpa [needsEscape, hfeed] using hplain

theorem shortEscape?_ne (h : shortEscape? x = some c) : x ≠ 'u' ∧ x ≠ 'U' := by
  constructor
  · rintro rfl
    cases h
  · rintro rfl
    cases h

theorem basic?_of_spells (h : Spells false c t) (r : List Char) :
    basic? (t ++ r) = Cut.prepend c (basic? r) := by
  cases h with
  | plain hc quote back =>
    have hplain : isPlain c = true := hc.resolve_right fun h => Bool.false_ne_true h.left
    rw [List.singleton_append, basic?, hplain, Bool.true_and, if_pos (bne_iff_ne.mpr back)]
    · exact quote
    · exact fun _ _ _ _ _ h _ => back h
    · exact fun _ _ _ _ _ _ _ _ _ h _ => back h
    · exact fun _ _ h _ => back h
  | @short x hx =>
    obtain ⟨hlower, hupper⟩ := shortEscape?_ne hx
    change basic? ('\\' :: x :: r) = _
    rw [basic?, hx, Option.bind_some]
    · exact fun _ _ _ _ _ h _ => hlower h
    · exact fun _ _ _ _ _ _ _ _ _ h _ => hupper h
  | code hx =>
    change (codePoint? _).bind _ = _
    rw [hx]
    rfl

theorem ne_return (hc : isPlain c = true ∨ c = '\n') : c ≠ '\r' := by
  rintro rfl
  rcases hc with hplain | hfeed
  · exact absurd hplain (by decide)
  · exact absurd hfeed (by decide)

/-- A character that stands for itself and does not begin the closing quotes. -/
theorem multilineBasic?_cons (hc : isPlain c = true ∨ c = '\n') (back : c ≠ '\\')
    (hquotes : c = '"' → ¬ ['"', '"'] <+: r) :
    multilineBasic? false (c :: r) = Cut.prepend c (multilineBasic? false r) := by
  have hread : (decide (c = '\n') || isPlain c && c != '\\') = true := by
    rw [bne_iff_ne.mpr back, Bool.and_true, Bool.or_eq_true, decide_eq_true_iff]
    exact hc.symm
  rw [multilineBasic?, Bool.false_and, if_neg Bool.false_ne_true, hread, if_pos rfl]
  -- Nothing that is tried before begins here: closing quotes, a line end, an escape.
  · exact fun r h heq => hquotes h (heq ▸ ⟨'"' :: '"' :: r, rfl⟩)
  · exact fun r h heq => hquotes h (heq ▸ ⟨'"' :: r, rfl⟩)
  · exact fun r h heq => hquotes h (heq ▸ ⟨r, rfl⟩)
  · exact fun _ h _ => ne_return hc h
  · exact fun _ _ _ _ _ h _ => back h
  · exact fun _ _ _ _ _ _ _ _ _ h _ => back h
  · exact fun _ _ h _ => back h

theorem multilineBasic?_of_spells (h : Spells true c t) (r : List Char) :
    multilineBasic? false (t ++ r) = Cut.prepend c (multilineBasic? false r) := by
  cases h with
  | plain hc quote back =>
    exact multilineBasic?_cons (hc.imp_right And.right) back fun h => absurd h quote
  | @short x hx =>
    obtain ⟨hlower, hupper⟩ := shortEscape?_ne hx
    change multilineBasic? false ('\\' :: x :: r) = _
    rw [multilineBasic?, hx]
    · exact fun _ _ _ _ _ h _ => hlower h
    · exact fun _ _ _ _ _ _ _ _ _ h _ => hupper h
  | code hx =>
    change (codePoint? _).bind _ = _
    rw [hx]
    rfl

/-- A quote that is escaped. -/
theorem escapedFrom_quote (h : ¬ (lines = true ∧ quotes < 2)) (s : List Char) :
    escapedFrom lines quotes ('"' :: s) = ['\\', '"'] ++ escapedFrom lines 0 s := by
  rw [escapedFrom, if_pos rfl, if_neg h]
  rfl

theorem escapedFrom_raw (h : quotes < 2) (s : List Char) :
    escapedFrom true quotes ('"' :: s) = '"' :: escapedFrom true (quotes + 1) s := by
  rw [escapedFrom, if_pos rfl, if_pos ⟨rfl, h⟩]

theorem spells_quote (lines : Bool) : Spells lines '"' ['\\', '"'] := .short rfl

theorem basic?_escapedFrom (quotes : Nat) (s r : List Char) :
    basic? (escapedFrom false quotes s ++ '"' :: r) = some (s, r) := by
  induction s generalizing quotes with
  | nil => rfl
  | cons c s ih =>
    by_cases hc : c = '"'
    · subst hc
      rw [escapedFrom_quote (fun h => Bool.false_ne_true h.left), List.append_assoc,
        basic?_of_spells (spells_quote false), ih]
      rfl
    · obtain ⟨t, hspells, htext⟩ := exists_spells hc false quotes s
      rw [htext, List.append_assoc, basic?_of_spells hspells, ih]
      rfl

/-- Escaped text begins with a backslash or with the character itself, with a quote only where a
quote stands as it is. -/
theorem exists_escapedFrom_cons (lines : Bool) (quotes : Nat) (c : Char) (s : List Char) :
    ∃ x t, escapedFrom lines quotes (c :: s) = x :: t ∧ (x = '\\' ∨ x = c ∧
      (isPlain c = true ∨ c = '\n') ∧ (c = '"' → lines = true ∧ quotes < 2)) := by
  by_cases hc : c = '"'
  · subst hc
    by_cases hraw : lines = true ∧ quotes < 2
    · obtain ⟨rfl, hquotes⟩ := hraw
      exact ⟨_, _, escapedFrom_raw hquotes s, .inr ⟨rfl, .inl rfl, fun _ => ⟨rfl, hquotes⟩⟩⟩
    · exact ⟨_, _, escapedFrom_quote hraw s, .inl rfl⟩
  · obtain ⟨t, hspells, htext⟩ := exists_spells hc lines quotes s
    cases hspells with
    | plain hplain =>
      exact ⟨_, _, htext, .inr ⟨rfl, hplain.imp_right And.right, fun hquote => absurd hquote hc⟩⟩
    | short => exact ⟨_, _, htext, .inl rfl⟩
    | code => exact ⟨_, _, htext, .inl rfl⟩

/-- Behind a raw quote two more follow only at the end of the text. -/
theorem not_prefix_escapedFrom (hend : ¬ (c = '"' ∧ quotes < 2 ∧ s = [])) (hquotes : 0 < quotes)
    (r : List Char) : ¬ ['"', '"'] <+: escapedFrom true quotes (c :: s) ++ r := by
  intro hprefix
  obtain ⟨x, t, htext, hx⟩ := exists_escapedFrom_cons true quotes c s
  rw [htext, List.cons_append, List.cons_prefix_cons] at hprefix
  obtain ⟨rfl, hprefix⟩ := hprefix
  obtain ⟨rfl, -, hraw⟩ := hx.resolve_left (by decide)
  have hfew := (hraw rfl).right
  cases s with
  | nil => exact hend ⟨rfl, hfew, rfl⟩
  | cons d s =>
    obtain ⟨y, u, htext', hy⟩ := exists_escapedFrom_cons true (quotes + 1) d s
    rw [escapedFrom_raw hfew, htext'] at htext
    cases htext
    rw [List.cons_append, List.cons_prefix_cons] at hprefix
    obtain ⟨rfl, -⟩ := hprefix
    obtain ⟨rfl, -, hraw'⟩ := hy.resolve_left (by decide)
    have := (hraw' rfl).right
    omega

theorem multilineBasic?_escapedFrom (quotes : Nat) (s r : List Char) :
    multilineBasic? false (escapedFrom true quotes s ++ '"' :: '"' :: '"' :: '\n' :: r) =
      some (s, '\n' :: r) := by
  -- The number of raw quotes in front of the text changes with each step.
  induction s generalizing quotes with
  | nil => rfl
  | cons c s ih =>
    by_cases hc : c = '"'
    · subst hc
      by_cases hraw : quotes < 2
      · rw [escapedFrom_raw hraw]
        cases s with
        | nil => rfl
        | cons d s =>
          -- One more quote at the end of the text goes together with the three that close it.
          by_cases hend : d = '"' ∧ quotes + 1 < 2 ∧ s = []
          · obtain ⟨rfl, hmore, rfl⟩ := hend
            rw [escapedFrom_raw hmore]
            rfl
          · rw [List.cons_append, multilineBasic?_cons (.inl rfl) (by decide)
              (fun _ => not_prefix_escapedFrom hend (Nat.succ_pos quotes) _), ih]
            rfl
      · rw [escapedFrom_quote (fun h => hraw h.right), List.append_assoc,
          multilineBasic?_of_spells (spells_quote true), ih]
        rfl
    · obtain ⟨t, hspells, htext⟩ := exists_spells hc true quotes s
      rw [htext, List.append_assoc, multilineBasic?_of_spells hspells, ih]
      rfl

theorem literal?_append (h : ∀ c ∈ s, isPlain c = true ∧ c ≠ '\'') (r : List Char) :
    literal? (s ++ '\'' :: r) = some (s, r) := by
  induction s with
  | nil => rfl
  | cons c s ih =>
    obtain ⟨⟨hplain, hquote⟩, hs⟩ := List.forall_mem_cons.mp h
    rw [List.cons_append, literal?, if_neg hquote, if_pos hplain, ih hs]
    rfl

theorem multilineLiteral?_cons (hc : isPlain c = true ∨ c = '\n')
    (hquotes : c = '\'' → ¬ ['\'', '\''] <+: r) :
    multilineLiteral? (c :: r) = Cut.prepend c (multilineLiteral? r) := by
  have hread : (decide (c = '\n') || isPlain c) = true := by
    rw [Bool.or_eq_true, decide_eq_true_iff]
    exact hc.symm
  rw [multilineLiteral?, hread, if_pos rfl]
  · exact fun r h heq => hquotes h (heq ▸ ⟨'\'' :: '\'' :: r, rfl⟩)
  · exact fun r h heq => hquotes h (heq ▸ ⟨'\'' :: r, rfl⟩)
  · exact fun r h heq => hquotes h (heq ▸ ⟨r, rfl⟩)
  · exact fun _ h _ => ne_return hc h

theorem multilineLiteral?_append (h : ∀ c ∈ s, isPlain c = true ∨ c = '\n')
    (hrun : ¬ ['\'', '\'', '\''] <:+: s) (r : List Char) :
    multilineLiteral? (s ++ '\'' :: '\'' :: '\'' :: '\n' :: r) = some (s, '\n' :: r) := by
  induction s with
  | nil => rfl
  | cons c s ih =>
    obtain ⟨hc, hs⟩ := List.forall_mem_cons.mp h
    -- Quotes at the end of the text go together with the three that close it.
    by_cases hend : c = '\'' ∧ (s = [] ∨ s = ['\''])
    · obtain ⟨rfl, rfl | rfl⟩ := hend
      · rfl
      · rfl
    · have hquotes : c = '\'' → ¬ ['\'', '\''] <+: s ++ '\'' :: '\'' :: '\'' :: '\n' :: r := by
        rintro rfl hprefix
        match s with
        | [] => exact hend ⟨rfl, .inl rfl⟩
        | [d] =>
          obtain ⟨rfl, -⟩ := List.cons_prefix_cons.mp hprefix
          exact hend ⟨rfl, .inr rfl⟩
        | d :: e :: s =>
          have hs : ['\'', '\''] <+: d :: e :: s :=
            List.prefix_of_prefix_length_le hprefix (List.prefix_append _ _) (by simp)
          exact hrun ((List.prefix_cons_inj _).mpr hs).isInfix
      rw [List.cons_append, multilineLiteral?_cons hc hquotes,
        ih hs fun hinfix => hrun (List.infix_cons hinfix)]
      rfl

/-- The longest run up to here and the one that lasts. -/
def runs (c : Char) (s : List Char) (p : Nat × Nat) : Nat × Nat :=
  s.foldl (fun (best, run) x => if x = c then (max best (run + 1), run + 1) else (best, 0)) p

theorem runs_cons (c x : Char) (s : List Char) (best run : Nat) :
    runs c (x :: s) (best, run) =
      runs c s (if x = c then (max best (run + 1), run + 1) else (best, 0)) := rfl

theorem runs_append (c : Char) (s t : List Char) (p : Nat × Nat) :
    runs c (s ++ t) p = runs c t (runs c s p) := List.foldl_append

theorem run_le_best {p : Nat × Nat} (h : p.2 ≤ p.1) (c : Char) (s : List Char) :
    (runs c s p).2 ≤ (runs c s p).1 ∧ p.1 ≤ (runs c s p).1 := by
  induction s generalizing p with
  | nil => exact ⟨h, Nat.le_refl _⟩
  | cons x s ih =>
    obtain ⟨best, run⟩ := p
    rw [runs_cons]
    split
    · obtain ⟨hrun, hbest⟩ := ih (p := (max best (run + 1), run + 1)) (Nat.le_max_right _ _)
      exact ⟨hrun, (Nat.le_max_left _ _).trans hbest⟩
    · exact ih (p := (best, 0)) (Nat.zero_le _)

theorem runs_replicate (c : Char) (n : Nat) (p : Nat × Nat) :
    (runs c (List.replicate n c) p).2 = p.2 + n := by
  induction n generalizing p with
  | zero => rfl
  | succ n ih =>
    rw [List.replicate_succ, runs_cons, if_pos rfl, ih]
    exact Nat.succ_add_eq_add_succ _ _

theorem le_longestRun {n : Nat} (h : List.replicate n c <:+: s) : n ≤ longestRun c s := by
  obtain ⟨before, behind, rfl⟩ := h
  have hlast := runs_replicate c n (runs c before (0, 0))
  rw [← runs_append] at hlast
  have hhere := run_le_best (p := (0, 0)) (Nat.le_refl _) c (before ++ List.replicate n c)
  have hall := run_le_best hhere.left c behind
  have hend : longestRun c (before ++ List.replicate n c ++ behind) =
      (runs c behind (runs c (before ++ List.replicate n c) (0, 0))).1 := by
    rw [← runs_append]
    rfl
  omega

theorem notMem_of_longestRun (h : longestRun c s = 0) : c ∉ s := by
  intro hc
  have hrun : 1 ≤ longestRun c s := le_longestRun ((List.singleton_infix_iff c s).mpr hc)
  omega

theorem string?_basic (h : ¬ ['"', '"'] <+: r) : string? ('"' :: r) = basic? r := by
  rw [string?]
  exact fun r heq => h (heq ▸ ⟨r, rfl⟩)

theorem string?_literal (h : ¬ ['\'', '\''] <+: r) : string? ('\'' :: r) = literal? r := by
  rw [string?]
  exact fun r heq => h (heq ▸ ⟨r, rfl⟩)

theorem string?_of_basic (s r : List Char) :
    string? ('"' :: (escapedFrom false 0 s ++ '"' :: '\n' :: r)) = some (s, '\n' :: r) := by
  rw [string?_basic, basic?_escapedFrom]
  intro hprefix
  cases s with
  | nil => 
    obtain ⟨-, hprefix⟩ := List.cons_prefix_cons.mp hprefix
    obtain ⟨h, -⟩ := List.cons_prefix_cons.mp hprefix
    exact absurd h (by decide)
  | cons c s =>
    obtain ⟨x, t, htext, hx⟩ := exists_escapedFrom_cons false 0 c s
    rw [htext, List.cons_append, List.cons_prefix_cons] at hprefix
    obtain ⟨rfl, -⟩ := hprefix
    obtain ⟨rfl, -, hraw⟩ := hx.resolve_left (by decide)
    exact Bool.false_ne_true (hraw rfl).left

theorem string?_of_literal (h : ∀ c ∈ s, isPlain c = true ∧ c ≠ '\'') (r : List Char) :
    string? ('\'' :: (s ++ '\'' :: '\n' :: r)) = some (s, '\n' :: r) := by
  rw [string?_literal, literal?_append h]
  intro hprefix
  cases s with
  | nil =>
    obtain ⟨-, hprefix⟩ := List.cons_prefix_cons.mp hprefix
    obtain ⟨h, -⟩ := List.cons_prefix_cons.mp hprefix
    exact absurd h (by decide)
  | cons c s =>
    obtain ⟨heq, -⟩ := List.cons_prefix_cons.mp hprefix
    exact (h c List.mem_cons_self).right heq.symm

theorem dropNewline_of_plain (h : isPlain c = true) (r : List Char) :
    dropNewline (c :: r) = c :: r := by
  rw [dropNewline, newline?]
  · rfl
  · rintro t ⟨⟩
    exact absurd h (by decide)
  · rintro t ⟨⟩
    exact absurd h (by decide)

/-- The line end in front of a text with lines is passed over. -/
theorem dropNewline_start (h : s.contains '\n' = false → ∃ c t, r = c :: t ∧ isPlain c = true) :
    dropNewline ((if s.contains '\n' then ['\n'] else []) ++ r) = r := by
  split
  · rfl
  · rename_i hlines
    obtain ⟨c, t, rfl, hc⟩ := h (Bool.eq_false_iff.mpr hlines)
    exact dropNewline_of_plain hc t

theorem isPlain_of_mem (hs : s.contains '\n' = false) (hc : c ∈ s)
    (h : isPlain c = true ∨ c = '\n') : isPlain c = true := by
  refine h.resolve_right ?_
  rintro rfl
  rw [List.contains_iff_mem.mpr hc] at hs
  cases hs

theorem string?_of_linesBasic (s r : List Char) :
    string? ('"' :: '"' :: '"' :: ((if s.contains '\n' then ['\n'] else []) ++
      (escapedFrom true 0 s ++ '"' :: '"' :: '"' :: '\n' :: r))) = some (s, '\n' :: r) := by
  rw [string?, dropNewline_start, multilineBasic?_escapedFrom]
  intro hlines
  cases s with
  | nil => exact ⟨'"', _, rfl, rfl⟩
  | cons c s =>
    obtain ⟨x, t, htext, hx⟩ := exists_escapedFrom_cons true 0 c s
    rw [htext]
    refine ⟨x, _, rfl, ?_⟩
    rcases hx with rfl | ⟨rfl, hchar, -⟩
    · rfl
    · exact isPlain_of_mem hlines List.mem_cons_self hchar

theorem string?_of_linesLiteral (h : ∀ c ∈ s, isPlain c = true ∨ c = '\n')
    (hrun : ¬ ['\'', '\'', '\''] <:+: s) (r : List Char) :
    string? ('\'' :: '\'' :: '\'' :: ((if s.contains '\n' then ['\n'] else []) ++
      (s ++ '\'' :: '\'' :: '\'' :: '\n' :: r))) = some (s, '\n' :: r) := by
  rw [string?, dropNewline_start, multilineLiteral?_append h hrun]
  intro hlines
  cases s with
  | nil => exact ⟨'\'', _, rfl, rfl⟩
  | cons c s =>
    exact ⟨c, _, rfl, isPlain_of_mem hlines List.mem_cons_self (h c List.mem_cons_self)⟩

/-- A text in the form that is chosen for it is read as this text. -/
theorem string?_quoted (s r : List Char) :
    string? (quoted s ++ '\n' :: r) = some (s, '\n' :: r) := by
  unfold quoted
  extract_lets lines escapes backslash doubles singles start basic linesBasic
  have hplain (h : escapes = false) : ∀ c ∈ s, isPlain c = true ∨ c = '\n' := by
    intro c hc
    have hescape := List.any_eq_false.mp h c hc
    rw [or_iff_not_imp_right]
    simpa [needsEscape] using hescape
  have hbasic : string? (basic ++ '\n' :: r) = some (s, '\n' :: r) := by
    have hread := string?_of_basic s r
    simpa [basic] using hread
  have hlines : string? (linesBasic ++ '\n' :: r) = some (s, '\n' :: r) := by
    have hread := string?_of_linesBasic s r
    simpa [linesBasic, start, lines] using hread
  split
  · exact hbasic
  split
  · rename_i hliteral
    simp only [Bool.and_eq_true, Bool.not_eq_true', decide_eq_true_iff] at hliteral
    obtain ⟨⟨hnone, hsingles⟩, hone⟩ := hliteral
    have hchars : ∀ c ∈ s, isPlain c = true ∧ c ≠ '\'' := by
      refine fun c hc => ⟨isPlain_of_mem hone hc (hplain hnone c hc), ?_⟩
      rintro rfl
      exact notMem_of_longestRun hsingles hc
    simpa using string?_of_literal hchars r
  split
  · exact hlines
  split
  · rename_i hliteral
    simp only [Bool.and_eq_true, Bool.not_eq_true', decide_eq_true_iff] at hliteral
    obtain ⟨hnone, hsingles⟩ := hliteral
    have hrun : ¬ ['\'', '\'', '\''] <:+: s := by
      intro hinfix
      have hlong : 3 ≤ longestRun '\'' s := le_longestRun hinfix
      omega
    have hread := string?_of_linesLiteral (hplain hnone) hrun r
    simpa [start, lines] using hread
  split
  · exact hlines
  · exact hbasic

end ResourceIndex.Toml
