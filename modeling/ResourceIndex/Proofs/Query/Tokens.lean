import Mathlib.Data.List.TakeWhile
import ResourceIndex.Proofs.Text.Blank
import ResourceIndex.Proofs.Text.Cut
import ResourceIndex.Query.Token
/-
Tokens and their texts. What is read as a token is a word, or a phrase with a word in front of it
that may be empty. Tokens of this kind, written one after another with blanks between them, are
read again, unless a hyphen at their start would be taken for a sign.
-/
namespace ResourceIndex.Query.Token

open Text (isBlank)

variable {t : Token} {ts : List Token} {s rest : List Char}

theorem closeQuote?_eq_cutAt? (s : List Char) : closeQuote? s = Text.cutAt? '"' s := by
  induction s with
  | nil => rfl
  | cons c s ih => rw [closeQuote?, Text.cutAt?, ih]

/-- Whether the hyphen that a text may begin with is a sign. -/
def signed : List Char → Bool
  | '-' :: c :: _ => !isBlank c
  | _ => false

/-- The token that a text without a sign starts with. -/
def unsigned? (negated : Bool) (s : List Char) : Option (Token × List Char) :=
  let word := s.takeWhile fun c => !endsWord c
  match s.dropWhile fun c => !endsWord c with
  | '"' :: rest => (closeQuote? rest).map fun p => (⟨negated, word, some p.1⟩, p.2)
  | rest => some (⟨negated, word, none⟩, rest)

theorem first?_eq (s : List Char) :
    first? s = unsigned? (signed s) (if signed s then s.drop 1 else s) := rfl

theorem signed_cons {c : Char} (hc : isBlank c = false) (s : List Char) :
    signed ('-' :: c :: s) = true := by
  rw [signed, hc, Bool.not_false]

theorem exists_of_signed (h : signed s = true) :
    ∃ c u, s = '-' :: c :: u ∧ isBlank c = false := by
  unfold signed at h
  split at h
  · rename_i c u
    exact ⟨c, u, rfl, by rwa [Bool.not_eq_true'] at h⟩
  · cases h

/-- What can be read as a token. -/
structure IsRead (t : Token) : Prop where
  word : ∀ c ∈ t.word, endsWord c = false
  phrase : ∀ p, t.phrase = some p → '"' ∉ p
  ne_nil : t.phrase = none → t.word ≠ []

/-- The first character ends no word, so a word without a quote behind it is not empty. -/
theorem isRead_of_unsigned? {negated : Bool} {c : Char} (hc : isBlank c = false)
    (h : unsigned? negated (c :: s) = some (t, rest)) : t.IsRead := by
  have hword : ∀ x ∈ (c :: s).takeWhile fun c => !endsWord c, endsWord x = false := by
    intro x hx
    have hkept := List.mem_takeWhile_imp hx
    rwa [Bool.not_eq_true'] at hkept
  unfold unsigned? at h
  split at h
  · obtain ⟨⟨p, behind⟩, hclose, heq⟩ := Option.map_eq_some_iff.mp h
    cases heq
    rw [closeQuote?_eq_cutAt?] at hclose
    refine ⟨hword, ?_, fun hnone => absurd hnone (Option.some_ne_none p)⟩
    intro q hq
    cases hq
    exact (Text.notMem_of_cutAt? hclose).1
  · rename_i hquote
    cases h
    refine ⟨hword, fun p hp => absurd hp.symm (Option.some_ne_none p), ?_⟩
    intro _ hnil
    cases hends : endsWord c with
    | false =>
      rw [List.takeWhile_cons_of_pos (by rw [hends]; rfl)] at hnil
      cases hnil
    | true =>
      rw [endsWord, hc, Bool.false_or, beq_iff_eq] at hends
      subst hends
      exact hquote s (List.dropWhile_cons_of_neg (by decide))

theorem isRead_of_first? {c : Char} (hc : isBlank c = false)
    (h : first? (c :: s) = some (t, rest)) : t.IsRead := by
  rw [first?_eq] at h
  split at h
  · rename_i hsigned
    obtain ⟨x, u, heq, hx⟩ := exists_of_signed hsigned
    rw [heq] at h
    exact isRead_of_unsigned? hx h
  · exact isRead_of_unsigned? hc h

theorem isRead_of_scanFrom {n : Nat} (h : scanFrom n s = .ok ts) : ∀ t ∈ ts, t.IsRead := by
  induction n generalizing s ts with
  | zero =>
    cases h
    exact fun t ht => nomatch ht
  | succ n ih =>
    rw [scanFrom] at h
    cases hs : s.dropWhile isBlank with
    | nil =>
      rw [hs] at h
      cases h
      exact fun t ht => nomatch ht
    | cons c u =>
      rw [hs] at h
      cases hfirst : first? (c :: u) with
      | none =>
        simp only [hfirst] at h
        cases h
      | some found =>
        obtain ⟨t, rest⟩ := found
        simp only [hfirst] at h
        cases hrest : scanFrom n rest with
        | error e =>
          rw [hrest] at h
          cases h
        | ok us =>
          rw [hrest] at h
          cases h
          exact List.forall_mem_cons.mpr
            ⟨isRead_of_first? (Text.eq_false_of_dropWhile hs) hfirst, ih hrest⟩

/-- How a token is written, but for its sign. -/
def body (t : Token) : List Char :=
  t.word ++ match t.phrase with
    | some p => '"' :: p ++ ['"']
    | none => []

/-- How a token is written. -/
def written (t : Token) : List Char := if t.negated then '-' :: t.body else t.body

/-- Whether a token is read again: it can be read, and has no hyphen that looks like a sign. -/
structure IsReadable (t : Token) : Prop extends IsRead t where
  unsigned : t.negated = false → t.word.head? ≠ some '-'

theorem isBlank_of_endsWord {c : Char} (h : endsWord c = false) : isBlank c = false :=
  (Bool.or_eq_false_iff.mp h).1

/-- A token starts with a character of its word, or with a quote. -/
theorem IsRead.exists_body (h : t.IsRead) : ∃ c u, t.body = c :: u ∧ isBlank c = false ∧
    (c = '-' → t.word.head? = some '-') := by
  rw [body]
  cases hw : t.word with
  | cons c w =>
    have hc : c ∈ t.word := hw ▸ List.mem_cons_self
    refine ⟨c, _, rfl, isBlank_of_endsWord (h.word c hc), ?_⟩
    rintro rfl
    rfl
  | nil =>
    cases hp : t.phrase with
    | none => exact absurd hw (h.ne_nil hp)
    | some p => exact ⟨'"', _, rfl, by decide, fun hc => absurd hc (by decide)⟩

theorem IsRead.exists_written (h : t.IsRead) : ∃ c u, t.written = c :: u ∧ isBlank c = false := by
  rw [written]
  split
  · exact ⟨'-', _, rfl, by decide⟩
  · obtain ⟨c, u, hbody, hc, -⟩ := h.exists_body
    exact ⟨c, u, hbody, hc⟩

/-- After a token comes a blank or nothing. -/
theorem IsRead.unsigned?_body_append (h : t.IsRead) (hrest : Text.Led ' ' rest) (negated : Bool) :
    unsigned? negated (t.body ++ rest) = some (⟨negated, t.word, t.phrase⟩, rest) := by
  have hword : ∀ c ∈ t.word, (!endsWord c) = true := fun c hc => by rw [h.word c hc]; rfl
  rw [body, List.append_assoc, unsigned?, List.takeWhile_append_of_pos hword,
    List.dropWhile_append_of_pos hword]
  cases hp : t.phrase with
  | none =>
    rcases hrest with rfl | ⟨u, rfl⟩
    · simp only [List.append_nil, List.takeWhile_nil, List.dropWhile_nil]
    · have htake : (' ' :: u).takeWhile (fun c => !endsWord c) = [] :=
        List.takeWhile_cons_of_neg (by decide)
      have hdrop : (' ' :: u).dropWhile (fun c => !endsWord c) = ' ' :: u :=
        List.dropWhile_cons_of_neg (by decide)
      simp only [List.nil_append, htake, hdrop, List.append_nil]
      rfl
  | some p =>
    have hquoted : '"' :: p ++ ['"'] ++ rest = '"' :: (p ++ '"' :: rest) := by
      rw [List.append_assoc, List.cons_append, List.singleton_append]
    have htake : ('"' :: (p ++ '"' :: rest)).takeWhile (fun c => !endsWord c) = [] :=
      List.takeWhile_cons_of_neg (by decide)
    have hdrop : ('"' :: (p ++ '"' :: rest)).dropWhile (fun c => !endsWord c) =
        '"' :: (p ++ '"' :: rest) := List.dropWhile_cons_of_neg (by decide)
    simp only [hquoted, htake, hdrop, List.append_nil, closeQuote?_eq_cutAt?,
      Text.cutAt?_append_cons (h.phrase p hp), Option.map_some]

theorem IsReadable.first?_written_append (h : t.IsReadable) (hrest : Text.Led ' ' rest) :
    first? (t.written ++ rest) = some (t, rest) := by
  obtain ⟨c, u, hbody, hc, hhyphen⟩ := h.exists_body
  have hread := h.unsigned?_body_append hrest t.negated
  rw [first?_eq, written]
  cases hneg : t.negated with
  | true =>
    have hsigned : signed ('-' :: t.body ++ rest) = true := by
      rw [hbody]
      exact signed_cons hc _
    rw [hneg] at hread
    rw [if_pos rfl, hsigned, if_pos rfl, List.cons_append, List.drop_succ_cons, List.drop_zero,
      hread, ← hneg]
  | false =>
    have hsigned : signed (t.body ++ rest) = false := by
      rw [← Bool.not_eq_true]
      intro hsigned
      obtain ⟨x, v, heq, -⟩ := exists_of_signed hsigned
      rw [hbody, List.cons_append, List.cons.injEq] at heq
      exact h.unsigned hneg (hhyphen heq.1)
    rw [hneg] at hread
    rw [if_neg Bool.false_ne_true, hsigned, if_neg Bool.false_ne_true, hread, ← hneg]

theorem scanFrom_blank (n : Nat) (s : List Char) : scanFrom n (' ' :: s) = scanFrom n s := by
  cases n with
  | zero => rfl
  | succ n => rw [scanFrom, scanFrom, List.dropWhile_cons_of_pos (by decide)]

/-- The tokens are read one by one, each up to the blank in front of the next. -/
theorem scanFrom_lead_written (h : ∀ t ∈ ts, t.IsReadable) {n : Nat} (hn : ts.length ≤ n) :
    scanFrom n (Text.lead ' ' (ts.map written)) = .ok ts := by
  induction ts generalizing n with
  | nil =>
    cases n with
    | zero => rfl
    | succ n => rfl
  | cons t ts ih =>
    obtain ⟨ht, hts⟩ := List.forall_mem_cons.mp h
    obtain ⟨c, u, hwritten, hc⟩ := ht.exists_written
    obtain ⟨n, rfl⟩ : ∃ m, n = m + 1 := ⟨n - 1, by rw [List.length_cons] at hn; omega⟩
    have hdrop : (t.written ++ Text.lead ' ' (ts.map written)).dropWhile isBlank =
        t.written ++ Text.lead ' ' (ts.map written) := by
      rw [hwritten]
      exact List.dropWhile_cons_of_neg (by rw [hc]; exact Bool.false_ne_true)
    have hfirst := ht.first?_written_append (Text.led_lead ' ' (ts.map written))
    rw [List.map_cons, Text.lead_cons, List.cons_append, scanFrom_blank, scanFrom, hdrop]
    rw [hwritten] at hfirst ⊢
    simp only [List.cons_append] at hfirst ⊢
    rw [hfirst]
    exact congrArg (Except.map (t :: ·)) (ih hts (Nat.le_of_succ_le_succ hn))

theorem length_le_length_lead_written (h : ∀ t ∈ ts, t.IsReadable) :
    2 * ts.length ≤ (Text.lead ' ' (ts.map written)).length := by
  induction ts with
  | nil => exact Nat.le_refl 0
  | cons t ts ih =>
    obtain ⟨ht, hts⟩ := List.forall_mem_cons.mp h
    obtain ⟨c, u, hwritten, -⟩ := ht.exists_written
    have hrest := ih hts
    rw [List.map_cons, Text.lead_cons, hwritten]
    simp only [List.length_cons, List.length_append]
    omega

/-- The text of some tokens, without the blank in front of the first, is read as these. -/
theorem scan_of_lead_written (h : ∀ t ∈ ts, t.IsReadable)
    (hs : ' ' :: s = Text.lead ' ' (ts.map written)) : scan s = .ok ts := by
  have hlength := length_le_length_lead_written h
  have hscan := scanFrom_lead_written h (n := s.length)
  rw [← hs] at hlength hscan
  rw [scanFrom_blank] at hscan
  apply hscan
  cases ts with
  | nil => exact Nat.zero_le s.length
  | cons t ts =>
    simp only [List.length_cons] at hlength ⊢
    omega

end ResourceIndex.Query.Token
