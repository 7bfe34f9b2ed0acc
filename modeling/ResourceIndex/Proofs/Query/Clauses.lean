import ResourceIndex.Proofs.Query.Tokens
import ResourceIndex.Query.Parser
/-
The clauses of parsed queries. Each comes from one token of the text; what its field and its value
can be is told here without the text. Both backends rely on it when they take a clause apart.
-/
namespace ResourceIndex.Query

open Text (isBlank)

variable {field : Option Field} {text : List Char} {quoted : Bool} {v : Value} {c : Clause}

theorem exists_ok_of_bind {ε α β : Type} {x : Except ε α} {f : α → Except ε β} {b : β}
    (h : x >>= f = .ok b) : ∃ a, x = .ok a ∧ f a = .ok b := by
  cases x with
  | error e => cases h
  | ok a => exact ⟨a, rfl, h⟩

/-- Letters with a colon behind them stand at the start of the text. -/
def NamesField (text : List Char) : Prop :=
  ∃ name value, text = name ++ ':' :: value ∧ name ≠ [] ∧ ∀ c ∈ name, c.isAlpha = true

theorem splitField?_eq_some_iff {name value : List Char} :
    splitField? text = some (name, value) ↔
      text = name ++ ':' :: value ∧ name ≠ [] ∧ ∀ c ∈ name, c.isAlpha = true := by
  rw [splitField?]
  constructor
  · intro h
    split at h
    · rename_i n w hcut
      split at h
      · rename_i hname
        cases h
        rw [Bool.and_eq_true, Bool.not_eq_true', List.isEmpty_eq_false_iff,
          List.all_eq_true] at hname
        exact ⟨(Text.notMem_of_cutAt? hcut).2, hname⟩
      · cases h
    · cases h
  · rintro ⟨rfl, hne, halpha⟩
    have hcolon : ':' ∉ name := fun hm => absurd (halpha ':' hm) (by decide)
    have hname : (!name.isEmpty && name.all Char.isAlpha) = true := by
      rw [Bool.and_eq_true, Bool.not_eq_true', List.isEmpty_eq_false_iff, List.all_eq_true]
      exact ⟨hne, halpha⟩
    simp only [Text.cutAt?_append_cons hcolon, hname, if_true]

theorem splitField?_eq_none_iff : splitField? text = none ↔ ¬ NamesField text := by
  rw [Option.eq_none_iff_forall_not_mem]
  constructor
  · rintro h ⟨name, value, hsplit⟩
    exact h (name, value) (splitField?_eq_some_iff.mpr hsplit)
  · rintro h ⟨name, value⟩ hsplit
    exact h ⟨name, value, splitField?_eq_some_iff.mp hsplit⟩

/-- Whether wildcards have their meaning in the field, or without one. -/
def takesPatterns (field : Option Field) : Bool := field.all Field.isKeyword

theorem valueOf_kind (text : List Char) (quoted : Bool) :
    valueOf (some .kind) text quoted =
      match ResourceKind.ofQueryValue? (Text.trim text) with
      | some k => .ok (.kind k)
      | none => .error (.unknownKind (String.ofList text)) := rfl

theorem valueOf_phrase (h : field ≠ some .kind) (text : List Char) :
    valueOf field text true = .ok (.phrase (String.ofList text)) := by
  unfold valueOf
  split
  · exact absurd rfl h
  · rfl

theorem valueOf_word (h : field ≠ some .kind) (text : List Char) :
    valueOf field text false = .ok (if takesPatterns field && isPattern text
      then .wildcard (String.ofList text) else .term (String.ofList text)) := by
  cases field with
  | none => rfl
  | some f =>
    cases f with
    | name | tags | mimeType => rfl
    | title | content => rfl
    | kind => exact absurd rfl h

theorem ofQueryValue?_eq_some {k : ResourceKind} (h : ResourceKind.ofQueryValue? text = some k) :
    k = .file ∨ k = .container := by
  unfold ResourceKind.ofQueryValue? at h
  simp only at h
  split at h
  · cases h
    exact .inl rfl
  · split at h
    · cases h
      exact .inr rfl
    · cases h

/-- The shape of the clauses that some text asks for. -/
structure Clause.Expressible (c : Clause) : Prop where
  kind_iff : c.field = some .kind ↔ ∃ k, c.value = .kind k
  kind : ∀ k, c.value = .kind k → k = .file ∨ k = .container
  phrase : ∀ s, c.value = .phrase s → '"' ∉ s.toList ∧ ∃ x ∈ s.toList, isBlank x = false
  /-- Words and patterns are not empty, and neither blanks nor quotes are in them. -/
  word : ∀ s, c.value = .term s ∨ c.value = .wildcard s →
    s.toList ≠ [] ∧ ∀ x ∈ s.toList, isBlank x = false ∧ x ≠ '"'
  wildcard : ∀ s, c.value = .wildcard s → takesPatterns c.field = true ∧
    ∃ x ∈ s.toList, x = '*' ∨ x = '?'
  term : ∀ s, c.value = .term s → takesPatterns c.field = true →
    ∀ x ∈ s.toList, x ≠ '*' ∧ x ≠ '?'
  unnamed : ∀ s, c.value = .term s ∨ c.value = .wildcard s → c.field = none →
    ¬ NamesField s.toList

/-- No line feed can be asked for by a word or a pattern. -/
theorem Clause.Expressible.notMem_line_feed (h : c.Expressible) {s : String}
    (hv : c.value = .term s ∨ c.value = .wildcard s) : '\n' ∉ s.toList :=
  fun hline => absurd ((h.word s hv).2 '\n' hline).1 (by decide)

theorem isPattern_iff : isPattern text = true ↔ ∃ x ∈ text, x = '*' ∨ x = '?' := by
  simp only [isPattern, List.any_eq_true, Bool.or_eq_true, beq_iff_eq]

theorem trim_eq_nil_iff : Text.trim text = [] ↔ ∀ x ∈ text, isBlank x = true := by
  rw [Text.trim, Text.trimStart, Text.trimEnd, List.reverse_eq_nil_iff, List.dropWhile_eq_nil_iff]
  constructor
  · intro h
    rw [← List.dropWhile_eq_nil_iff]
    cases hdrop : text.dropWhile isBlank with
    | nil => rfl
    | cons x u =>
      have hx : isBlank x = true :=
        h x (by rw [hdrop]; exact List.mem_reverse.mpr List.mem_cons_self)
      rw [Text.eq_false_of_dropWhile hdrop] at hx
      cases hx
  · intro h x hx
    rw [List.dropWhile_eq_nil_iff.mpr h] at hx
    exact absurd hx List.not_mem_nil

theorem trim_ne_nil_iff : Text.trim text ≠ [] ↔ ∃ x ∈ text, isBlank x = false := by
  simp only [ne_eq, trim_eq_nil_iff, not_forall, exists_prop, Bool.not_eq_true]

theorem endsWord_eq_false_iff {x : Char} :
    Token.endsWord x = false ↔ isBlank x = false ∧ x ≠ '"' := by
  rw [Token.endsWord, Bool.or_eq_false_iff, beq_eq_false_iff_ne]

theorem expressible_of_kind (occur : Occur) {k : ResourceKind} (hk : k = .file ∨ k = .container) :
    (⟨occur, some .kind, .kind k⟩ : Clause).Expressible where
  kind_iff := iff_of_true rfl ⟨k, rfl⟩
  kind := by
    rintro _ ⟨⟩
    exact hk
  phrase := by rintro s ⟨⟩
  word := by rintro s (⟨⟨⟩⟩ | ⟨⟨⟩⟩)
  wildcard := by rintro s ⟨⟩
  term := by rintro s ⟨⟩
  unnamed := by rintro s (⟨⟨⟩⟩ | ⟨⟨⟩⟩)

theorem expressible_of_phrase (occur : Occur) (hfield : field ≠ some .kind) {s : String}
    (hquote : '"' ∉ s.toList) (hblank : ∃ x ∈ s.toList, isBlank x = false) :
    (⟨occur, field, .phrase s⟩ : Clause).Expressible where
  kind_iff := iff_of_false hfield (by rintro ⟨k, ⟨⟩⟩)
  kind := by rintro k ⟨⟩
  phrase := by
    rintro _ ⟨⟩
    exact ⟨hquote, hblank⟩
  word := by rintro s (⟨⟨⟩⟩ | ⟨⟨⟩⟩)
  wildcard := by rintro s ⟨⟩
  term := by rintro s ⟨⟩
  unnamed := by rintro s (⟨⟨⟩⟩ | ⟨⟨⟩⟩)

theorem expressible_of_word (occur : Occur) (hfield : field ≠ some .kind) (hne : text ≠ [])
    (hplain : ∀ x ∈ text, Token.endsWord x = false)
    (hunnamed : field = none → ¬ NamesField text) :
    (⟨occur, field, if takesPatterns field && isPattern text then .wildcard (String.ofList text)
      else .term (String.ofList text)⟩ : Clause).Expressible := by
  have hword : (String.ofList text).toList ≠ [] ∧
      ∀ x ∈ (String.ofList text).toList, isBlank x = false ∧ x ≠ '"' := by
    rw [String.toList_ofList]
    exact ⟨hne, fun x hx => endsWord_eq_false_iff.mp (hplain x hx)⟩
  have hfree : field = none → ¬ NamesField (String.ofList text).toList := by
    rwa [String.toList_ofList]
  split
  · rename_i hpattern
    rw [Bool.and_eq_true, isPattern_iff] at hpattern
    constructor
    case kind_iff => exact iff_of_false hfield (by rintro ⟨k, ⟨⟩⟩)
    case kind => rintro k ⟨⟩
    case phrase => rintro s ⟨⟩
    case word =>
      rintro s (⟨⟨⟩⟩ | ⟨⟨⟩⟩)
      exact hword
    case wildcard =>
      rintro s ⟨⟩
      rwa [String.toList_ofList]
    case term => rintro s ⟨⟩
    case unnamed =>
      rintro s (⟨⟨⟩⟩ | ⟨⟨⟩⟩)
      exact hfree
  · rename_i hpattern
    rw [Bool.and_eq_true, isPattern_iff, not_and] at hpattern
    constructor
    case kind_iff => exact iff_of_false hfield (by rintro ⟨k, ⟨⟩⟩)
    case kind => rintro k ⟨⟩
    case phrase => rintro s ⟨⟩
    case word =>
      rintro s (⟨⟨⟩⟩ | ⟨⟨⟩⟩)
      exact hword
    case wildcard => rintro s ⟨⟩
    case term =>
      rintro s ⟨⟩ htakes x hx
      rw [String.toList_ofList] at hx
      exact not_or.mp fun hmark => hpattern htakes ⟨x, hx, hmark⟩
    case unnamed =>
      rintro s (⟨⟨⟩⟩ | ⟨⟨⟩⟩)
      exact hfree

/-- One case for each way of finding a value in a text. -/
theorem expressible_of_valueOf (occur : Occur) (h : valueOf field text quoted = .ok v)
    (hquoted : quoted = true → '"' ∉ text ∧ ∃ x ∈ text, isBlank x = false)
    (hword : quoted = false → text ≠ [] ∧ (∀ x ∈ text, Token.endsWord x = false) ∧
      (field = none → ¬ NamesField text)) : (⟨occur, field, v⟩ : Clause).Expressible := by
  by_cases hfield : field = some .kind
  · subst hfield
    rw [valueOf_kind] at h
    split at h
    · rename_i k hk
      cases h
      exact expressible_of_kind occur (ofQueryValue?_eq_some hk)
    · cases h
  · cases quoted with
    | true =>
      rw [valueOf_phrase hfield] at h
      cases h
      obtain ⟨hquote, hblank⟩ := hquoted rfl
      exact expressible_of_phrase occur hfield (by rwa [String.toList_ofList])
        (by rwa [String.toList_ofList])
    | false =>
      rw [valueOf_word hfield] at h
      cases h
      obtain ⟨hne, hplain, hunnamed⟩ := hword rfl
      exact expressible_of_word occur hfield hne hplain hunnamed

theorem Token.clause_of_phrase {t : Token} {p : List Char} (h : t.phrase = some p)
    (occur : Occur) : t.clause occur = (do
      let field ← quotedField t.word
      if Text.trim p = [] then throw .emptyPhrase
      return ⟨occur, field, ← valueOf field p true⟩) := by
  rw [clause, h]

theorem Token.clause_of_word {t : Token} (h : t.phrase = none) (occur : Occur) :
    t.clause occur = match splitField? t.word with
      | some (name, value) => do
        let field ← lookupField name
        if value = [] then throw (.missingValue (String.ofList name))
        return ⟨occur, some field, ← valueOf (some field) value false⟩
      | none => do return ⟨occur, none, ← valueOf none t.word false⟩ := by
  obtain ⟨negated, word, phrase⟩ := t
  obtain rfl : phrase = none := h
  rfl

/-- A clause that is made from a token is of the shape. -/
theorem Token.IsRead.expressible {t : Token} (ht : t.IsRead) {occur : Occur}
    (h : t.clause occur = .ok c) : c.Expressible := by
  cases hp : t.phrase with
  | some p =>
    rw [clause_of_phrase hp] at h
    obtain ⟨field, -, h⟩ := exists_ok_of_bind h
    split at h
    · cases h
    · rename_i hblank
      obtain ⟨v, hv, h⟩ := exists_ok_of_bind h
      cases h
      refine expressible_of_valueOf occur hv (fun _ => ?_) fun hfalse => nomatch hfalse
      exact ⟨ht.phrase p hp, trim_ne_nil_iff.mp hblank⟩
  | none =>
    rw [clause_of_word hp] at h
    split at h
    · rename_i name value hsplit
      obtain ⟨hword, -, -⟩ := splitField?_eq_some_iff.mp hsplit
      obtain ⟨field, -, h⟩ := exists_ok_of_bind h
      split at h
      · cases h
      · rename_i hne
        obtain ⟨v, hv, h⟩ := exists_ok_of_bind h
        cases h
        refine expressible_of_valueOf occur hv (fun hfalse => nomatch hfalse) fun _ => ?_
        refine ⟨hne, fun x hx => ht.word x ?_, fun hnone => nomatch hnone⟩
        rw [hword]
        exact List.mem_append_right name (List.mem_cons_of_mem ':' hx)
    · rename_i hsplit
      obtain ⟨v, hv, h⟩ := exists_ok_of_bind h
      cases h
      refine expressible_of_valueOf occur hv (fun hfalse => nomatch hfalse) fun _ => ?_
      exact ⟨ht.ne_nil hp, ht.word, fun _ => splitField?_eq_none_iff.mp hsplit⟩

/-- Every clause comes from one of the tokens. -/
theorem exists_token_of_clausesOf {ts : List Token} {pending : Bool} {cs : List Clause}
    (h : clausesOf pending ts = .ok cs) : ∀ c ∈ cs, ∃ t ∈ ts, ∃ occur, t.clause occur = .ok c := by
  induction ts generalizing pending cs with
  | nil =>
    rw [clausesOf] at h
    split at h
    · cases h
    · cases h
      exact fun c hc => nomatch hc
  | cons t ts ih =>
    have hrest : ∀ {pending cs}, clausesOf pending ts = .ok cs →
        ∀ c ∈ cs, ∃ u ∈ t :: ts, ∃ occur, u.clause occur = .ok c := by
      intro pending cs h c hc
      obtain ⟨u, hu, hclause⟩ := ih h c hc
      exact ⟨u, List.mem_cons_of_mem t hu, hclause⟩
    rw [clausesOf] at h
    split at h
    · exact hrest h
    · split at h
      · exact hrest h
      · split at h
        · cases h
        · obtain ⟨c, hclause, h⟩ := exists_ok_of_bind h
          obtain ⟨cs, hcs, h⟩ := exists_ok_of_bind h
          cases h
          exact List.forall_mem_cons.mpr ⟨⟨t, List.mem_cons_self, _, hclause⟩, hrest hcs⟩

/-- What a text asks for is of the shape, clause by clause. -/
theorem expressible_of_parse {text : String} {q : Query} (h : parse text = .ok q) :
    ∀ c ∈ q.clauses, c.Expressible := by
  obtain ⟨ts, hscan, h⟩ := exists_ok_of_bind h
  obtain ⟨cs, hcs, h⟩ := exists_ok_of_bind h
  cases h
  intro c hc
  obtain ⟨t, ht, occur, hclause⟩ := exists_token_of_clausesOf hcs c hc
  exact (Token.isRead_of_scanFrom hscan t ht).expressible hclause

end ResourceIndex.Query
