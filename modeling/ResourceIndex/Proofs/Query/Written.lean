import ResourceIndex.Proofs.Query.Clauses
/-
Clauses and their texts. Every clause of the shape can be written down, whatever names are used for
the fields, and what is written is read as the same clauses in the same order.
-/
namespace ResourceIndex.Query

open Text (isBlank)

variable {nameOf : Field → String} {c : Clause} {cs : List Clause} {f : Field}

/-- How a value is written: phrases in quotes, kinds by their names. -/
def Value.written : Value → List Char
  | .term s | .wildcard s => s.toList
  | .phrase s => '"' :: s.toList ++ ['"']
  | .kind k => k.name.toList

/-- Whether a word that stands alone is taken for an operator, or its hyphen for a sign. -/
def Value.isMistakable : Value → Bool
  | .term s | .wildcard s => s.toList.head? == some '-' || ["NOT", "AND", "OR"].contains s
  | .phrase _ | .kind _ => false

/-- How a clause is written, given the names of fields. Words that would be mistaken are negated
twice. -/
def Clause.written (nameOf : Field → String) (c : Clause) : List Char :=
  let body := match c.field with
    | some f => (nameOf f).toList ++ ':' :: c.value.written
    | none => c.value.written
  match c.occur with
  | .mustNot => '-' :: body
  | .must => if c.field = none ∧ c.value.isMistakable = true then "NOT -".toList ++ body else body

/-- The text that asks for clauses, one after another. -/
def textOf (nameOf : Field → String) (cs : List Clause) : String :=
  String.ofList (Text.join [' '] (cs.map (Clause.written nameOf)))

theorem isAlpha_of_toLower {x : Char} (h : x.toLower.isAlpha = true) : x.isAlpha = true := by
  unfold Char.toLower at h
  split at h
  · rename_i hupper
    have hx : x.isUpper = true := decide_eq_true hupper
    change (x.isUpper || x.isLower) = true
    rw [hx, Bool.true_or]
  · exact h

/-- The names of fields are made of letters. -/
theorem isAlpha_of_ofName? {name : List Char} (h : Field.ofName? name = some f) :
    name ≠ [] ∧ ∀ x ∈ name, x.isAlpha = true := by
  have hknown : ∀ w ∈ ["name", "title", "content", "tag", "tags", "mime", "mimetype", "mediatype",
      "type"], w.toList ≠ [] ∧ w.toList.all Char.isAlpha = true := by decide
  have hmem : String.ofList (Text.lowerAscii name) ∈ ["name", "title", "content", "tag", "tags",
      "mime", "mimetype", "mediatype", "type"] := by
    by_contra hnone
    simp only [List.mem_cons, List.not_mem_nil, or_false, not_or] at hnone
    simp only [Field.ofName?, hnone, if_false, false_or, reduceCtorEq] at h
  obtain ⟨hne, halpha⟩ := hknown _ hmem
  rw [String.toList_ofList] at hne halpha
  constructor
  · rintro rfl
    exact hne rfl
  · intro x hx
    exact isAlpha_of_toLower (List.all_eq_true.mp halpha _ (List.mem_map_of_mem hx))

theorem endsWord_of_isAlpha {x : Char} (h : x.isAlpha = true) : Token.endsWord x = false := by
  have hrange : (65 ≤ x.toNat ∧ x.toNat ≤ 90) ∨ (97 ≤ x.toNat ∧ x.toNat ≤ 122) := by
    change (x.isUpper || x.isLower) = true at h
    rw [Bool.or_eq_true] at h
    rcases h with hupper | hlower
    · exact .inl (of_decide_eq_true hupper)
    · obtain ⟨hfirst, hlast⟩ := (Bool.and_eq_true _ _).mp hlower
      exact .inr ⟨of_decide_eq_true hfirst, of_decide_eq_true hlast⟩
  rw [endsWord_eq_false_iff]
  constructor
  · simp only [isBlank, Bool.or_eq_false_iff, Bool.and_eq_false_iff, decide_eq_false_iff_not,
      beq_eq_false_iff_ne]
    omega
  · rintro rfl
    revert hrange
    decide

/-- What names the field of a clause in front of its value. -/
def Clause.label (nameOf : Field → String) (c : Clause) : List Char :=
  match c.field with
  | some f => (nameOf f).toList ++ [':']
  | none => []

/-- The part of a value that is read as a word, which is nothing for a phrase. -/
def Value.word : Value → List Char
  | .term s | .wildcard s => s.toList
  | .phrase _ => []
  | .kind k => k.name.toList

def Value.phrase? : Value → Option (List Char)
  | .phrase s => some s.toList
  | .term _ | .wildcard _ | .kind _ => none

/-- The token of a clause, without the operator that may stand in front of it. -/
def Clause.token (nameOf : Field → String) (negated : Bool) (c : Clause) : Token :=
  ⟨negated, c.label nameOf ++ c.value.word, c.value.phrase?⟩

/-- A clause that is a word by itself and would be mistaken. -/
def Clause.IsMistakable (c : Clause) : Prop := c.field = none ∧ c.value.isMistakable = true

instance (c : Clause) : Decidable c.IsMistakable :=
  inferInstanceAs (Decidable (c.field = none ∧ c.value.isMistakable = true))

/-- The tokens of a clause. -/
def Clause.tokens (nameOf : Field → String) (c : Clause) : List Token :=
  match c.occur with
  | .mustNot => [c.token nameOf true]
  | .must =>
    if c.IsMistakable then [⟨false, "NOT".toList, none⟩, c.token nameOf true]
    else [c.token nameOf false]

theorem body_token (nameOf : Field → String) (negated : Bool) (c : Clause) :
    (c.token nameOf negated).body = c.label nameOf ++ c.value.written := by
  cases hv : c.value with
  | term s | wildcard s | kind k =>
    simp only [Token.body, Clause.token, hv, Value.word, Value.phrase?, Value.written,
      List.append_nil]
  | phrase s =>
    simp only [Token.body, Clause.token, hv, Value.word, Value.phrase?, Value.written,
      List.append_nil]

theorem written_eq (nameOf : Field → String) (c : Clause) :
    c.written nameOf = match c.occur with
      | .mustNot => '-' :: (c.label nameOf ++ c.value.written)
      | .must => if c.IsMistakable then "NOT -".toList ++ (c.label nameOf ++ c.value.written)
        else c.label nameOf ++ c.value.written := by
  have hbody : c.label nameOf ++ c.value.written = match c.field with
      | some f => (nameOf f).toList ++ ':' :: c.value.written
      | none => c.value.written := by
    unfold Clause.label
    cases c.field with
    | none => rfl
    | some f => rw [List.append_assoc, List.singleton_append]
  rw [hbody]
  rfl

/-- The text of a clause is the text of its tokens. -/
theorem lead_written (nameOf : Field → String) (cs : List Clause) :
    Text.lead ' ' (cs.map (Clause.written nameOf)) =
      Text.lead ' ' ((cs.flatMap (Clause.tokens nameOf)).map Token.written) := by
  have hone : ∀ c : Clause, ' ' :: c.written nameOf =
      Text.lead ' ' ((c.tokens nameOf).map Token.written) := by
    intro c
    have htrue : (c.token nameOf true).written =
        '-' :: (c.label nameOf ++ c.value.written) := by rw [← body_token]; rfl
    have hfalse : (c.token nameOf false).written =
        c.label nameOf ++ c.value.written := by rw [← body_token]; rfl
    rw [written_eq, Clause.tokens]
    cases c.occur with
    | mustNot => simp only [List.map_cons, List.map_nil, Text.lead_cons, Text.lead_nil, htrue,
        List.append_nil]
    | must =>
      simp only
      split
      · simp only [List.map_cons, List.map_nil, Text.lead_cons, Text.lead_nil, htrue,
          List.append_nil]
        rfl
      · simp only [List.map_cons, List.map_nil, Text.lead_cons, Text.lead_nil, hfalse,
          List.append_nil]
  induction cs with
  | nil => rfl
  | cons c cs ih =>
    rw [List.flatMap_cons, List.map_append, Text.lead_append, ← hone c, ← ih, List.map_cons,
      Text.lead_cons]

/-- The names stand for the fields that they are used for. -/
def Names (nameOf : Field → String) : Prop := ∀ f, Field.ofName? (nameOf f).toList = some f

theorem Names.label (hn : Names nameOf) (hf : c.field = some f) :
    c.label nameOf = (nameOf f).toList ++ [':'] ∧ (nameOf f).toList ≠ [] ∧
      ∀ x ∈ (nameOf f).toList, x.isAlpha = true := by
  rw [Clause.label, hf]
  exact ⟨rfl, isAlpha_of_ofName? (hn f)⟩

theorem endsWord_of_mem_label (hn : Names nameOf) :
    ∀ x ∈ c.label nameOf, Token.endsWord x = false := by
  intro x hx
  cases hf : c.field with
  | none =>
    rw [Clause.label, hf] at hx
    exact nomatch hx
  | some f =>
    obtain ⟨hlabel, -, halpha⟩ := hn.label hf
    rw [hlabel] at hx
    rcases List.mem_append.mp hx with hx | hx
    · exact endsWord_of_isAlpha (halpha x hx)
    · cases List.mem_singleton.mp hx
      decide

/-- What is read as the word of a value is a word. -/
theorem Clause.Expressible.word_value (h : c.Expressible) :
    (∀ x ∈ c.value.word, Token.endsWord x = false) ∧
      (c.value.phrase? = none → c.value.word ≠ []) := by
  cases hv : c.value with
  | term s =>
    obtain ⟨hne, hplain⟩ := h.word s (.inl hv)
    exact ⟨fun x hx => endsWord_eq_false_iff.mpr (hplain x hx), fun _ => hne⟩
  | wildcard s =>
    obtain ⟨hne, hplain⟩ := h.word s (.inr hv)
    exact ⟨fun x hx => endsWord_eq_false_iff.mpr (hplain x hx), fun _ => hne⟩
  | phrase s => exact ⟨fun x hx => absurd hx List.not_mem_nil, fun hnone => nomatch hnone⟩
  | kind k =>
    have hname : k.name.toList.all Char.isAlpha = true ∧ k.name.toList ≠ [] := by
      cases k with
      | file | container | symlink | reference => decide
    exact ⟨fun x hx => endsWord_of_isAlpha (List.all_eq_true.mp hname.1 x hx), fun _ => hname.2⟩

theorem Clause.Expressible.isRead_token (h : c.Expressible) (hn : Names nameOf) (negated : Bool) :
    (c.token nameOf negated).IsRead := by
  obtain ⟨hword, hne⟩ := h.word_value
  constructor
  case word => exact List.forall_mem_append.mpr ⟨endsWord_of_mem_label hn, hword⟩
  case phrase =>
    intro p hp
    change c.value.phrase? = some p at hp
    cases hv : c.value with
    | phrase s =>
      rw [hv] at hp
      cases hp
      exact (h.phrase s hv).1
    | term s | wildcard s | kind k =>
      rw [hv] at hp
      cases hp
  case ne_nil => exact fun hnone => List.append_ne_nil_of_right_ne_nil _ (hne hnone)

/-- No hyphen stands in front, unless the clause is a word that begins with one. -/
theorem head?_token_ne (hn : Names nameOf) (h : ¬ c.IsMistakable) :
    (c.label nameOf ++ c.value.word).head? ≠ some '-' := by
  cases hf : c.field with
  | some f =>
    obtain ⟨hlabel, hne, halpha⟩ := hn.label hf
    obtain ⟨x, name, hname⟩ := List.exists_cons_of_ne_nil hne
    rw [hlabel, hname]
    intro hhead
    cases hhead
    exact absurd (halpha '-' (hname ▸ List.mem_cons_self)) (by decide)
  | none =>
    have hplain : c.value.isMistakable = false := by
      rw [← Bool.not_eq_true]
      exact fun hmistakable => h ⟨hf, hmistakable⟩
    rw [Clause.label, hf]
    cases hv : c.value with
    | term s | wildcard s =>
      rw [hv, Value.isMistakable, Bool.or_eq_false_iff, beq_eq_false_iff_ne] at hplain
      exact hplain.1
    | phrase s => exact fun hhead => nomatch hhead
    | kind k =>
      change k.name.toList.head? ≠ some '-'
      cases k with
      | file | container | symlink | reference => decide

theorem Clause.Expressible.isReadable_tokens (h : c.Expressible) (hn : Names nameOf) :
    ∀ t ∈ c.tokens nameOf, t.IsReadable := by
  have htrue : (c.token nameOf true).IsReadable :=
    { toIsRead := h.isRead_token hn true, unsigned := fun hfalse => nomatch hfalse }
  have halpha : "NOT".toList.all Char.isAlpha = true := by decide
  have hnot : (⟨false, "NOT".toList, none⟩ : Token).IsReadable :=
    { word := fun x hx => endsWord_of_isAlpha (List.all_eq_true.mp halpha x hx)
      phrase := fun p hp => nomatch hp
      ne_nil := fun _ => by decide
      unsigned := fun _ => by decide }
  rw [tokens]
  cases c.occur with
  | mustNot => exact List.forall_mem_singleton.mpr htrue
  | must =>
    simp only
    split
    · exact List.forall_mem_cons.mpr ⟨hnot, List.forall_mem_singleton.mpr htrue⟩
    · rename_i hplain
      exact List.forall_mem_singleton.mpr
        { toIsRead := h.isRead_token hn false, unsigned := fun _ => head?_token_ne hn hplain }

/-- A value is found again in its text. -/
theorem Clause.Expressible.valueOf_eq (h : c.Expressible) :
    valueOf c.field (c.value.phrase?.getD c.value.word) c.value.phrase?.isSome = .ok c.value := by
  have hfield : (∀ k, c.value ≠ .kind k) → c.field ≠ some .kind := by
    intro hno hkind
    obtain ⟨k, hk⟩ := h.kind_iff.mp hkind
    exact hno k hk
  cases hv : c.value with
  | kind k =>
    rw [h.kind_iff.mpr ⟨k, hv⟩]
    rcases h.kind k hv with rfl | rfl
    · rfl
    · rfl
  | phrase s =>
    refine (valueOf_phrase (hfield ?_) s.toList).trans ?_
    · rintro k hk
      rw [hv] at hk
      cases hk
    · rw [String.ofList_toList]
  | term s =>
    refine (valueOf_word (hfield ?_) s.toList).trans ?_
    · rintro k hk
      rw [hv] at hk
      cases hk
    · have hplain : (takesPatterns c.field && isPattern s.toList) = false := by
        rw [← Bool.not_eq_true, Bool.and_eq_true, isPattern_iff]
        rintro ⟨htakes, x, hx, hmark⟩
        exact not_or.mpr (h.term s hv htakes x hx) hmark
      rw [hplain, String.ofList_toList]
      rfl
  | wildcard s =>
    refine (valueOf_word (hfield ?_) s.toList).trans ?_
    · rintro k hk
      rw [hv] at hk
      cases hk
    · obtain ⟨htakes, hmark⟩ := h.wildcard s hv
      rw [htakes, isPattern_iff.mpr hmark, String.ofList_toList]
      rfl

theorem Names.lookupField (hn : Names nameOf) (f : Field) :
    lookupField (nameOf f).toList = .ok f := by
  rw [Query.lookupField, hn f]

theorem Names.quotedField_label (hn : Names nameOf) (c : Clause) :
    quotedField (c.label nameOf) = .ok c.field := by
  cases hf : c.field with
  | none =>
    rw [Clause.label, hf]
    rfl
  | some f =>
    rw [(hn.label hf).1, quotedField, List.getLast?_concat, List.dropLast_concat, hn.lookupField f]
    rfl

theorem Names.splitField?_label (hn : Names nameOf) (hf : c.field = some f) (value : List Char) :
    splitField? (c.label nameOf ++ value) = some ((nameOf f).toList, value) := by
  obtain ⟨hlabel, hname⟩ := hn.label hf
  rw [hlabel, List.append_assoc, List.singleton_append]
  exact splitField?_eq_some_iff.mpr ⟨rfl, hname⟩

/-- A value that is not quoted and stands alone names no field. -/
theorem Clause.Expressible.splitField?_word (h : c.Expressible) (hf : c.field = none)
    (hp : c.value.phrase? = none) : splitField? c.value.word = none := by
  rw [splitField?_eq_none_iff]
  cases hv : c.value with
  | term s => exact h.unnamed s (.inl hv) hf
  | wildcard s => exact h.unnamed s (.inr hv) hf
  | phrase s =>
    rw [hv] at hp
    cases hp
  | kind k =>
    have hkind := h.kind_iff.mpr ⟨k, hv⟩
    rw [hf] at hkind
    cases hkind

/-- The token of a clause is taken for a clause with the same field and value. -/
theorem Clause.Expressible.clause_token (h : c.Expressible) (hn : Names nameOf) (negated : Bool)
    (occur : Occur) : (c.token nameOf negated).clause occur = .ok ⟨occur, c.field, c.value⟩ := by
  have hvalue := h.valueOf_eq
  cases hp : c.value.phrase? with
  | some p =>
    rw [hp, Option.getD_some, Option.isSome_some] at hvalue
    cases hv : c.value with
    | phrase s =>
      rw [hv] at hp hvalue
      cases hp
      have hblank : Text.trim s.toList ≠ [] := trim_ne_nil_iff.mpr (h.phrase s hv).2
      have hword : (c.token nameOf negated).word = c.label nameOf := by
        rw [token, hv]
        exact List.append_nil _
      have hphrase : (c.token nameOf negated).phrase = some s.toList := by
        rw [token, hv]
        rfl
      rw [Token.clause_of_phrase hphrase, hword, hn.quotedField_label c]
      refine (if_neg hblank).trans ?_
      rw [hvalue]
      rfl
    | term s | wildcard s | kind k =>
      rw [hv] at hp
      cases hp
  | none =>
    rw [hp, Option.getD_none, Option.isSome_none] at hvalue
    have hword : (c.token nameOf negated).word = c.label nameOf ++ c.value.word := rfl
    rw [Token.clause_of_word (t := c.token nameOf negated) hp, hword]
    cases hf : c.field with
    | none =>
      have hlabel : c.label nameOf = [] := by rw [label, hf]
      rw [hf] at hvalue
      rw [hlabel, List.nil_append, h.splitField?_word hf hp]
      simp only [hvalue]
      rfl
    | some f =>
      rw [hf] at hvalue
      rw [hn.splitField?_label hf]
      simp only [hn.lookupField f]
      refine (if_neg (h.word_value.2 hp)).trans ?_
      rw [hvalue]
      rfl

/-- No token of a clause is an operator. -/
theorem isOperator_token (hn : Names nameOf) (h : ¬ c.IsMistakable) {w : String}
    (hw : w ∈ ["NOT", "AND", "OR"]) : (c.token nameOf false).isOperator w = false := by
  rw [← Bool.not_eq_true]
  intro hoperator
  simp only [Token.isOperator, Clause.token, Bool.and_eq_true, beq_iff_eq] at hoperator
  obtain ⟨⟨hphrase, -⟩, hword⟩ := hoperator
  cases hf : c.field with
  | some f =>
    have hcolon : ∀ w ∈ ["NOT", "AND", "OR"], ':' ∉ w.toList := by decide
    refine hcolon w hw ?_
    rw [← hword, (hn.label hf).1]
    exact List.mem_append_left _ (List.mem_append_right _ List.mem_cons_self)
  | none =>
    rw [Clause.label, hf, List.nil_append] at hword
    cases hv : c.value with
    | term s | wildcard s =>
      rw [hv] at hword
      cases String.toList_inj.mp hword
      refine h ⟨hf, ?_⟩
      rw [hv, Value.isMistakable, List.contains_iff_mem.mpr hw, Bool.or_true]
    | phrase s =>
      rw [hv] at hphrase
      cases hphrase
    | kind k =>
      have hname : ∀ k : ResourceKind, k.name ∉ ["NOT", "AND", "OR"] := by
        intro k
        cases k with
        | file | container | symlink | reference => decide
      rw [hv] at hword
      cases String.toList_inj.mp hword
      exact hname k hw

theorem clausesOf_cons {t : Token} (h : ∀ w ∈ ["NOT", "AND", "OR"], t.isOperator w = false)
    (pending : Bool) (ts : List Token) : clausesOf pending (t :: ts) = (do
      let clause ← t.clause (if t.negated != pending then .mustNot else .must)
      return clause :: (← clausesOf false ts)) := by
  rw [clausesOf, h "NOT" (by decide), h "AND" (by decide), h "OR" (by decide)]
  rfl

theorem isOperator_of_negated {t : Token} (h : t.negated = true) (w : String) :
    t.isOperator w = false := by
  rw [Token.isOperator, h, Bool.not_true, Bool.and_false, Bool.false_and]

/-- The tokens of a clause give the clause, whatever comes behind them. -/
theorem Clause.Expressible.clausesOf_tokens (h : c.Expressible) (hn : Names nameOf)
    (ts : List Token) : clausesOf false (c.tokens nameOf ++ ts) = (do
      let cs ← clausesOf false ts
      return c :: cs) := by
  have hnegated : ∀ pending, clausesOf pending (c.token nameOf true :: ts) = (do
      let cs ← clausesOf false ts
      return ⟨if true != pending then .mustNot else .must, c.field, c.value⟩ :: cs) := by
    intro pending
    rw [clausesOf_cons fun w _ => isOperator_of_negated rfl w, h.clause_token hn]
    rfl
  rw [tokens]
  cases hoccur : c.occur with
  | mustNot =>
    rw [List.singleton_append, hnegated false]
    simp only [Bool.true_bne, Bool.not_false, if_true, ← hoccur]
  | must =>
    simp only
    split
    · have hnot : clausesOf false (⟨false, "NOT".toList, none⟩ :: c.token nameOf true :: ts) =
          clausesOf true (c.token nameOf true :: ts) := rfl
      rw [List.cons_append, List.singleton_append, hnot, hnegated true]
      simp only [Bool.true_bne, Bool.not_true, Bool.false_eq_true, if_false, ← hoccur]
    · rename_i hplain
      rw [List.singleton_append, clausesOf_cons fun w hw => isOperator_token hn hplain hw,
        h.clause_token hn]
      change (do
        let cs ← clausesOf false ts
        return (⟨.must, c.field, c.value⟩ : Clause) :: cs : Except Fault (List Clause)) = _
      rw [← hoccur]

theorem clausesOf_flatMap_tokens (h : ∀ c ∈ cs, c.Expressible) (hn : Names nameOf) :
    clausesOf false (cs.flatMap (Clause.tokens nameOf)) = .ok cs := by
  induction cs with
  | nil => rfl
  | cons c cs ih =>
    obtain ⟨hc, hcs⟩ := List.forall_mem_cons.mp h
    rw [List.flatMap_cons, hc.clausesOf_tokens hn, ih hcs]
    rfl

theorem parse_textOf (h : ∀ c ∈ cs, c.Expressible) (hn : Names nameOf) :
    parse (textOf nameOf cs) = .ok ⟨cs⟩ := by
  have hscan : Token.scan (textOf nameOf cs).toList = .ok (cs.flatMap (Clause.tokens nameOf)) := by
    rw [textOf, String.toList_ofList]
    cases cs with
    | nil => rfl
    | cons c cs =>
      apply Token.scan_of_lead_written
      · intro t ht
        obtain ⟨d, hd, htoken⟩ := List.mem_flatMap.mp ht
        exact (h d hd).isReadable_tokens hn t htoken
      · rw [← lead_written, List.map_cons, Text.lead_eq_join]
  rw [parse, hscan]
  change (do return ⟨← clausesOf false (cs.flatMap (Clause.tokens nameOf))⟩ :
    Except Fault Query) = _
  rw [clausesOf_flatMap_tokens h hn]
  rfl

/-- What texts can ask for are the lists of clauses of the shape, and each of them is what its own
text asks for. -/
theorem parsed_iff_expressible :
    (∀ text q, parse text = .ok q → ∀ c ∈ q.clauses, c.Expressible) ∧
      ∀ nameOf : Field → String, (∀ f, Field.ofName? (nameOf f).toList = some f) →
        ∀ cs : List Clause, (∀ c ∈ cs, c.Expressible) → parse (textOf nameOf cs) = .ok ⟨cs⟩ :=
  ⟨fun _ _ h => expressible_of_parse h, fun _ hn _ h => parse_textOf h hn⟩

theorem mistakable_words_parsed :
    let nameOf : Field → String
      | .name => "name"
      | .title => "title"
      | .content => "content"
      | .tags => "tag"
      | .mimeType => "mime"
      | .kind => "type"
    let cs : List Clause := [⟨.must, none, .term "NOT"⟩, ⟨.must, none, .wildcard "-x*"⟩,
      ⟨.mustNot, some .name, .wildcard "-*.pdf"⟩, ⟨.must, some .title, .phrase "a OR -b"⟩,
      ⟨.mustNot, none, .term "OR"⟩, ⟨.must, some .kind, .kind .container⟩,
      ⟨.must, some .content, .term "NOT?"⟩]
    textOf nameOf cs = "NOT -NOT NOT --x* -name:-*.pdf title:\"a OR -b\" -OR type:container " ++
      "content:NOT?" ∧ parse (textOf nameOf cs) = .ok ⟨cs⟩ := by
  intro nameOf cs
  have htext : parse ("and* NOT -NOT AND NOT --x* -name:-*.pdf title:\"a OR -b\" -OR " ++
      "type:FOLDER content:NOT?") = .ok ⟨⟨.must, none, .wildcard "and*"⟩ :: cs⟩ := rfl
  have hname : ∀ f, Field.ofName? (nameOf f).toList = some f := by
    intro f
    cases f with
    | name | title | content | tags | mimeType | kind => decide
  refine ⟨by decide, parsed_iff_expressible.2 nameOf hname cs ?_⟩
  intro c hc
  exact parsed_iff_expressible.1 _ _ htext c (List.mem_cons_of_mem _ hc)

end ResourceIndex.Query
