import Mathlib.Data.List.Forall2
import ResourceIndex.Proofs.Json.Members
import ResourceIndex.Proofs.Toml.Scalar
/-
Documents in their written form. Line by line, a table is opened and filled again, so that a
document that was written is read as the tables it was written from.
-/
namespace ResourceIndex.Toml

open Json (Members)
open Text (join)

variable {c : Char} {r t : List Char} {name key : String} {v : Scalar} {x : Statement}
  {xs : List Statement} {b : Block} {blocks : List Block}

/-- A name that stands in a document without quotes. -/
def IsBare (name : String) : Prop := name.toList ≠ [] ∧ name.toList.all isBareKeyChar = true

instance : DecidablePred IsBare := fun _ => inferInstanceAs (Decidable (_ ∧ _))

/-- A table whose names need no quotes and are all different. -/
structure Block.IsRegular (b : Block) : Prop where
  name : IsBare b.name
  keys : ∀ e ∈ b.entries, IsBare e.1
  unique : (b.entries.map (·.1)).Nodup

theorem IsBare.exists_cons (h : IsBare name) :
    ∃ c s, name.toList = c :: s ∧ isBareKeyChar c = true := by
  obtain ⟨c, s, hs⟩ := List.exists_cons_of_ne_nil h.left
  exact ⟨c, s, hs, List.all_eq_true.mp h.right c (hs ▸ List.mem_cons_self)⟩

theorem IsBare.head_ne (h : IsBare name) (hc : isBareKeyChar c = false) (r u : List Char) :
    name.toList ++ r ≠ c :: u := by
  obtain ⟨x, s, hs, hx⟩ := h.exists_cons
  rw [hs]
  rintro ⟨⟩
  rw [hx] at hc
  cases hc

theorem simpleKey?_bare (h : IsBare name) (hc : isBareKeyChar c = false) (r : List Char) :
    simpleKey? (name.toList ++ c :: r) = some (name, c :: r) := by
  have hkey : (name.toList ++ c :: r).takeWhile isBareKeyChar = name.toList := by
    rw [List.takeWhile_append_of_pos (List.all_eq_true.mp h.right),
      List.takeWhile_cons_of_neg (by rw [hc]; exact Bool.false_ne_true), List.append_nil]
  have hsome : name.toList.isEmpty = false := List.isEmpty_eq_false_iff.mpr h.left
  rw [simpleKey?]
  · simp only [hkey, hsome, Bool.false_eq_true, if_false, List.drop_left, String.ofList_toList]
  · exact h.head_ne (by decide) _
  · exact h.head_ne (by decide) _

theorem skipSpace_of_head (hc : isSpace c = false) (r : List Char) :
    skipSpace (c :: r) = c :: r :=
  List.dropWhile_cons_of_neg (by rw [hc]; exact Bool.false_ne_true)

/-- A character of a kind to which no blank belongs. -/
theorem isSpace_of_kind {kind : Char → Bool} (hc : kind c = true) (hblank : kind ' ' = false)
    (htab : kind '\t' = false) : isSpace c = false := by
  rw [isSpace, Bool.or_eq_false_iff, decide_eq_false_iff_not, decide_eq_false_iff_not]
  constructor
  · rintro rfl
    exact Bool.false_ne_true (hblank.symm.trans hc)
  · rintro rfl
    exact Bool.false_ne_true (htab.symm.trans hc)

theorem IsBare.skipSpace_eq (h : IsBare name) (r : List Char) :
    skipSpace (name.toList ++ r) = name.toList ++ r := by
  obtain ⟨x, s, hs, hx⟩ := h.exists_cons
  rw [hs, List.cons_append]
  exact skipSpace_of_head (isSpace_of_kind hx (by decide) (by decide)) _

/-- A name that is followed by something else than a dot is a key of one part. -/
theorem key?_bare (h : IsBare name) (hc : isBareKeyChar c = false) {y : Char} {u : List Char}
    (hrest : skipSpace (c :: r) = y :: u) (hy : y ≠ '.') :
    key? mostParts (name.toList ++ c :: r) = some (⟨[], name⟩, y :: u) := by
  rw [mostParts, key?, h.skipSpace_eq, simpleKey?_bare h hc]
  simp only [Option.bind_eq_bind, Option.bind_some, hrest]
  split
  · rename_i hdot
    cases hdot
    exact absurd rfl hy
  · rfl

theorem skipSpace_render? (h : v.render? = some t) (r : List Char) :
    skipSpace (' ' :: (t ++ r)) = t ++ r := by
  have hfirst : ∃ c u, t = c :: u ∧ isSpace c = false := by
    cases v with
    | text s =>
      cases h
      obtain ⟨q, u, htext, rfl | rfl⟩ := exists_quote s.toList
      · exact ⟨_, u, htext, rfl⟩
      · exact ⟨_, u, htext, rfl⟩
    | number n =>
      rw [Scalar.render?] at h
      split at h
      · cases h
        obtain ⟨c, u, hs⟩ := List.exists_cons_of_ne_nil (Text.natText_ne_nil n)
        have hc := allDigits_natText n c (hs ▸ List.mem_cons_self)
        exact ⟨c, u, hs, isSpace_of_kind hc (by decide) (by decide)⟩
      · cases h
    | truth b =>
      cases h
      cases b with
      | false => exact ⟨_, _, rfl, rfl⟩
      | true => exact ⟨_, _, rfl, rfl⟩
  obtain ⟨c, u, rfl, hc⟩ := hfirst
  exact skipSpace_of_head hc _

/-- The line is one statement and no filler. -/
structure States (line : List Char) (x : Statement) : Prop where
  ne_nil : line ≠ []
  begins : ∀ r, skipFiller false (line ++ r) = line ++ r
  read : ∀ r, statement? (line ++ r) = some (x, r)

theorem skipFiller_of_head (hc : isSpace c = false) (hfeed : c ≠ '\n') (hreturn : c ≠ '\r')
    (hmark : c ≠ '#') (r : List Char) : skipFiller false (c :: r) = c :: r := by
  rw [skipFiller, if_neg hfeed, if_neg Bool.false_ne_true, hc, if_neg Bool.false_ne_true,
    if_neg hmark]
  exact fun _ h _ => hreturn h

theorem states_header (h : IsBare name) :
    States ('[' :: name.toList ++ [']', '\n']) (.table ⟨[], name⟩) := by
  refine ⟨List.cons_ne_nil _ _, fun r => ?_, fun r => ?_⟩
  · exact skipFiller_of_head (by decide) (by decide) (by decide) (by decide) _
  · have hkey := key?_bare h (c := ']') (r := '\n' :: r) (by decide) rfl (by decide)
    rw [List.cons_append, List.cons_append, List.append_assoc, statement?]
    · simp only [List.cons_append, List.nil_append, hkey, Option.bind_eq_bind, Option.bind_some]
      rfl
    · exact h.head_ne (by decide) _

theorem states_line {line : List Char} (h : IsBare key) (hline : Block.line? key v = some line) :
    States line (.pair ⟨[], key⟩ v.toJson) := by
  obtain ⟨t, ht, hpure⟩ := Option.bind_eq_some_iff.mp hline
  cases hpure
  have htext (r : List Char) : key.toList ++ [' ', '=', ' '] ++ t ++ ['\n'] ++ r =
      key.toList ++ ' ' :: '=' :: ' ' :: (t ++ '\n' :: r) := by
    simp only [List.append_assoc, List.cons_append, List.nil_append]
  refine ⟨List.append_ne_nil_of_right_ne_nil _ (List.cons_ne_nil _ _), fun r => ?_, fun r => ?_⟩
  · obtain ⟨c, s, hs, hc⟩ := h.exists_cons
    rw [htext, hs, List.cons_append]
    have hother (x : Char) (hx : isBareKeyChar x = false) : c ≠ x := by
      rintro rfl
      exact Bool.false_ne_true (hx.symm.trans hc)
    exact skipFiller_of_head (isSpace_of_kind hc (by decide) (by decide))
      (hother _ (by decide)) (hother _ (by decide)) (hother _ (by decide)) _
  · have hkey := key?_bare h (c := ' ') (r := '=' :: ' ' :: (t ++ '\n' :: r)) (by decide) rfl
      (by decide)
    have hpair : pair? (value? mostLevels) (key.toList ++ ' ' :: '=' :: ' ' :: (t ++ '\n' :: r)) =
        some ((⟨[], key⟩, v.toJson), '\n' :: r) := by
      have hafter : after? '=' ('=' :: ' ' :: (t ++ '\n' :: r)) = some (' ' :: (t ++ '\n' :: r)) :=
        rfl
      rw [pair?, hkey]
      simp only [Option.bind_eq_bind, Option.bind_some, hafter, skipSpace_render? ht,
        value?_render? ht]
      rfl
    rw [htext, statement?, hpair]
    · rfl
    · exact fun u => h.head_ne (c := '[') (by decide) _ ('[' :: u)
    · exact h.head_ne (c := '[') (by decide) _

/-- The text is read as these statements. -/
def IsRead (s : List Char) (xs : List Statement) : Prop :=
  ∀ fuel, s.length ≤ fuel → statements? fuel s = some xs

theorem isRead_nil : IsRead [] [] := by
  intro fuel _
  rw [statements?]
  rfl

theorem IsRead.blank (h : IsRead r xs) : IsRead ('\n' :: r) xs := by
  intro fuel hfuel
  have hskip : skipFiller false ('\n' :: r) = skipFiller false r := rfl
  rw [← h fuel (by rw [List.length_cons] at hfuel; omega)]
  unfold statements?
  rw [hskip]

theorem IsRead.line {line : List Char} (hline : States line x) (h : IsRead r xs) :
    IsRead (line ++ r) (x :: xs) := by
  intro fuel hfuel
  have hpos := List.length_pos_iff.mpr hline.ne_nil
  rw [List.length_append] at hfuel
  obtain ⟨fuel, rfl⟩ := Nat.exists_eq_succ_of_ne_zero (n := fuel) (by omega)
  rw [statements?, hline.begins r]
  split
  · rename_i hnil
    exact absurd (List.append_eq_nil_iff.mp hnil).left hline.ne_nil
  · simp only [hline.read r, h fuel (by omega), Option.bind_eq_bind, Option.bind_some]
    rfl

namespace Block

/-- The statements that a table is written as. -/
def statements (b : Block) : List Statement :=
  .table ⟨[], b.name⟩ :: b.entries.map fun (key, v) => .pair ⟨[], key⟩ v.toJson

theorem isRead_entries {entries : List (String × Scalar)} (hkeys : ∀ e ∈ entries, IsBare e.1)
    {lines : List (List Char)} (hlines : entries.mapM (fun (key, v) => line? key v) = some lines)
    (h : IsRead r xs) :
    IsRead (lines.flatten ++ r) (entries.map (fun (key, v) => .pair ⟨[], key⟩ v.toJson) ++ xs) := by
  induction entries generalizing lines with
  | nil =>
    cases hlines
    exact h
  | cons e entries ih =>
    obtain ⟨hkey, hrest⟩ := List.forall_mem_cons.mp hkeys
    rw [List.mapM_cons] at hlines
    obtain ⟨line, hline, hbind⟩ := Option.bind_eq_some_iff.mp hlines
    obtain ⟨further, hfurther, hpure⟩ := Option.bind_eq_some_iff.mp hbind
    cases hpure
    rw [List.flatten_cons, List.append_assoc]
    exact (ih hrest hfurther).line (states_line hkey hline)

theorem isRead_render? (hb : b.IsRegular) (ht : b.render? = some t) (h : IsRead r xs) :
    IsRead (t ++ r) (b.statements ++ xs) := by
  obtain ⟨lines, hlines, hpure⟩ := Option.bind_eq_some_iff.mp ht
  cases hpure
  rw [List.append_assoc]
  exact (isRead_entries hb.keys hlines h).line (states_header hb.name)

end Block

/-- The statements of all tables are found in the lines of a document. -/
theorem isRead_join (hblocks : ∀ b ∈ blocks, b.IsRegular) {texts : List (List Char)}
    (htexts : blocks.mapM Block.render? = some texts) :
    IsRead (join ['\n'] texts) (blocks.flatMap Block.statements) := by
  induction blocks generalizing texts with
  | nil =>
    cases htexts
    exact isRead_nil
  | cons b blocks ih =>
    obtain ⟨hb, hrest⟩ := List.forall_mem_cons.mp hblocks
    rw [List.mapM_cons] at htexts
    obtain ⟨t, ht, hbind⟩ := Option.bind_eq_some_iff.mp htexts
    obtain ⟨further, hfurther, hpure⟩ := Option.bind_eq_some_iff.mp hbind
    cases hpure
    have hread := ih hrest hfurther
    cases further with
    | nil =>
      have halone := Block.isRead_render? hb ht hread
      rw [join, List.append_nil] at halone
      exact halone
    | cons u further =>
      rw [join]
      · rw [List.append_assoc]
        exact Block.isRead_render? hb ht hread.blank
      · exact List.cons_ne_nil _ _

namespace Table

variable {k : String} {n m : Node} {before : Table}

theorem lookup_eq_none (h : k ∉ before.map (·.1)) : List.lookup k before = none := by
  rw [List.lookup_eq_none_iff]
  exact fun e he => bne_iff_ne.mpr fun heq => h (heq ▸ List.mem_map_of_mem he)

theorem lookup_append (h : k ∉ before.map (·.1)) (n : Node) :
    List.lookup k (before ++ [(k, n)]) = some n := by
  rw [List.lookup_append, lookup_eq_none h, Option.none_or, List.lookup_cons_self]

theorem put_append (h : k ∉ before.map (·.1)) (n m : Node) :
    put k m (before ++ [(k, n)]) = before ++ [(k, m)] := by
  induction before with
  | nil => exact if_pos rfl
  | cons e before ih =>
    obtain ⟨hne, hrest⟩ := List.ne_and_not_mem_of_not_mem_cons h
    rw [List.cons_append, put, if_neg (Ne.symm hne), ih hrest]
    rfl

theorem notMem_append (h : k ∉ before.map (·.1)) {k' : String} (hne : k ≠ k') (n : Node) :
    k ∉ (before ++ [(k', n)]).map (·.1) := by
  rw [List.map_append, List.mem_append, List.map_singleton, List.mem_singleton]
  exact not_or.mpr ⟨h, hne⟩

/-- Entries of a table as they are held. -/
def held (entries : List (String × Scalar)) : Table :=
  entries.map fun (key, v) => (key, .value v.toJson)

theorem define_held (h : k ∉ before.map (·.1)) (w : Json) :
    define [] k w before = some (before ++ [(k, .value w)]) := by
  rw [define, descend, if_neg (by decide), lookup_eq_none h]

theorem openTable_of_new (h : k ∉ before.map (·.1)) :
    openTable [] k before = some (before ++ [(k, .table .opened [])]) := by
  rw [openTable, descend, lookup_eq_none h]

theorem descend_last (h : k ∉ before.map (·.1)) {sub sub' : Table}
    {change : Standing → Table → Option Table} (hchange : change .opened sub = some sub') :
    descend false change [k] .opened (before ++ [(k, .table .opened sub)]) =
      some (before ++ [(k, .table .opened sub')]) := by
  rw [descend, lookup_append h]
  simp only [Bool.false_eq_true, false_and, if_false, descend, hchange, Option.map_some,
    put_append h]

end Table

theorem replay_pair {before filled : Table} (hname : name ∉ before.map (·.1))
    (hkey : key ∉ filled.map (·.1)) (w : Json) :
    Document.replay ⟨before ++ [(name, .table .opened filled)], [name]⟩ (.pair ⟨[], key⟩ w) =
      some ⟨before ++ [(name, .table .opened (filled ++ [(key, .value w)]))], [name]⟩ := by
  have hchange : Table.descend false (fun _ t => Table.define [] key w t) [name] .opened
      (before ++ [(name, .table .opened filled)]) =
        some (before ++ [(name, .table .opened (filled ++ [(key, .value w)]))]) :=
    Table.descend_last hname (Table.define_held hkey w)
  simp only [Document.replay, hchange]
  rfl

/-- Pairs with new keys fill the table that was opened last. -/
theorem foldlM_replay_pairs {entries : List (String × Scalar)} {before filled : Table}
    (hname : name ∉ before.map (·.1)) (hnew : ∀ e ∈ entries, e.1 ∉ filled.map (·.1))
    (hunique : (entries.map (·.1)).Nodup) :
    (entries.map fun (key, v) => Statement.pair ⟨[], key⟩ v.toJson).foldlM Document.replay
        ⟨before ++ [(name, .table .opened filled)], [name]⟩ =
      some ⟨before ++ [(name, .table .opened (filled ++ Table.held entries))], [name]⟩ := by
  induction entries generalizing filled with
  | nil =>
    rw [Table.held, List.map_nil, List.map_nil, List.append_nil]
    rfl
  | cons e entries ih =>
    obtain ⟨key, v⟩ := e
    obtain ⟨hkey, hrest⟩ := List.forall_mem_cons.mp hnew
    obtain ⟨hother, hunique⟩ := List.nodup_cons.mp hunique
    have hnext : ∀ e ∈ entries, e.1 ∉ (filled ++ [(key, Node.value v.toJson)]).map (·.1) :=
      fun e he => Table.notMem_append (hrest e he)
        (fun heq => hother (List.mem_map.mpr ⟨e, he, heq⟩)) _
    rw [List.map_cons, List.foldlM_cons, replay_pair hname hkey, Option.bind_eq_bind,
      Option.bind_some, ih hnext hunique, List.append_assoc]
    rfl

/-- The table of a document, from its blocks. -/
def tableOf (blocks : List Block) : Table :=
  blocks.map fun b => (b.name, .table .opened (Table.held b.entries))

theorem foldlM_replay_statements (hb : (b.entries.map (·.1)).Nodup) {d : Document}
    (hname : b.name ∉ d.table.map (·.1)) :
    b.statements.foldlM Document.replay d =
      some ⟨d.table ++ [(b.name, .table .opened (Table.held b.entries))], [b.name]⟩ := by
  have hopen : Document.replay d (.table ⟨[], b.name⟩) =
      some ⟨d.table ++ [(b.name, .table .opened [])], [b.name]⟩ := by
    simp only [Document.replay, Table.openTable_of_new hname]
    rfl
  rw [Block.statements, List.foldlM_cons, hopen, Option.bind_eq_bind, Option.bind_some]
  exact foldlM_replay_pairs hname (fun _ _ => List.not_mem_nil) hb

/-- Each table is opened and filled once. -/
theorem exists_foldlM_replay (hblocks : ∀ b ∈ blocks, b.IsRegular) {d : Document}
    (hnew : ∀ b ∈ blocks, b.name ∉ d.table.map (·.1)) (hunique : (blocks.map (·.name)).Nodup) :
    ∃ place, (blocks.flatMap Block.statements).foldlM Document.replay d =
      some ⟨d.table ++ tableOf blocks, place⟩ := by
  induction blocks generalizing d with
  | nil => exact ⟨d.place, by rw [tableOf, List.map_nil, List.append_nil]; rfl⟩
  | cons b blocks ih =>
    obtain ⟨hb, hrest⟩ := List.forall_mem_cons.mp hblocks
    obtain ⟨hname, hnames⟩ := List.forall_mem_cons.mp hnew
    obtain ⟨hother, hunique⟩ := List.nodup_cons.mp hunique
    rw [List.flatMap_cons, List.foldlM_append, foldlM_replay_statements hb.unique hname,
      Option.bind_eq_bind, Option.bind_some]
    have hnext : ∀ b' ∈ blocks, b'.name ∉
        (d.table ++ [(b.name, Node.table .opened (Table.held b.entries))]).map (·.1) :=
      fun b' hb' => Table.notMem_append (hnames b' hb')
        (fun heq => hother (List.mem_map.mpr ⟨b', hb', heq⟩)) _
    obtain ⟨place, hfold⟩ := ih hrest (d := ⟨_, [b.name]⟩) hnext hunique
    refine ⟨place, hfold.trans ?_⟩
    rw [List.append_assoc]
    rfl

theorem membersOf_held (entries : List (String × Scalar)) :
    membersOf (Table.held entries) = entries.map fun (key, v) => (key, v.toJson) := by
  induction entries with
  | nil => rfl
  | cons e entries ih => exact congrArg _ ih

/-- What a document holds that was written from the blocks. -/
def members (blocks : List Block) : Members :=
  blocks.map fun b => (b.name, Json.object (b.entries.map fun (key, v) => (key, v.toJson)))

theorem membersOf_tableOf (blocks : List Block) : membersOf (tableOf blocks) = members blocks := by
  induction blocks with
  | nil => rfl
  | cons b blocks ih =>
    rw [tableOf, List.map_cons, membersOf, Node.toJson, membersOf_held]
    exact congrArg _ ih

theorem dropMark_join {texts : List (List Char)} (htexts : blocks.mapM Block.render? = some texts) :
    dropMark (join ['\n'] texts) = join ['\n'] texts := by
  cases blocks with
  | nil =>
    cases htexts
    rfl
  | cons b blocks =>
    rw [List.mapM_cons] at htexts
    obtain ⟨t, ht, hbind⟩ := Option.bind_eq_some_iff.mp htexts
    obtain ⟨further, -, hpure⟩ := Option.bind_eq_some_iff.mp hbind
    obtain ⟨lines, -, hline⟩ := Option.bind_eq_some_iff.mp ht
    cases hpure
    cases hline
    cases further with
    | nil => rfl
    | cons u further => rfl

/-- A document that was written is read as what it was written from, the names in order. -/
theorem read?_render? (hblocks : ∀ b ∈ blocks, b.IsRegular)
    (hunique : (blocks.map (·.name)).Nodup) {text : String} (h : render? blocks = some text) :
    read? text = some (members blocks).ordered := by
  obtain ⟨texts, htexts, hpure⟩ := Option.bind_eq_some_iff.mp h
  cases hpure
  obtain ⟨place, hfold⟩ := exists_foldlM_replay hblocks (d := .empty)
    (fun _ _ => List.not_mem_nil) hunique
  have hread := isRead_join hblocks htexts _ (Nat.le_refl _)
  rw [read?, String.toList_ofList, dropMark_join htexts]
  simp only [hread, hfold, Option.bind_eq_bind, Option.bind_some]
  simp only [Table.toJson, Document.empty, List.nil_append, membersOf_tableOf]
  rfl

def Scalar.number? : Scalar → Option Nat
  | .number n => some n
  | _ => none

/-- All numbers of the tables. -/
def numbers (blocks : List Block) : List Nat :=
  blocks.flatMap fun b => b.entries.filterMap fun e => e.2.number?

theorem Scalar.exists_render? (h : ∀ n ∈ v.number?, n ≤ Int64.maxValue.toInt) :
    ∃ t, v.render? = some t := by
  cases v with
  | text s => exact ⟨_, rfl⟩
  | number n => exact ⟨_, if_pos (h n rfl)⟩
  | truth b => exact ⟨_, rfl⟩

theorem exists_mapM {α β : Type} {f : α → Option β} {l : List α} (h : ∀ a ∈ l, ∃ b, f a = some b) :
    ∃ bs, l.mapM f = some bs := by
  induction l with
  | nil => exact ⟨[], rfl⟩
  | cons a l ih =>
    obtain ⟨⟨b, hb⟩, hrest⟩ := List.forall_mem_cons.mp h
    obtain ⟨bs, hbs⟩ := ih hrest
    exact ⟨b :: bs, by rw [List.mapM_cons, hb, hbs]; rfl⟩

/-- Only a number can be in the way of a written form. -/
theorem exists_render? (h : ∀ n ∈ numbers blocks, n ≤ Int64.maxValue.toInt) :
    ∃ text, render? blocks = some text := by
  have hblock : ∀ b ∈ blocks, ∃ t, b.render? = some t := by
    intro b hb
    have hline : ∀ e ∈ b.entries, ∃ line, Block.line? e.1 e.2 = some line := by
      intro e he
      obtain ⟨t, ht⟩ := e.2.exists_render? fun n hn =>
        h n (List.mem_flatMap.mpr ⟨b, hb, List.mem_filterMap.mpr ⟨e, he, hn⟩⟩)
      exact ⟨_, by rw [Block.line?, ht]; rfl⟩
    obtain ⟨lines, hlines⟩ := exists_mapM hline
    exact ⟨_, by rw [Block.render?, hlines]; rfl⟩
  obtain ⟨texts, htexts⟩ := exists_mapM hblock
  exact ⟨_, by rw [render?, htexts]; rfl⟩

end ResourceIndex.Toml
