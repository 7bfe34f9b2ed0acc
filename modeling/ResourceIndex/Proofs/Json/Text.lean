import Mathlib.Data.List.DropRight
import ResourceIndex.Proofs.Json.Scalars
/-
A value is read back from its text. Objects are read in the order of the names of their members,
whatever the order in the text, and a value must not be nested deeper than the reader goes.
-/
namespace ResourceIndex.Json

open Text

variable {s r : List Char} {v : Json} {vs : List Json} {ms : Members} {d e : Nat}

mutual

/-- The value as it is held: the members of all its objects in order. -/
def ordered : Json → Json
  | .arr vs => .arr (orderedAll vs)
  | .obj ms => object (orderedMembers ms)
  | v => v

def orderedAll : List Json → List Json
  | [] => []
  | v :: vs => ordered v :: orderedAll vs

def orderedMembers : Members → Members
  | [] => []
  | (n, v) :: ms => (n, ordered v) :: orderedMembers ms

end

/-- A number that is finite and read back from its text. -/
structure ReadsBack (x : Binary64) : Prop where
  finite : x.isFinite = true
  read : number? x.text = some (.float x, [])

/-- A value whose numbers have texts that are read back, with at most the given levels of arrays
and objects. -/
inductive Legible : Nat → Json → Prop
  | null {d : Nat} : Legible d .null
  | bool {d : Nat} (b : Bool) : Legible d (.bool b)
  | int {d : Nat} {n : Int} : Int64.minValue.toInt ≤ n → n < UInt64.size → Legible d (.int n)
  | float {d : Nat} {x : Binary64} : ReadsBack x → Legible d (.float x)
  | str {d : Nat} (s : String) : Legible d (.str s)
  | arr {d : Nat} {vs : List Json} : (∀ v ∈ vs, Legible d v) → Legible (d + 1) (.arr vs)
  | obj {d : Nat} {ms : Members} : (∀ m ∈ ms, Legible d m.2) → Legible (d + 1) (.obj ms)

/-- The reader gets the value out of its text, whatever follows, if it has the fuel for it. -/
def IsRead (d : Nat) (v : Json) : Prop :=
  ∀ fuel r, 2 * v.render.length < fuel → Follows r →
    value? fuel (d + 1) (v.render ++ r) = some (v.ordered, r)

theorem skip_of_not_isSpace {c : Char} (hc : isSpace c = false) (s : List Char) :
    skip (c :: s) = c :: s := List.dropWhile_cons_of_neg (by simp [hc])

theorem value?_of_number? {p : Json × List Char} (h : number? s = some p) (fuel depth : Nat) :
    value? (fuel + 1) depth s = some p := by
  obtain ⟨c, t, rfl, hc⟩ := exists_cons_of_number? h
  have hne : ∀ x, x.isDigit = false → x ≠ '-' → c ≠ x := by
    rintro x hdigit hminus rfl
    rcases hc with hc | hc
    · exact hminus hc
    · exact absurd hc (by simp [hdigit])
  have hspace : isSpace c = false := by
    simp only [isSpace, hne ' ' rfl (by decide), hne '\n' rfl (by decide),
      hne '\t' rfl (by decide), hne '\r' rfl (by decide), decide_false, Bool.or_self]
  rw [value?, skip_of_not_isSpace hspace]
  split
  · exact absurd (List.cons.inj ‹_›).1 (hne 'n' rfl (by decide))
  · exact absurd (List.cons.inj ‹_›).1 (hne 't' rfl (by decide))
  · exact absurd (List.cons.inj ‹_›).1 (hne 'f' rfl (by decide))
  · exact absurd (List.cons.inj ‹_›).1 (hne '"' rfl (by decide))
  · exact absurd (List.cons.inj ‹_›).1 (hne '[' rfl (by decide))
  · exact absurd (List.cons.inj ‹_›).1 (hne '\x7b' rfl (by decide))
  · exact h

theorem isRead_number (hv : number? v.render = some (v, [])) (hordered : v.ordered = v) :
    IsRead d v := by
  intro fuel r hfuel hr
  obtain ⟨fuel, rfl⟩ := Nat.exists_eq_succ_of_ne_zero (Nat.ne_zero_of_lt hfuel)
  rw [hordered]
  exact value?_of_number? (by rw [number?_append hr, hv]; rfl) fuel (d + 1)

theorem isRead_str (s : String) : IsRead d (.str s) := by
  intro fuel r hfuel hr
  obtain ⟨fuel, rfl⟩ := Nat.exists_eq_succ_of_ne_zero (Nat.ne_zero_of_lt hfuel)
  simp only [render, quoted, List.cons_append, List.append_assoc, List.nil_append, value?]
  rw [skip_of_not_isSpace rfl]
  simp only [unquote_flatMap_escaped, Option.map_some, String.ofList_toList]
  rfl

theorem follows_renderRest (vs : List Json) (r : List Char) : Follows (renderRest vs ++ r) := by
  cases vs with
  | nil => exact fun c hc => by cases hc; decide
  | cons v vs => exact fun c hc => by cases hc; decide

theorem follows_renderMembers (ms : Members) (r : List Char) :
    Follows (renderMembers ms ++ r) := by
  cases ms with
  | nil => exact fun c hc => by cases hc; decide
  | cons m ms => exact fun c hc => by cases hc; decide

theorem elements?_render {vs : List Json} (hv : IsRead d v) (hvs : ∀ w ∈ vs, IsRead d w)
    (fuel : Nat) (r : List Char)
    (hfuel : 2 * (v.render.length + (renderRest vs).length) + 1 < fuel) :
    elements? fuel (d + 1) (v.render ++ renderRest vs ++ r) = some (orderedAll (v :: vs), r) := by
  induction vs generalizing v fuel with
  | nil =>
    obtain ⟨fuel, rfl⟩ := Nat.exists_eq_succ_of_ne_zero (Nat.ne_zero_of_lt hfuel)
    rw [elements?, List.append_assoc, hv fuel _ (by omega) (follows_renderRest [] r)]
    rfl
  | cons w vs ih =>
    obtain ⟨fuel, rfl⟩ := Nat.exists_eq_succ_of_ne_zero (Nat.ne_zero_of_lt hfuel)
    obtain ⟨hw, hrest⟩ := List.forall_mem_cons.mp hvs
    rw [elements?, List.append_assoc, hv fuel _ (by omega) (follows_renderRest (w :: vs) r)]
    have hlength :
        (renderRest (w :: vs)).length = w.render.length + (renderRest vs).length + 1 := by
      simp [renderRest]
    rw [hlength] at hfuel
    have hone := ih hw hrest fuel (by omega)
    simp only [renderRest, List.cons_append, Option.bind_eq_bind, Option.bind_some]
    rw [skip_of_not_isSpace rfl]
    simp only [hone, Option.bind_some]
    rfl

theorem members?_render {n : String} {ms : Members} (hv : IsRead d v)
    (hms : ∀ m ∈ ms, IsRead d m.2) (fuel : Nat) (r : List Char)
    (hfuel : 2 * (v.render.length + (renderMembers ms).length) + 1 < fuel) :
    members? fuel (d + 1) (quoted n.toList ++ ':' :: (v.render ++ renderMembers ms ++ r)) =
      some (orderedMembers ((n, v) :: ms), r) := by
  induction ms generalizing n v fuel with
  | nil =>
    obtain ⟨fuel, rfl⟩ := Nat.exists_eq_succ_of_ne_zero (Nat.ne_zero_of_lt hfuel)
    have hone := hv fuel _ (by omega) (follows_renderMembers [] r)
    simp only [members?, quoted, List.cons_append, List.append_assoc, List.nil_append]
    rw [skip_of_not_isSpace rfl]
    simp only [unquote_flatMap_escaped, Option.bind_eq_bind, Option.bind_some]
    rw [skip_of_not_isSpace rfl]
    simp only [hone, Option.bind_some, String.ofList_toList]
    rfl
  | cons m ms ih =>
    obtain ⟨fuel, rfl⟩ := Nat.exists_eq_succ_of_ne_zero (Nat.ne_zero_of_lt hfuel)
    obtain ⟨name, w⟩ := m
    obtain ⟨hw, hrest⟩ := List.forall_mem_cons.mp hms
    have hlength : (renderMembers ((name, w) :: ms)).length =
        (quoted name.toList).length + w.render.length + (renderMembers ms).length + 2 := by
      simp only [renderMembers, List.length_append, List.length_cons]
      omega
    rw [hlength] at hfuel
    have hone := hv fuel _ (by omega) (follows_renderMembers ((name, w) :: ms) r)
    have hall := ih (n := name) (v := w) hw hrest fuel (by omega)
    simp only [members?, quoted, List.cons_append, List.append_assoc, List.nil_append]
    rw [skip_of_not_isSpace rfl]
    simp only [unquote_flatMap_escaped, Option.bind_eq_bind, Option.bind_some]
    rw [skip_of_not_isSpace rfl]
    simp only [hone, Option.bind_some, String.ofList_toList]
    simp only [renderMembers, List.cons_append, List.append_assoc]
    rw [skip_of_not_isSpace rfl]
    simp only [List.append_assoc] at hall
    simp only [hall, Option.bind_some]
    rfl

theorem value?_skip (fuel depth : Nat) (s : List Char) :
    value? fuel depth (skip s) = value? fuel depth s := by
  cases fuel with
  | zero => rfl
  | succ fuel => rw [value?, value?, skip, skip, List.dropWhile_idempotent]

theorem elements?_skip (fuel depth : Nat) (s : List Char) :
    elements? fuel depth (skip s) = elements? fuel depth s := by
  cases fuel with
  | zero => rfl
  | succ fuel => rw [elements?, elements?, value?_skip]

/-- No element starts with a closing bracket. -/
theorem elements?_of_skip_eq {t : List Char} (h : skip s = ']' :: t) (fuel depth : Nat) :
    elements? fuel depth s = none := by
  cases fuel with
  | zero => rfl
  | succ fuel =>
    cases fuel with
    | zero => rfl
    | succ fuel =>
      rw [elements?, value?, h]
      rfl

theorem isRead_arr {vs : List Json} (hvs : ∀ v ∈ vs, IsRead d v) : IsRead (d + 1) (.arr vs) := by
  intro fuel r hfuel hr
  obtain ⟨fuel, rfl⟩ := Nat.exists_eq_succ_of_ne_zero (Nat.ne_zero_of_lt hfuel)
  cases vs with
  | nil =>
    rw [value?]
    rfl
  | cons v vs =>
    obtain ⟨hv, hrest⟩ := List.forall_mem_cons.mp hvs
    have hlength : (Json.arr (v :: vs)).render.length =
        v.render.length + (renderRest vs).length + 1 := by
      simp only [render, List.length_append, List.length_cons]
      omega
    rw [hlength] at hfuel
    have hall := elements?_render hv hrest fuel r (by omega)
    rw [value?, render, List.cons_append, List.cons_append, skip_of_not_isSpace rfl]
    have hdepth : ¬ d + 1 + 1 ≤ 1 := by omega
    simp only [hdepth, if_false]
    split
    · rw [elements?_of_skip_eq ‹_›] at hall
      cases hall
    · rw [elements?_skip, Nat.add_sub_cancel, hall]
      rfl

theorem isRead_obj {ms : Members} (hms : ∀ m ∈ ms, IsRead d m.2) : IsRead (d + 1) (.obj ms) := by
  intro fuel r hfuel hr
  obtain ⟨fuel, rfl⟩ := Nat.exists_eq_succ_of_ne_zero (Nat.ne_zero_of_lt hfuel)
  cases ms with
  | nil =>
    rw [value?]
    rfl
  | cons m ms =>
    obtain ⟨n, v⟩ := m
    obtain ⟨hv, hrest⟩ := List.forall_mem_cons.mp hms
    have hlength : (Json.obj ((n, v) :: ms)).render.length =
        (quoted n.toList).length + v.render.length + (renderMembers ms).length + 2 := by
      simp only [render, List.length_append, List.length_cons]
      omega
    rw [hlength] at hfuel
    have hall := members?_render (n := n) (v := v) hv hrest fuel r (by omega)
    have hdepth : ¬ d + 1 + 1 ≤ 1 := by omega
    simp only [quoted, List.cons_append, List.append_assoc, List.nil_append] at hall
    simp only [value?, render, quoted, List.cons_append, List.append_assoc, List.nil_append]
    rw [skip_of_not_isSpace rfl]
    simp only [hdepth, if_false]
    rw [skip_of_not_isSpace rfl]
    change (members? fuel (d + 1) _).map _ = _
    rw [hall]
    rfl

/-- A legible value is read back from its text. -/
theorem Legible.isRead (h : Legible d v) : IsRead d v := by
  induction h with
  | null =>
    intro fuel r hfuel hr
    obtain ⟨fuel, rfl⟩ := Nat.exists_eq_succ_of_ne_zero (Nat.ne_zero_of_lt hfuel)
    rw [value?]
    rfl
  | bool b =>
    intro fuel r hfuel hr
    obtain ⟨fuel, rfl⟩ := Nat.exists_eq_succ_of_ne_zero (Nat.ne_zero_of_lt hfuel)
    rw [value?]
    cases b with
    | true => rfl
    | false => rfl
  | int hlow hhigh => exact isRead_number (number?_intText hlow hhigh) rfl
  | float hx => exact isRead_number (by rw [render, if_pos hx.finite]; exact hx.read) rfl
  | str s => exact isRead_str s
  | arr _ ih => exact isRead_arr ih
  | obj _ ih => exact isRead_obj ih

theorem Legible.read?_render (h : Legible 127 v) : read? v.render = some v.ordered := by
  have hvalue := h.isRead (2 * v.render.length + 2) [] (by omega) follows_nil
  rw [List.append_nil] at hvalue
  rw [read?, hvalue]
  rfl

theorem Legible.ofText?_text (h : Legible 127 v) : ofText? v.text = some v.ordered := by
  rw [ofText?, text, String.toList_ofList]
  exact h.read?_render

theorem Legible.mono (h : Legible d v) (hde : d ≤ e) : Legible e v := by
  induction h generalizing e with
  | null => exact .null
  | bool b => exact .bool b
  | int hlow hhigh => exact .int hlow hhigh
  | float hx => exact .float hx
  | str s => exact .str s
  | @arr d vs _ ih =>
    obtain ⟨e, rfl⟩ := Nat.exists_eq_succ_of_ne_zero (Nat.ne_zero_of_lt hde)
    exact .arr fun v hv => ih v hv (Nat.le_of_succ_le_succ hde)
  | @obj d ms _ ih =>
    obtain ⟨e, rfl⟩ := Nat.exists_eq_succ_of_ne_zero (Nat.ne_zero_of_lt hde)
    exact .obj fun m hm => ih m hm (Nat.le_of_succ_le_succ hde)

/-- A value without levels has nothing to put in order. -/
theorem Legible.ordered_eq (h : Legible 0 v) : v.ordered = v := by
  cases h with
  | null => rfl
  | bool b => rfl
  | int hlow hhigh => rfl
  | float hx => rfl
  | str s => rfl

theorem orderedAll_eq_map (vs : List Json) : orderedAll vs = vs.map ordered := by
  induction vs with
  | nil => rfl
  | cons v vs ih => rw [orderedAll, ih, List.map_cons]

theorem orderedMembers_eq_map (ms : Members) :
    orderedMembers ms = ms.map fun m => (m.1, m.2.ordered) := by
  induction ms with
  | nil => rfl
  | cons m ms ih =>
    obtain ⟨n, v⟩ := m
    rw [orderedMembers, ih, List.map_cons]

theorem orderedMembers_append (ms ns : Members) :
    orderedMembers (ms ++ ns) = orderedMembers ms ++ orderedMembers ns := by
  simp only [orderedMembers_eq_map, List.map_append]

theorem ordered_arr_of_legible (h : ∀ v ∈ vs, Legible 0 v) : (arr vs).ordered = arr vs := by
  rw [ordered, orderedAll_eq_map, List.map_congr_left fun v hv => (h v hv).ordered_eq, List.map_id']

theorem ordered_obj_of_legible (h : ∀ m ∈ ms, Legible 0 m.2) : (obj ms).ordered = object ms := by
  have hmap : ms.map (fun m => (m.1, m.2.ordered)) = ms.map id := List.map_congr_left fun m hm =>
    Prod.ext rfl (h m hm).ordered_eq
  rw [ordered, orderedMembers_eq_map, hmap, List.map_id]

end ResourceIndex.Json
