import Mathlib.Data.List.Basic
import ResourceIndex.Json.Record
/-
The fields of a record are found among its members whatever their order, and a field that was
encoded from an optional value gives this value again.
-/
namespace ResourceIndex.Json

variable {α : Type} {name other sought : String} {ms : Members} {encode : α → Json}
  {read : Json → Option α} {f : α → α} {v : Json} {o : Option α} {fallback : α}

theorem lookup_cons (n : String) (v : Json) (ms : Members) (sought : String) :
    List.lookup sought ((n, v) :: ms) = if sought = n then some v else ms.lookup sought := by
  rw [List.lookup_cons]
  by_cases h : sought = n
  · rw [if_pos h, beq_iff_eq.mpr h]
  · rw [if_neg h, beq_false_of_ne h]

theorem lookup_insert (name : String) (v : Json) (ms : Members) (sought : String) :
    (insert name v ms).lookup sought = if sought = name then some v else ms.lookup sought := by
  induction ms with
  | nil => exact lookup_cons name v [] sought
  | cons m ms ih =>
    obtain ⟨n, w⟩ := m
    rw [insert]
    split
    · exact lookup_cons name v _ sought
    split
    · subst n
      rw [lookup_cons, lookup_cons]
      split
      · rfl
      · rfl
    · rename_i hne
      rw [lookup_cons, lookup_cons, ih]
      by_cases hn : sought = n
      · subst n
        rw [if_pos rfl, if_pos rfl, if_neg (Ne.symm hne)]
      · rw [if_neg hn, if_neg hn]

namespace Members

/-- No two members have the same name. -/
def NamesUnique (ms : Members) : Prop := (ms.map (·.1)).Nodup

theorem lookup_eq_none (h : name ∉ ms.map (·.1)) : ms.lookup name = none := by
  rw [List.lookup_eq_none_iff]
  intro m hm
  exact bne_iff_ne.mpr fun heq => h (heq ▸ List.mem_map_of_mem hm)

theorem lookup_foldl_insert (h : ms.NamesUnique) (done : Members) (sought : String) :
    (ms.foldl (fun done m => insert m.1 m.2 done) done).lookup sought =
      (ms.lookup sought).or (done.lookup sought) := by
  induction ms generalizing done with
  | nil => rfl
  | cons m ms ih =>
    obtain ⟨n, v⟩ := m
    obtain ⟨hn, hms⟩ := List.nodup_cons.mp h
    rw [List.foldl_cons, ih hms, lookup_insert, lookup_cons]
    by_cases hname : sought = n
    · rw [if_pos hname, if_pos hname, hname, lookup_eq_none hn]
      rfl
    · rw [if_neg hname, if_neg hname]

theorem lookup_ordered (h : ms.NamesUnique) (sought : String) :
    ms.ordered.lookup sought = ms.lookup sought := by
  rw [ordered, lookup_foldl_insert h]
  exact Option.or_none

end Members

theorem object_ne_null (ms : Members) : object ms ≠ .null := by
  intro h
  rw [object] at h
  cases h

/-- What a value is encoded to is read as what `f` makes of it, and is told from a missing one. -/
structure DecodesAs (encode : α → Json) (read : Json → Option α) (f : α → α) : Prop where
  read : ∀ a, read (encode a) = some (f a)
  ne_null : ∀ a, encode a ≠ .null

/-- What a value is encoded to is read as this value, and is told from a missing one. -/
structure Decodes (encode : α → Json) (read : Json → Option α) : Prop where
  read : ∀ a, read (encode a) = some a
  ne_null : ∀ a, encode a ≠ .null

theorem Decodes.as_id (h : Decodes encode read) : DecodesAs encode read id := ⟨h.read, h.ne_null⟩

namespace Members

theorem optional?_as_of_lookup_option (h : DecodesAs encode read f)
    (hm : ms.lookup name = some (option encode o)) :
    ms.optional? name read = some (o.map f) := by
  rw [optional?, hm]
  cases o with
  | none => rfl
  | some a =>
    rw [option]
    split
    · cases ‹_›
    · exact absurd (Option.some.inj ‹_›) (h.ne_null a)
    · cases Option.some.inj ‹_›
      rw [h.read]
      rfl

theorem optional?_as_of_lookup_map (h : DecodesAs encode read f)
    (hm : ms.lookup name = o.map encode) : ms.optional? name read = some (o.map f) := by
  cases o with
  | none =>
    rw [optional?, hm]
    rfl
  | some a => exact optional?_as_of_lookup_option h hm

theorem optional?_as_ordered (hu : ms.NamesUnique) (h : DecodesAs encode read f) (name : String)
    (o : Option α) (hm : ms.lookup name = some (option encode o)) :
    ms.ordered.optional? name read = some (o.map f) :=
  optional?_as_of_lookup_option h ((lookup_ordered hu name).trans hm)

/-- A field that is left out when it is missing. -/
theorem optional?_of_lookup_map (h : Decodes encode read)
    (hm : ms.lookup name = o.map encode) : ms.optional? name read = some o :=
  (optional?_as_of_lookup_map h.as_id hm).trans (congrArg some Option.map_id_apply)

/-- A field that is always written, with null for what is missing. -/
theorem optional?_ordered (hu : ms.NamesUnique) (h : Decodes encode read) (name : String)
    (o : Option α) (hm : ms.lookup name = some (option encode o)) :
    ms.ordered.optional? name read = some o :=
  (optional?_as_ordered hu h.as_id name o hm).trans (congrArg some Option.map_id_apply)

theorem defaulted?_of_lookup {a : α} (hm : ms.lookup name = some v) (h : read v = some a) :
    ms.defaulted? name fallback read = some a := by
  rw [defaulted?, hm]
  exact h

theorem required?_of_lookup {a : α} (hm : ms.lookup name = some v) (h : read v = some a) :
    ms.required? name read = some a := by
  rw [required?, hm]
  exact h

end Members

end ResourceIndex.Json
