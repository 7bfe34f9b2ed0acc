import Mathlib.Data.List.Forall2
import ResourceIndex.Proofs.Json.Text
/-
The members of an object that is held stand in ascending order of their names, so that they are not
moved again: a legible value that is held is exactly what its text is read as.
-/
namespace ResourceIndex.Json

variable {d : Nat} {name : String} {v : Json} {m : String × Json} {ms ns : Members}

namespace Members

/-- The names stand in ascending order, without repetition. -/
def Sorted (ms : Members) : Prop := ms.Pairwise fun m n => m.1 < n.1

/-- The members put into others, one after another. -/
def putInto (done ms : Members) : Members := ms.foldl (fun done m => insert m.1 m.2 done) done

theorem putInto_cons (done : Members) (m : String × Json) (ms : Members) :
    putInto done (m :: ms) = putInto (insert m.1 m.2 done) ms := rfl

theorem mem_insert (h : m ∈ insert name v ms) : m = (name, v) ∨ m ∈ ms := by
  induction ms with
  | nil => exact .inl (List.mem_singleton.mp h)
  | cons n ms ih =>
    rw [insert] at h
    split at h
    · exact List.mem_cons.mp h
    split at h
    · exact (List.mem_cons.mp h).imp_right (List.mem_cons_of_mem _)
    · rcases List.mem_cons.mp h with rfl | hm
      · exact .inr List.mem_cons_self
      · exact (ih hm).imp_right (List.mem_cons_of_mem _)

theorem mem_putInto {done : Members} (h : m ∈ putInto done ms) : m ∈ done ∨ m ∈ ms := by
  induction ms generalizing done with
  | nil => exact .inl h
  | cons n ms ih =>
    rcases ih h with hdone | hms
    · rcases mem_insert hdone with rfl | hdone
      · exact .inr List.mem_cons_self
      · exact .inl hdone
    · exact .inr (List.mem_cons_of_mem n hms)

theorem mem_ordered (h : m ∈ ms.ordered) : m ∈ ms :=
  (mem_putInto h).resolve_left List.not_mem_nil

theorem Sorted.insert (h : ms.Sorted) (name : String) (v : Json) :
    Sorted (Json.insert name v ms) := by
  induction ms with
  | nil => exact List.pairwise_singleton _ _
  | cons n ms ih =>
    obtain ⟨hn, hms⟩ := List.pairwise_cons.mp h
    rw [Json.insert]
    split
    · rename_i hlt
      refine List.pairwise_cons.mpr ⟨List.forall_mem_cons.mpr ⟨hlt, fun m hm => ?_⟩, h⟩
      exact String.lt_trans hlt (hn m hm)
    split
    · rename_i heq
      exact List.pairwise_cons.mpr ⟨fun m hm => by rw [heq]; exact hn m hm, hms⟩
    · rename_i hnot hne
      have hlt : n.1 < name := String.not_le.mp fun hle =>
        hne (String.le_antisymm hle (String.not_lt.mp hnot))
      refine List.pairwise_cons.mpr ⟨fun m hm => ?_, ih hms⟩
      rcases mem_insert hm with rfl | hm
      · exact hlt
      · exact hn m hm

theorem Sorted.putInto {done : Members} (h : done.Sorted) (ms : Members) :
    (putInto done ms).Sorted := by
  induction ms generalizing done with
  | nil => exact h
  | cons m ms ih => exact ih (h.insert m.1 m.2)

theorem sorted_ordered (ms : Members) : ms.ordered.Sorted := Sorted.putInto .nil ms

theorem insert_of_forall_lt (h : ∀ m ∈ ms, m.1 < name) : insert name v ms = ms ++ [(name, v)] := by
  induction ms with
  | nil => rfl
  | cons m ms ih =>
    obtain ⟨hm, hms⟩ := List.forall_mem_cons.mp h
    rw [insert, if_neg (String.lt_asymm hm), if_neg (String.ne_of_lt hm).symm, ih hms,
      List.cons_append]

/-- Members that come in their order stay in it. -/
theorem putInto_eq_append {done : Members} (h : Sorted (done ++ ms)) :
    putInto done ms = done ++ ms := by
  induction ms generalizing done with
  | nil => exact (List.append_nil done).symm
  | cons m ms ih =>
    have hlast : ∀ n ∈ done, n.1 < m.1 := fun n hn =>
      (List.pairwise_append.mp h).2.2 n hn m List.mem_cons_self
    have hmove : done ++ m :: ms = (done ++ [m]) ++ ms := List.append_cons done m ms
    rw [putInto_cons, insert_of_forall_lt hlast, hmove]
    exact ih (hmove ▸ h)

theorem Sorted.ordered_eq (h : ms.Sorted) : ms.ordered = ms := putInto_eq_append h

/-- The members with each value replaced. -/
def mapped (f : Json → Json) (ms : Members) : Members := ms.map fun m => (m.1, f m.2)

theorem mapped_insert (f : Json → Json) (name : String) (v : Json) (ms : Members) :
    mapped f (insert name v ms) = insert name (f v) (ms.mapped f) := by
  induction ms with
  | nil => rfl
  | cons m ms ih =>
    rw [insert, mapped, mapped, List.map_cons, insert]
    split
    · rfl
    split
    · rfl
    · exact congrArg _ ih

theorem mapped_putInto (f : Json → Json) (done ms : Members) :
    (putInto done ms).mapped f = putInto (done.mapped f) (ms.mapped f) := by
  induction ms generalizing done with
  | nil => rfl
  | cons m ms ih =>
    rw [putInto_cons, ih, mapped_insert]
    rfl

theorem mapped_ordered (f : Json → Json) (ms : Members) :
    ms.ordered.mapped f = (ms.mapped f).ordered := mapped_putInto f [] ms

end Members

open Members

theorem Legible.ordered (h : Legible d v) : Legible d v.ordered := by
  induction h with
  | null => exact .null
  | bool b => exact .bool b
  | int hlow hhigh => exact .int hlow hhigh
  | float hx => exact .float hx
  | str s => exact .str s
  | arr _ ih =>
    rw [Json.ordered, orderedAll_eq_map]
    exact .arr (List.forall_mem_map.mpr ih)
  | obj _ ih =>
    rw [Json.ordered, orderedMembers_eq_map]
    refine .obj fun m hm => ?_
    obtain ⟨n, hn, rfl⟩ := List.mem_map.mp (mem_ordered hm)
    exact ih n hn

/-- Nothing is left to be put in order. -/
theorem Legible.ordered_ordered (h : Legible d v) : v.ordered.ordered = v.ordered := by
  induction h with
  | null => rfl
  | bool b => rfl
  | int hlow hhigh => rfl
  | float hx => rfl
  | str s => rfl
  | arr _ ih =>
    rw [Json.ordered, orderedAll_eq_map, Json.ordered, orderedAll_eq_map, List.map_map]
    exact congrArg Json.arr (List.map_congr_left ih)
  | @obj d ms _ ih =>
    have hvalues : (ms.mapped Json.ordered).mapped Json.ordered = ms.mapped Json.ordered := by
      rw [mapped, mapped, List.map_map]
      exact List.map_congr_left fun m hm => Prod.ext rfl (ih m hm)
    rw [Json.ordered, orderedMembers_eq_map, object, Json.ordered, orderedMembers_eq_map]
    change object ((ms.mapped Json.ordered).ordered.mapped Json.ordered) = _
    rw [mapped_ordered, hvalues, object, (sorted_ordered _).ordered_eq]
    rfl

/-- A legible value that is held is read back as it is. -/
theorem Legible.read?_render_ordered (h : Legible 127 v) :
    read? v.ordered.render = some v.ordered := by
  rw [h.ordered.read?_render, h.ordered_ordered]

end ResourceIndex.Json
