import Mathlib.Data.List.Chain
import ResourceIndex.Proofs.Batch.Direct
/-
The calls of a push, described without the way they are found: they stand for the operations in
their order, and every maximal run of writes is one group. Only one list of calls does so, and it is
the one that is made.
-/
namespace ResourceIndex

namespace Call

variable {ω : Type} {ops : List (Staged ω)} {calls : List (Call ω)}

/-- The operations that a call stands for. -/
def operations : Call ω → List (Staged ω)
  | flush writes => writes.map .write
  | apply c => [.cascade c]

def IsFlush : Call ω → Prop
  | flush _ => True
  | apply _ => False

/-- The calls stand for the operations in their order. No group is empty and no two groups are
neighbours, so every group is a maximal run of writes. -/
structure IsGrouping (ops : List (Staged ω)) (calls : List (Call ω)) : Prop where
  inOrder : calls.flatMap operations = ops
  nonempty : ∀ ws, flush ws ∈ calls → ws ≠ []
  apart : calls.IsChain fun c d => ¬ (c.IsFlush ∧ d.IsFlush)

theorem flushing_of_ne_nil {ws : List ω} (h : ws ≠ []) : flushing ws = [flush ws] := by
  cases ws with
  | nil => exact absurd rfl h
  | cons w ws => rfl

theorem flatMap_operations_flushing (ws : List ω) :
    (flushing ws).flatMap operations = ws.map .write := by
  cases ws with
  | nil => rfl
  | cons w ws => exact List.append_nil _

/-- Writes at the front join the group that is being collected. -/
theorem groupFrom_map_write (ws vs : List ω) (ops : List (Staged ω)) :
    groupFrom ws (vs.map .write ++ ops) = groupFrom (ws ++ vs) ops := by
  induction vs generalizing ws with
  | nil => rw [List.map_nil, List.nil_append, List.append_nil]
  | cons v vs ih =>
    rw [List.map_cons, List.cons_append, groupFrom, ih, List.append_assoc, List.singleton_append]

theorem flatMap_operations_groupFrom (ws : List ω) (ops : List (Staged ω)) :
    (groupFrom ws ops).flatMap operations = ws.map .write ++ ops := by
  induction ops generalizing ws with
  | nil => rw [groupFrom, flatMap_operations_flushing, List.append_nil]
  | cons op ops ih =>
    cases op with
    | write w =>
      rw [groupFrom, ih, List.map_append, List.append_assoc]
      rfl
    | cascade c =>
      rw [groupFrom, List.flatMap_append, flatMap_operations_flushing, List.flatMap_cons, ih]
      rfl

theorem ne_nil_of_mem_flushing {ws vs : List ω} (h : flush vs ∈ flushing ws) : vs ≠ [] := by
  cases ws with
  | nil => cases h
  | cons w ws =>
    cases List.mem_singleton.mp h
    exact List.cons_ne_nil w ws

theorem ne_nil_of_mem_groupFrom {ws vs : List ω} (h : flush vs ∈ groupFrom ws ops) : vs ≠ [] := by
  induction ops generalizing ws with
  | nil => exact ne_nil_of_mem_flushing h
  | cons op ops ih =>
    cases op with
    | write w => exact ih h
    | cascade c =>
      rcases List.mem_append.mp h with h | h
      · exact ne_nil_of_mem_flushing h
      · rcases List.mem_cons.mp h with h | h
        · cases h
        · exact ih h

/-- A subtree operation stands between a group and the next one. -/
theorem isChain_groupFrom (ws : List ω) (ops : List (Staged ω)) :
    (groupFrom ws ops).IsChain fun c d => ¬ (c.IsFlush ∧ d.IsFlush) := by
  induction ops generalizing ws with
  | nil =>
    cases ws with
    | nil => exact .nil
    | cons w ws => exact .singleton _
  | cons op ops ih =>
    cases op with
    | write w => exact ih (ws ++ [w])
    | cascade c =>
      have hafter : (apply c :: groupFrom [] ops).IsChain fun c d => ¬ (c.IsFlush ∧ d.IsFlush) :=
        List.isChain_cons.mpr ⟨fun d _ h => h.1, ih []⟩
      cases ws with
      | nil => exact hafter
      | cons w ws => exact List.isChain_cons_cons.mpr ⟨fun h => h.2, hafter⟩

theorem isGrouping_group (ops : List (Staged ω)) : IsGrouping ops (group ops) where
  inOrder := flatMap_operations_groupFrom [] ops
  nonempty _ := ne_nil_of_mem_groupFrom
  apart := isChain_groupFrom [] ops

/-- By induction over the calls. A group is collected as a whole, since what comes behind it is no
write. -/
theorem IsGrouping.eq_group (h : IsGrouping ops calls) : calls = group ops := by
  induction calls generalizing ops with
  | nil =>
    cases h.inOrder
    rfl
  | cons call rest ih =>
    obtain ⟨rfl, hne, hapart⟩ := h
    have hrest : rest = group (rest.flatMap operations) :=
      ih ⟨rfl, fun ws hws => hne ws (List.mem_cons_of_mem call hws), hapart.tail⟩
    cases call with
    | apply c =>
      change apply c :: rest = apply c :: group (rest.flatMap operations)
      rw [← hrest]
    | flush ws =>
      have hws := flushing_of_ne_nil (hne ws List.mem_cons_self)
      change flush ws :: rest = groupFrom [] (ws.map .write ++ rest.flatMap operations)
      rw [groupFrom_map_write, List.nil_append]
      cases rest with
      | nil => exact hws.symm
      | cons next rest =>
        cases next with
        | flush vs => exact absurd ⟨trivial, trivial⟩ (List.isChain_cons_cons.mp hapart).1
        | apply c =>
          change _ = flushing ws ++ group ((apply c :: rest).flatMap operations)
          rw [hws, ← hrest]
          rfl

theorem IsGrouping.left {rest : List (Call ω)} (h : IsGrouping ops (calls ++ rest)) :
    IsGrouping (calls.flatMap Call.operations) calls where
  inOrder := rfl
  nonempty ws hws := h.nonempty ws (List.mem_append_left rest hws)
  apart := h.apart.left_of_append

theorem group_eq_nil_iff : group ops = [] ↔ ops = [] := by
  constructor
  · intro h
    have horder := (isGrouping_group ops).inOrder
    rw [h] at horder
    exact horder.symm
  · rintro rfl
    rfl

end Call
end ResourceIndex
