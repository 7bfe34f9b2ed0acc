import Mathlib.Data.List.Induction
import ResourceIndex.Debounce.Schedule
/-
Reading the history of a space. What waits, what is carried by a reindex, and what has been
acknowledged or dropped can all be told from what has happened to the space so far.
-/
namespace ResourceIndex.Debouncer

variable {α : Type}

namespace Happening

@[simp] def taken : Happening α → List α
  | .asked _ ack => [ack]
  | _ => []

@[simp] def refusal : Happening α → List α
  | .refused _ ack => [ack]
  | _ => []

/-- The request that is made, whether it is taken or not. -/
@[simp] def made : Happening α → List α
  | .asked _ ack | .refused _ ack => [ack]
  | _ => []

@[simp] def acked : Happening α → List α
  | .ended _ acks => acks
  | _ => []

@[simp] def lost : Happening α → List α
  | .dropped _ acks => acks
  | _ => []

/-- After it no burst waits. -/
@[simp] def closes : Happening α → Bool
  | .started .. | .dropped .. => true
  | _ => false

/-- What the running reindex carries after it, if it carried something before. -/
@[simp] def carried (before : Option (List α)) : Happening α → Option (List α)
  | .started _ acks => some acks
  | .ended .. => none
  | _ => before

@[simp] def isAsked : Happening α → Bool
  | .asked .. => true
  | _ => false

@[simp] def isPostponed : Happening α → Bool
  | .postponed _ => true
  | _ => false

@[simp] def isEnded : Happening α → Bool
  | .ended .. => true
  | _ => false

end Happening

open Happening

variable {h before behind : List (Nat × Happening α)} {e : Nat × Happening α} {acks : List α}

def takenIn (h : List (Nat × Happening α)) : List α := h.flatMap fun e => e.2.taken

def refusedIn (h : List (Nat × Happening α)) : List α := h.flatMap fun e => e.2.refusal

def madeIn (h : List (Nat × Happening α)) : List α := h.flatMap fun e => e.2.made

def ackedIn (h : List (Nat × Happening α)) : List α := h.flatMap fun e => e.2.acked

def lostIn (h : List (Nat × Happening α)) : List α := h.flatMap fun e => e.2.lost

/-- What has happened since the last reindex started or the last burst was dropped. -/
def current (h : List (Nat × Happening α)) : List (Nat × Happening α) :=
  h.foldl (fun l e => if e.2.closes then [] else l ++ [e]) []

/-- What the reindex carries that has started last, unless it has ended. -/
def carriedIn (h : List (Nat × Happening α)) : Option (List α) :=
  h.foldl (fun c e => e.2.carried c) none

def Cancelled (h : List (Nat × Happening α)) : Prop := ∃ time, (time, .cancelled) ∈ h

def times (p : Happening α → Bool) (h : List (Nat × Happening α)) : List Nat :=
  (h.filter fun e => p e.2).map Prod.fst

@[simp] theorem takenIn_nil : takenIn ([] : List (Nat × Happening α)) = [] := rfl

@[simp] theorem takenIn_append (h h' : List (Nat × Happening α)) :
    takenIn (h ++ h') = takenIn h ++ takenIn h' := List.flatMap_append

@[simp] theorem ackedIn_append (h h' : List (Nat × Happening α)) :
    ackedIn (h ++ h') = ackedIn h ++ ackedIn h' := List.flatMap_append

@[simp] theorem lostIn_append (h h' : List (Nat × Happening α)) :
    lostIn (h ++ h') = lostIn h ++ lostIn h' := List.flatMap_append

@[simp] theorem takenIn_singleton (e : Nat × Happening α) : takenIn [e] = e.2.taken :=
  List.flatMap_singleton _ e

@[simp] theorem ackedIn_singleton (e : Nat × Happening α) : ackedIn [e] = e.2.acked :=
  List.flatMap_singleton _ e

@[simp] theorem lostIn_singleton (e : Nat × Happening α) : lostIn [e] = e.2.lost :=
  List.flatMap_singleton _ e

@[simp] theorem current_concat (h : List (Nat × Happening α)) (e : Nat × Happening α) :
    current (h ++ [e]) = if e.2.closes then [] else current h ++ [e] := by
  simp [current, List.foldl_append]

@[simp] theorem carriedIn_concat (h : List (Nat × Happening α)) (e : Nat × Happening α) :
    carriedIn (h ++ [e]) = e.2.carried (carriedIn h) := by
  simp [carriedIn, List.foldl_append]

theorem cancelled_concat (h : List (Nat × Happening α)) (e : Nat × Happening α) :
    Cancelled (h ++ [e]) ↔ Cancelled h ∨ e.2 = .cancelled := by
  unfold Cancelled
  constructor
  · rintro ⟨time, hmem⟩
    rcases List.mem_append.mp hmem with hmem | hmem
    · exact .inl ⟨time, hmem⟩
    · exact .inr (congrArg Prod.snd (List.mem_singleton.mp hmem)).symm
  · rintro (⟨time, hmem⟩ | he)
    · exact ⟨time, List.mem_append_left _ hmem⟩
    · exact ⟨e.1, List.mem_append_right _ (List.mem_singleton.mpr (Prod.ext rfl he.symm))⟩

@[simp] theorem times_concat (p : Happening α → Bool) (h : List (Nat × Happening α))
    (e : Nat × Happening α) : times p (h ++ [e]) = times p h ++ if p e.2 then [e.1] else [] := by
  unfold times
  by_cases hp : p e.2 <;> simp [hp]

theorem madeIn_perm (h : List (Nat × Happening α)) :
    (madeIn h).Perm (takenIn h ++ refusedIn h) := by
  induction h with
  | nil => exact .refl _
  | cons e h ih =>
    obtain ⟨time, happening⟩ := e
    cases happening with
    | asked space ack => exact ih.cons ack
    | refused space ack => exact (ih.cons ack).trans List.perm_middle.symm
    | _ => exact ih

theorem current_suffix (h : List (Nat × Happening α)) :
    ∃ before, h = before ++ current h ∧ ∀ e ∈ current h, e.2.closes = false := by
  induction h using List.reverseRecOn with
  | nil => exact ⟨[], rfl, fun e he => absurd he List.not_mem_nil⟩
  | append_singleton h e ih =>
    obtain ⟨before, hbefore, hopen⟩ := ih
    rw [current_concat]
    split
    · exact ⟨h ++ [e], (List.append_nil _).symm, fun e he => absurd he List.not_mem_nil⟩
    · rename_i hcloses
      refine ⟨before, by rw [← List.append_assoc, ← hbefore], ?_⟩
      intro f hf
      rcases List.mem_append.mp hf with hf | hf
      · exact hopen f hf
      · rw [List.mem_singleton.mp hf]
        exact Bool.eq_false_iff.mpr hcloses

/-- A reindex that carries requests has started, and nothing has come of them since. -/
theorem exists_started (h : List (Nat × Happening α)) (hc : carriedIn h = some acks) :
    ∃ before time space behind, h = before ++ (time, .started space acks) :: behind ∧
      ∀ e ∈ behind, ∀ c, e.2.carried c = c := by
  induction h using List.reverseRecOn with
  | nil => cases hc
  | append_singleton h e ih =>
    rw [carriedIn_concat] at hc
    have hlater : (∀ c, e.2.carried c = c) → ∃ before time space behind,
        h ++ [e] = before ++ (time, .started space acks) :: behind ∧
          ∀ e ∈ behind, ∀ c, e.2.carried c = c := by
      intro he
      rw [he] at hc
      obtain ⟨before, time, space, behind, hh, hbehind⟩ := ih hc
      refine ⟨before, time, space, behind ++ [e], by simp [hh], ?_⟩
      intro f hf
      rcases List.mem_append.mp hf with hf | hf
      · exact hbehind f hf
      · rwa [List.mem_singleton.mp hf]
    obtain ⟨time, happening⟩ := e
    cases happening with
    | started space carried =>
      obtain rfl : carried = acks := Option.some.inj hc
      exact ⟨h, time, space, [], rfl, fun e he => absurd he List.not_mem_nil⟩
    | ended => cases hc
    | _ => exact hlater fun _ => rfl

/-- What is said of all that happens holds of everything with what has happened before. -/
def Throughout (P : List (Nat × Happening α) → Nat × Happening α → Prop)
    (h : List (Nat × Happening α)) : Prop :=
  ∀ before e behind, h = before ++ e :: behind → P before e

variable {P : List (Nat × Happening α) → Nat × Happening α → Prop}

theorem throughout_nil : Throughout P [] := fun before _ _ h =>
  absurd (congrArg List.length h) (by simp)

theorem throughout_concat : Throughout P (h ++ [e]) ↔ Throughout P h ∧ P h e := by
  constructor
  · intro hall
    refine ⟨?_, hall h e [] rfl⟩
    intro before f behind hh
    exact hall before f (behind ++ [e]) (by simp [hh])
  · rintro ⟨hall, he⟩ before f behind hh
    rcases List.eq_nil_or_concat behind with rfl | ⟨behind, g, rfl⟩
    · obtain ⟨rfl, hfe⟩ := List.append_inj' hh rfl
      cases hfe
      exact he
    · rw [List.concat_eq_append, ← List.cons_append, ← List.append_assoc] at hh
      exact hall before f behind (List.append_inj' hh rfl).1

end ResourceIndex.Debouncer
