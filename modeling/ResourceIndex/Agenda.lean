/-
What is to happen at given times. Entries are kept in the order of their times, and of entries with
one time the one that was added first comes first.
-/
namespace ResourceIndex

structure Agenda (τ : Type) where
  entries : List (Nat × τ)
deriving Repr

namespace Agenda

variable {τ : Type}

def empty : Agenda τ := ⟨[]⟩

/-- Puts an entry behind all that are due by its time. -/
def insert (time : Nat) (x : τ) : List (Nat × τ) → List (Nat × τ)
  | [] => [(time, x)]
  | (t, y) :: rest => if t ≤ time then (t, y) :: insert time x rest else (time, x) :: (t, y) :: rest

def add (a : Agenda τ) (time : Nat) (x : τ) : Agenda τ := ⟨insert time x a.entries⟩

def addAll (a : Agenda τ) : List (Nat × τ) → Agenda τ
  | [] => a
  | (time, x) :: rest => (a.add time x).addAll rest

def filter (keep : τ → Bool) (a : Agenda τ) : Agenda τ := ⟨a.entries.filter fun e => keep e.2⟩

/-- The first entry if it is due by a time, and the agenda without it. -/
def due? (a : Agenda τ) (t : Nat) : Option ((Nat × τ) × Agenda τ) :=
  match a.entries with
  | [] => none
  | (time, x) :: rest => if time ≤ t then some ((time, x), ⟨rest⟩) else none

def total {α : Type} (w : α → Nat) : List α → Nat
  | [] => 0
  | x :: l => w x + total w l

@[simp] theorem total_nil {α : Type} (w : α → Nat) : total w [] = 0 := rfl

@[simp] theorem total_cons {α : Type} (w : α → Nat) (x : α) (l : List α) :
    total w (x :: l) = w x + total w l := rfl

theorem total_map {α β : Type} (w : β → Nat) (f : α → β) (l : List α) :
    total w (l.map f) = total (fun x => w (f x)) l := by
  induction l with
  | nil => rfl
  | cons x l ih => simp [ih]

def weigh (w : Nat × τ → Nat) (a : Agenda τ) : Nat := total w a.entries

theorem total_insert (w : Nat × τ → Nat) (time : Nat) (x : τ) (l : List (Nat × τ)) :
    total w (insert time x l) = total w l + w (time, x) := by
  induction l with
  | nil => simp [insert]
  | cons e rest ih =>
    obtain ⟨t, y⟩ := e
    by_cases h : t ≤ time
    · simp [insert, h, ih]; omega
    · simp [insert, h]; omega

theorem insert_eq_append (time : Nat) (x : τ) (l : List (Nat × τ)) :
    ∃ before behind, l = before ++ behind ∧ insert time x l = before ++ (time, x) :: behind := by
  induction l with
  | nil => exact ⟨[], [], rfl, rfl⟩
  | cons e rest ih =>
    obtain ⟨t, y⟩ := e
    unfold insert
    split
    · obtain ⟨before, behind, hl, hins⟩ := ih
      exact ⟨(t, y) :: before, behind, by rw [hl, List.cons_append], by rw [hins, List.cons_append]⟩
    · exact ⟨[], (t, y) :: rest, rfl, rfl⟩

theorem weigh_add (w : Nat × τ → Nat) (a : Agenda τ) (time : Nat) (x : τ) :
    (a.add time x).weigh w = a.weigh w + w (time, x) :=
  total_insert w time x a.entries

theorem weigh_addAll (w : Nat × τ → Nat) (a : Agenda τ) (l : List (Nat × τ)) :
    (a.addAll l).weigh w = a.weigh w + total w l := by
  induction l generalizing a with
  | nil => simp [addAll]
  | cons e rest ih =>
    obtain ⟨time, x⟩ := e
    simp [addAll, ih, weigh_add]; omega

theorem due?_eq_some {a rest : Agenda τ} {t : Nat} {e : Nat × τ} (h : a.due? t = some (e, rest)) :
    a.entries = e :: rest.entries ∧ e.1 ≤ t := by
  unfold due? at h
  split at h
  · simp at h
  · rename_i time x tail heq
    split at h
    · simp only [Option.some.injEq, Prod.mk.injEq] at h
      obtain ⟨rfl, rfl⟩ := h
      exact ⟨heq, by assumption⟩
    · simp at h

end Agenda

end ResourceIndex
