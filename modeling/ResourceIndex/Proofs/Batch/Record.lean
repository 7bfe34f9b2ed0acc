import ResourceIndex.Proofs.Batch.Groups
/-
An executor with an account of the calls that it is asked for and of its answers. Calls are made in
their order, and the first one that fails is the last one that is made.
-/
namespace ResourceIndex

/-- A call that was made, and how it was answered. -/
structure Answered (ω : Type) where
  call : Call ω
  result : Except IndexError Unit
deriving DecidableEq

/-- Calls that all succeed, as they stand in an account. -/
def Answered.succeeded {ω : Type} (calls : List (Call ω)) : List (Answered ω) :=
  calls.map fun c => ⟨c, .ok ()⟩

theorem Answered.map_call_succeeded {ω : Type} (calls : List (Call ω)) :
    (succeeded calls).map (·.call) = calls := by
  rw [succeeded, List.map_map]
  exact List.map_id calls

theorem Answered.flatMap_succeeded {ω : Type} (calls : List (Call ω)) :
    (succeeded calls).flatMap (·.call.operations) = calls.flatMap Call.operations := by
  rw [succeeded, List.flatMap_map]

namespace Executor

variable {σ ω : Type} {x : Executor σ ω} {calls done : List (Call ω)} {failed : Call ω}
  {e : IndexError} {s u t : σ}

/-- Makes a call and puts it behind the account. -/
def noted (x : Executor σ ω) (c : Call ω) : Action (σ × List (Answered ω)) Unit := fun s =>
  let answer := (x.call c).run s.1
  (answer.1, answer.2, s.2 ++ [⟨c, answer.1⟩])

/-- The executor with an account of its calls. -/
def recorded (x : Executor σ ω) : Executor (σ × List (Answered ω)) ω where
  prepare := x.prepare
  flush writes := x.noted (.flush writes)
  apply c := x.noted (.apply c)

/-- The calls that are made, up to the first that fails, with their answers. -/
def answers (x : Executor σ ω) : List (Call ω) → σ → List (Answered ω)
  | [], _ => []
  | c :: cs, s =>
    match (x.call c).run s with
    | (.ok (), t) => ⟨c, .ok ()⟩ :: x.answers cs t
    | (.error e, _) => [⟨c, .error e⟩]

/-- The calls of `done` succeed one after another and lead to `u`, and there `failed` gives the
error and leaves the state `t`. -/
structure FailsAt (x : Executor σ ω) (done : List (Call ω)) (failed : Call ω) (e : IndexError)
    (s u t : σ) : Prop where
  succeed : (x.run done).Takes s u
  fails : (x.call failed).run u = (.error e, t)

theorem run_call_recorded (x : Executor σ ω) (c : Call ω) (s : σ) (log : List (Answered ω)) :
    (x.recorded.call c).run (s, log) =
      (((x.call c).run s).1, ((x.call c).run s).2, log ++ [⟨c, ((x.call c).run s).1⟩]) := by
  cases c with
  | flush writes => rfl
  | apply c => rfl

/-- The account changes nothing of what calls do. -/
theorem run_recorded (x : Executor σ ω) (calls : List (Call ω)) (s : σ)
    (log : List (Answered ω)) :
    (x.recorded.run calls).run (s, log) =
      (((x.run calls).run s).1, ((x.run calls).run s).2, log ++ x.answers calls s) := by
  induction calls generalizing s log with
  | nil =>
    rw [answers, List.append_nil]
    rfl
  | cons c cs ih =>
    rw [run, run, Action.run_bind, Action.run_bind, run_call_recorded, answers]
    cases (x.call c).run s with
    | mk result t =>
      cases result with
      | ok v => exact (ih t _).trans (by rw [List.append_assoc]; rfl)
      | error e => rfl

theorem map_call_answers_prefix (x : Executor σ ω) (calls : List (Call ω)) (s : σ) :
    (x.answers calls s).map (·.call) <+: calls := by
  induction calls generalizing s with
  | nil => exact List.prefix_refl []
  | cons c cs ih =>
    rw [answers]
    split
    · exact List.cons_prefix_cons.mpr ⟨rfl, ih _⟩
    · exact List.cons_prefix_cons.mpr ⟨rfl, List.nil_prefix⟩

theorem answers_eq_nil_iff : x.answers calls s = [] ↔ calls = [] := by
  cases calls with
  | nil => exact ⟨fun _ => rfl, fun _ => rfl⟩
  | cons c cs =>
    rw [answers]
    split
    · simp only [List.cons_ne_nil]
    · simp only [List.cons_ne_nil]

theorem answers_of_takes (h : (x.run calls).Takes s t) :
    x.answers calls s = Answered.succeeded calls := by
  induction calls generalizing s with
  | nil => rfl
  | cons c cs ih =>
    obtain ⟨u, hc, hrest⟩ := Action.takes_bind.mp h
    have hrun : (x.call c).run s = (.ok (), u) := hc
    rw [answers, hrun]
    exact congrArg _ (ih hrest)

/-- Either all calls succeed, or there is a first one that fails. -/
theorem takes_or_failsAt (x : Executor σ ω) (calls : List (Call ω)) (s : σ) :
    (∃ t, (x.run calls).Takes s t) ∨
      ∃ done failed rest e u t, calls = done ++ failed :: rest ∧
        x.FailsAt done failed e s u t := by
  induction calls generalizing s with
  | nil => exact .inl ⟨s, rfl⟩
  | cons c calls ih =>
    cases hc : (x.call c).run s with
    | mk result u =>
      cases result with
      | error e => exact .inr ⟨[], c, calls, e, s, u, rfl, rfl, hc⟩
      | ok v =>
        rcases ih u with ⟨t, ht⟩ | ⟨done, failed, rest, e, w, t, rfl, hdone, hfailed⟩
        · exact .inl ⟨t, Action.takes_bind.mpr ⟨u, hc, ht⟩⟩
        · refine .inr ⟨c :: done, failed, rest, e, w, t, rfl, ?_, hfailed⟩
          exact Action.takes_bind.mpr ⟨u, hc, hdone⟩

theorem FailsAt.run_append (h : x.FailsAt done failed e s u t) (rest : List (Call ω)) :
    (x.run (done ++ failed :: rest)).run s = (.error e, t) := by
  obtain ⟨hdone, hfailed⟩ := h
  have hrun : (x.run done).run s = (.ok (), u) := hdone
  rw [Executor.run_append, Action.run_bind, hrun, run]
  exact (Action.run_bind _ _ u).trans (by rw [hfailed])

theorem FailsAt.answers_append (h : x.FailsAt done failed e s u t) (rest : List (Call ω)) :
    x.answers (done ++ failed :: rest) s = Answered.succeeded done ++ [⟨failed, .error e⟩] := by
  obtain ⟨hdone, hfailed⟩ := h
  induction done generalizing s with
  | nil =>
    cases Action.takes_pure.mp hdone
    rw [List.nil_append, answers, hfailed]
    rfl
  | cons c done ih =>
    obtain ⟨v, hc, hrest⟩ := Action.takes_bind.mp hdone
    have hrun : (x.call c).run s = (.ok (), v) := hc
    rw [List.cons_append, answers, hrun]
    exact congrArg _ (ih hrest)

/-- If groups may be carried out in parts, the first calls of a grouping do what their operations do
one by one. -/
theorem run_of_isGrouping_append (hx : x.FlushSplits) {ops : List (Staged ω)}
    (h : Call.IsGrouping ops (done ++ calls)) :
    x.run done = x.performAll (done.flatMap Call.operations) := by
  rw [← run_group hx, ← h.left.eq_group]

end Executor
end ResourceIndex
