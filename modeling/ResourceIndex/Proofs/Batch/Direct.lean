import ResourceIndex.Batch
/-
Changes that go through a batch have the effect of the same changes one by one, whatever the size
of the batch and wherever it is pushed, if a group of writes may be carried out in parts.
-/
namespace ResourceIndex

namespace Action

variable {σ : Type}

/-- The action succeeds and leads from one state to another. -/
def Takes (a : Action σ Unit) (s t : σ) : Prop := a.run s = (.ok (), t)

theorem takes_pure {s t : σ} : (pure () : Action σ Unit).Takes s t ↔ s = t := by
  constructor
  · exact fun h => congrArg Prod.snd h
  · exact fun h => h ▸ rfl

theorem not_takes_throw {e : IndexError} {s t : σ} : ¬ (throw e : Action σ Unit).Takes s t := by
  intro h
  cases congrArg Prod.fst h

theorem run_bind (a b : Action σ Unit) (s : σ) :
    (do a; b : Action σ Unit).run s =
      match a.run s with
      | (.ok (), u) => b.run u
      | (.error e, u) => (.error e, u) := by
  change (ExceptT.bindCont (fun _ => b) (a.run s).1) (a.run s).2 = _
  cases h : a.run s with
  | mk result u =>
    cases result with
    | ok v => rfl
    | error e => rfl

theorem run_get_bind {α : Type} (f : σ → Action σ α) (s : σ) :
    (do f (← get) : Action σ α).run s = (f s).run s := rfl

theorem run_bind_of_ok {α β : Type} {a : Action σ α} {x : α} {s u : σ} (h : a.run s = (.ok x, u))
    (f : α → Action σ β) : (a >>= f).run s = (f x).run u := by
  change (ExceptT.bindCont f (a.run s).1) (a.run s).2 = _
  rw [h]
  rfl

theorem run_ofExcept {α : Type} (e : Except IndexError α) (s : σ) :
    (ofExcept e : Action σ α).run s = (e, s) := rfl

theorem takes_bind {a b : Action σ Unit} {s t : σ} :
    (do a; b : Action σ Unit).Takes s t ↔ ∃ u, a.Takes s u ∧ b.Takes u t := by
  unfold Takes
  rw [run_bind]
  cases h : a.run s with
  | mk result u =>
    cases result with
    | ok v =>
      constructor
      · exact fun hb => ⟨u, rfl, hb⟩
      · rintro ⟨u', hu, hb⟩
        cases hu
        exact hb
    | error e =>
      constructor
      · intro hb
        cases congrArg Prod.fst hb
      · rintro ⟨u', hu, -⟩
        cases congrArg Prod.fst hu

end Action

namespace Executor

variable {σ ω : Type}

/-- A group of writes has the effect of its two parts, one after the other. -/
def FlushSplits (x : Executor σ ω) : Prop :=
  ∀ ws vs, x.flush (ws ++ vs) = (do x.flush ws; x.flush vs)

/-- Carries out a staged operation by itself. -/
def perform (x : Executor σ ω) : Staged ω → Action σ Unit
  | .write w => x.flush [w]
  | .cascade c => x.apply c

def performAll (x : Executor σ ω) : List (Staged ω) → Action σ Unit
  | [] => pure ()
  | op :: ops => do
    x.perform op
    x.performAll ops

/-- Carries out a change by itself: an upsert is a group of one write. -/
def direct (x : Executor σ ω) : Mutation → Action σ Unit
  | .upsert id resource => do
    let w ← Action.ofExcept (x.prepare id resource)
    x.flush [w]
  | .cascade c => x.apply c

def directAll (x : Executor σ ω) : List Mutation → Action σ Unit
  | [] => pure ()
  | m :: ms => do
    x.direct m
    x.directAll ms

theorem direct_of_stageable {x : Executor σ ω} {m : Mutation} {op : Staged ω}
    (h : x.stageable m = .ok op) : x.direct m = x.perform op := by
  cases m with
  | upsert id resource =>
    cases hp : x.prepare id resource with
    | ok w =>
      simp only [stageable, hp, Except.map, Except.ok.injEq] at h
      subst h
      simp only [direct, hp, perform]
      rfl
    | error e => simp only [stageable, hp, Except.map, reduceCtorEq] at h
  | cascade c =>
    simp only [stageable, Except.ok.injEq] at h
    subst h
    rfl

theorem direct_of_not_stageable {x : Executor σ ω} {m : Mutation} {e : IndexError}
    (h : x.stageable m = .error e) : x.direct m = throw e := by
  cases m with
  | upsert id resource =>
    cases hp : x.prepare id resource with
    | ok w => simp only [stageable, hp, Except.map, reduceCtorEq] at h
    | error e' =>
      simp only [stageable, hp, Except.map, Except.error.injEq] at h
      subst h
      simp only [direct, hp]
      rfl
  | cascade c => simp only [stageable, reduceCtorEq] at h

theorem performAll_append (x : Executor σ ω) (ops rest : List (Staged ω)) :
    x.performAll (ops ++ rest) = (do x.performAll ops; x.performAll rest) := by
  induction ops with
  | nil => simp only [List.nil_append, performAll, pure_bind]
  | cons op ops ih => simp only [List.cons_append, performAll, ih, bind_assoc]

theorem performAll_singleton (x : Executor σ ω) (op : Staged ω) :
    x.performAll [op] = x.perform op := by
  simp only [performAll, bind_pure_unit]

theorem directAll_append (x : Executor σ ω) (ms ns : List Mutation) :
    x.directAll (ms ++ ns) = (do x.directAll ms; x.directAll ns) := by
  induction ms with
  | nil => simp only [List.nil_append, directAll, pure_bind]
  | cons m ms ih => simp only [List.cons_append, directAll, ih, bind_assoc]

theorem run_append (x : Executor σ ω) (cs ds : List (Call ω)) :
    x.run (cs ++ ds) = (do x.run cs; x.run ds) := by
  induction cs with
  | nil => simp only [List.nil_append, run, pure_bind]
  | cons c cs ih => simp only [List.cons_append, run, ih, bind_assoc]

theorem run_flushing_append {x : Executor σ ω} (hx : x.FlushSplits) (ws : List ω) (w : ω) :
    x.run (Call.flushing (ws ++ [w])) = (do x.run (Call.flushing ws); x.flush [w]) := by
  cases ws with
  | nil => simp only [List.nil_append, Call.flushing, run, call, pure_bind, bind_pure_unit]
  | cons v vs =>
    have hsplit := hx (v :: vs) [w]
    simp only [List.cons_append] at hsplit
    simp only [List.cons_append, Call.flushing, run, call, bind_pure_unit, hsplit]

/-- The writes that were collected come first, then what is still staged, one by one. -/
theorem run_groupFrom {x : Executor σ ω} (hx : x.FlushSplits) (ws : List ω)
    (ops : List (Staged ω)) :
    x.run (Call.groupFrom ws ops) = (do x.run (Call.flushing ws); x.performAll ops) := by
  induction ops generalizing ws with
  | nil => simp only [Call.groupFrom, performAll, bind_pure_unit]
  | cons op ops ih =>
    cases op with
    | write w =>
      simp only [Call.groupFrom, performAll, perform, ih, run_flushing_append hx, bind_assoc]
    | cascade c =>
      simp only [Call.groupFrom, performAll, perform, run_append, run, call, ih, Call.flushing,
        pure_bind]

theorem run_group {x : Executor σ ω} (hx : x.FlushSplits) (ops : List (Staged ω)) :
    x.run (Call.group ops) = x.performAll ops := by
  simp only [Call.group, run_groupFrom hx, Call.flushing, run, pure_bind]

end Executor
end ResourceIndex
