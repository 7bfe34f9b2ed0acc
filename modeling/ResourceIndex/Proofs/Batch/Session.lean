import ResourceIndex.Engine
import ResourceIndex.Proofs.Batch.Direct
/-
Sessions on a batch: changes and pushes in any order. A session that ends in a push and meets no
failure leads to the same state as its changes carried out one by one.
-/
namespace ResourceIndex

namespace StagedBatch

variable {σ ω : Type}

/-- The change that is asked for; a push asks for none. -/
def Request.change? : Request → Option Mutation
  | .change m => some m
  | .push => none

/-- The changes among the requests, in their order. -/
def changes (rs : List Request) : List Mutation := rs.filterMap Request.change?

theorem staged_of_ofSize {n : Nat} {b : StagedBatch ω} (h : ofSize n = .ok b) : b.staged = [] := by
  unfold ofSize at h
  split at h
  · cases h
    rfl
  · cases h

/-- What was asked for has succeeded, and carrying out what is still staged leads to `t`. -/
def Outcome.Settles (o : Outcome σ ω) (x : Executor σ ω) (t : σ) : Prop :=
  o.result = .ok () ∧ (x.performAll o.batch.staged).Takes o.state t

theorem push_settles {x : Executor σ ω} (hx : x.FlushSplits) (b : StagedBatch ω) (s t : σ) :
    (b.push x s).Settles x t ↔ (x.performAll b.staged).Takes s t := by
  simp only [push, Executor.run_group hx]
  unfold Outcome.Settles Action.Takes
  cases (x.performAll b.staged).run s with
  | mk result u =>
    change result = .ok () ∧ (pure () : Action σ Unit).Takes u t ↔ (result, u) = (.ok (), t)
    rw [Action.takes_pure, Prod.mk.injEq]

theorem stage_settles {x : Executor σ ω} (hx : x.FlushSplits) (b : StagedBatch ω)
    (op : Staged ω) (s t : σ) :
    (b.stage x op s).Settles x t ↔ (x.performAll (b.staged ++ [op])).Takes s t := by
  simp only [stage]
  split
  · exact push_settles hx _ s t
  · simp only [Outcome.Settles, true_and]

theorem submit_settles {x : Executor σ ω} (hx : x.FlushSplits) (b : StagedBatch ω)
    (m : Mutation) (s t : σ) :
    (b.submit x m s).Settles x t ↔ (do x.performAll b.staged; x.direct m).Takes s t := by
  simp only [submit]
  cases h : x.stageable m with
  | ok op =>
    rw [Executor.direct_of_stageable h, ← Executor.performAll_singleton,
      ← Executor.performAll_append]
    exact stage_settles hx b op s t
  | error e =>
    rw [Executor.direct_of_not_stageable h, Action.takes_bind]
    constructor
    · exact fun ho => nomatch ho.1
    · rintro ⟨u, -, hu⟩
      exact absurd hu Action.not_takes_throw

theorem serve_settles {x : Executor σ ω} (hx : x.FlushSplits) (b : StagedBatch ω)
    (r : Request) (s t : σ) :
    (b.serve x r s).Settles x t ↔
      (do x.performAll b.staged; x.directAll (changes [r])).Takes s t := by
  cases r with
  | change m =>
    have hm : x.directAll (changes [.change m]) = x.direct m := by
      simp only [changes, List.filterMap_cons, Request.change?, List.filterMap_nil,
        Executor.directAll, bind_pure_unit]
    rw [hm]
    exact submit_settles hx b m s t
  | push =>
    have hm : x.directAll (changes [.push]) = pure () := rfl
    rw [hm, bind_pure_unit]
    exact push_settles hx b s t

/-- Settling is kept by each request, so it carries over from a batch to all that is asked of it. -/
theorem serveAll_settles {x : Executor σ ω} (hx : x.FlushSplits) (b : StagedBatch ω)
    (rs : List Request) (s t : σ) :
    (b.serveAll x rs s).Settles x t ↔
      (do x.performAll b.staged; x.directAll (changes rs)).Takes s t := by
  induction rs generalizing b s with
  | nil =>
    have hm : x.directAll (changes []) = pure () := rfl
    rw [hm, bind_pure_unit]
    simp only [serveAll, Outcome.Settles, true_and]
  | cons r rs ih =>
    have hm : x.directAll (changes (r :: rs)) =
        (do x.directAll (changes [r]); x.directAll (changes rs)) := by
      rw [← Executor.directAll_append, changes, changes, changes, ← List.filterMap_append,
        List.singleton_append]
    rw [hm, ← bind_assoc, Action.takes_bind]
    simp only [← serve_settles hx b r s, serveAll]
    cases ho : b.serve x r s with
    | mk result b' s' =>
      cases result with
      | ok v =>
        rw [ih b' s', Action.takes_bind]
        simp only [Outcome.Settles, true_and]
      | error e =>
        constructor
        · exact fun h => nomatch h.1
        · rintro ⟨u, h, -⟩
          exact nomatch h.1

/-- A push leaves nothing staged, so a session that gets to its last push has settled. -/
theorem staged_serveAll_push (x : Executor σ ω) (b : StagedBatch ω) (rs : List Request) (s : σ)
    (h : (b.serveAll x (rs ++ [.push]) s).result = .ok ()) :
    (b.serveAll x (rs ++ [.push]) s).batch.staged = [] := by
  induction rs generalizing b s with
  | nil =>
    have hpush : (b.push x s).batch.staged = [] := rfl
    simp only [List.nil_append, serveAll, serve] at h ⊢
    cases ho : b.push x s with
    | mk result b' s' =>
      rw [ho] at hpush
      cases result with
      | ok v => exact hpush
      | error e => exact hpush
  | cons r rs ih =>
    simp only [List.cons_append, serveAll] at h ⊢
    cases ho : b.serve x r s with
    | mk result b' s' =>
      rw [ho] at h
      cases result with
      | ok v => exact ih b' s' h
      | error e => exact nomatch h

def Outcome.Succeeds (o : Outcome σ ω) (t : σ) : Prop := o.result = .ok () ∧ o.state = t

theorem serveAll_push_succeeds {x : Executor σ ω} (hx : x.FlushSplits) {b : StagedBatch ω}
    (hb : b.staged = []) (rs : List Request) (s t : σ) :
    (b.serveAll x (rs ++ [.push]) s).Succeeds t ↔ (x.directAll (changes rs)).Takes s t := by
  have hch : changes (rs ++ [.push]) = changes rs := by
    simp only [changes, List.filterMap_append, List.filterMap_cons, Request.change?,
      List.filterMap_nil, List.append_nil]
  have hall := serveAll_settles hx b (rs ++ [.push]) s t
  rw [hch, hb, Executor.performAll, pure_bind] at hall
  rw [← hall]
  constructor
  · rintro ⟨hok, ht⟩
    refine ⟨hok, ?_⟩
    rw [staged_serveAll_push x b rs s hok]
    exact Action.takes_pure.mpr ht
  · rintro ⟨hok, ht⟩
    rw [staged_serveAll_push x b rs s hok] at ht
    exact ⟨hok, Action.takes_pure.mp ht⟩

end StagedBatch

namespace Engine

variable {σ ω : Type}

/-- A change that comes alone does not fill its batch, and the push carries out nothing else. -/
theorem submit_eq_direct {e : Engine σ ω} (he : e.openBatch = StagedBatch.ofSize) (m : Mutation) :
    e.submit m = e.direct m := by
  have hopen : e.openBatch singleBatchSize = .ok ⟨singleBatchSize, by decide, []⟩ := by
    rw [he]
    rfl
  funext s
  simp only [submit, submitAll, hopen, StagedBatch.submitAll, StagedBatch.submit]
  cases h : e.stageable m with
  | error error =>
    rw [Executor.direct_of_not_stageable h]
    rfl
  | ok op =>
    have hrun : e.run (Call.group [op]) = e.perform op := by
      cases op with
      | write w => exact bind_pure_unit
      | cascade c => exact bind_pure_unit
    rw [Executor.direct_of_stageable h, ← hrun]
    rfl

end Engine
end ResourceIndex
