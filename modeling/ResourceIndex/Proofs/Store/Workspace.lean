import Mathlib.Data.Set.Card
import ResourceIndex.Proofs.Batch.Pushes
import ResourceIndex.Proofs.Store.Reachable
/-
Any number of batches on one store, of any sizes and in use side by side. A call may be hindered,
by a missing document or from outside; the requests that come after a failed one are served like
any others. The store stays sound in all of this.
-/
namespace ResourceIndex

/-- An action beside a list of errors, one for each time it is to fail. Then it leaves the state
as it was: what is written in one step is rolled back as one. -/
def Action.interruptible {σ : Type} (a : Action σ Unit) :
    Action (σ × List (Option IndexError)) Unit := fun s =>
  match s.2 with
  | some e :: faults => (.error e, (s.1, faults))
  | faults => ((a.run s.1).1, ((a.run s.1).2, faults.tail))

/-- An interrupted action has done all of its work or none. -/
theorem Action.run_interruptible {σ : Type} (a : Action σ Unit) (s : σ)
    (faults : List (Option IndexError)) :
    (a.interruptible.run (s, faults)).2.1 = s ∨
      (a.interruptible.run (s, faults)).2.1 = (a.run s).2 := by
  match faults with
  | [] => exact .inr rfl
  | none :: faults => exact .inr rfl
  | some e :: faults => exact .inl rfl

namespace Executor

variable {σ ω : Type} {calls : List (Call ω)}

/-- The executor with calls that fail at will: the i-th call with the i-th error, if there is
one. -/
def interruptible (x : Executor σ ω) : Executor (σ × List (Option IndexError)) ω where
  prepare := x.prepare
  flush writes := (x.flush writes).interruptible
  apply c := (x.apply c).interruptible

theorem call_interruptible (x : Executor σ ω) (c : Call ω) :
    x.interruptible.call c = (x.call c).interruptible := by
  cases c with
  | flush writes => rfl
  | apply c => rfl

/-- What each call keeps is kept by all of them, up to the first that fails and with it. -/
theorem run_keeps {x : Executor σ ω} {P : σ → Prop}
    (h : ∀ c ∈ calls, ∀ s, P s → P ((x.call c).run s).2) {s : σ} (hs : P s) :
    P ((x.run calls).run s).2 := by
  induction calls generalizing s with
  | nil => exact hs
  | cons c calls ih =>
    obtain ⟨hc, hrest⟩ := List.forall_mem_cons.mp h
    have hone := hc s hs
    rw [run, Action.run_bind]
    cases hcall : (x.call c).run s with
    | mk result t =>
      rw [hcall] at hone
      cases result with
      | ok v => exact ih hrest hone
      | error e => exact hone

end Executor

namespace Store

section

variable [RegexBuilder] {s : Store}

theorem Reachable.writeAll (hs : s.Reachable) {ws : List StoreWrite}
    (hws : ∀ w ∈ ws, Submitted (.write w)) : (s.writeAll ws).Reachable := by
  induction ws generalizing s with
  | nil => exact hs
  | cons w ws ih =>
    obtain ⟨⟨id, r, rfl⟩, hrest⟩ := List.forall_mem_cons.mp hws
    exact ih (hs.put id r) hrest

theorem Reachable.call (hs : s.Reachable) {c : Call StoreWrite}
    (hc : ∀ op ∈ c.operations, Submitted op) : ((executor.call c).run s).2.Reachable := by
  cases c with
  | flush ws => exact hs.writeAll fun w hw => hc _ (List.mem_map_of_mem hw)
  | apply c =>
    have hop : Submitted (.cascade c) := trivial
    exact hs.perform hop

theorem Reachable.call_interruptible (hs : s.Reachable) {c : Call StoreWrite}
    (hc : ∀ op ∈ c.operations, Submitted op) (faults : List (Option IndexError)) :
    ((executor.interruptible.call c).run (s, faults)).2.1.Reachable := by
  rw [Executor.call_interruptible]
  rcases Action.run_interruptible (executor.call c) s faults with h | h
  · rwa [h]
  · rw [h]
    exact hs.call hc

/-- Calls for submitted operations keep a reachable store reachable, wherever they are
interrupted. -/
theorem Reachable.run_interruptible (hs : s.Reachable) {ops : List (Staged StoreWrite)}
    (hops : ∀ op ∈ ops, Submitted op) (faults : List (Option IndexError)) :
    ((executor.interruptible.run (Call.group ops)).run (s, faults)).2.1.Reachable := by
  refine Executor.run_keeps (P := fun u : Store × List (Option IndexError) => u.1.Reachable) ?_ hs
  intro c hc u hu
  refine hu.call_interruptible ?_ u.2
  intro op hop
  refine hops op ?_
  rw [← (Call.isGrouping_group ops).inOrder]
  exact List.mem_flatMap_of_mem hc hop

theorem submitted_of_stageable {m : Mutation} {op : Staged StoreWrite}
    (h : executor.stageable m = .ok op) : Submitted op := by
  cases m with
  | upsert id resource =>
    cases h
    exact ⟨id, resource, rfl⟩
  | cascade c =>
    cases h
    trivial

open StagedBatch in
/-- A request with any interruptions leads from a reachable store to a reachable one, and what it
leaves in the batch was submitted. -/
theorem Reachable.serve_interruptible (hs : s.Reachable) {b : StagedBatch StoreWrite}
    (hb : ∀ op ∈ b.staged, Submitted op) (r : Request) (faults : List (Option IndexError)) :
    let o := b.serve executor.interruptible r (s, faults)
    o.state.1.Reachable ∧ ∀ op ∈ o.batch.staged, Submitted op := by
  rcases pushes_or_waits_or_unprepared executor.interruptible b r with
    ⟨ops, hpush⟩ | ⟨m, op, rfl, hop, hwaits⟩ | ⟨m, e, rfl, hm⟩
  · have hops : ∀ op ∈ ops, Submitted op := by
      cases hpush with
      | asked => exact hb
      | filled hop hfull =>
        exact List.forall_mem_append.mpr
          ⟨hb, List.forall_mem_singleton.mpr (submitted_of_stageable hop)⟩
    rw [serve_of_pushes hpush]
    exact ⟨hs.run_interruptible hops faults, fun op hop => absurd hop List.not_mem_nil⟩
  · rw [serve_of_waits hop hwaits]
    exact ⟨hs, List.forall_mem_append.mpr
      ⟨hb, List.forall_mem_singleton.mpr (submitted_of_stageable hop)⟩⟩
  · rw [serve_of_unprepared hm]
    exact ⟨hs, hb⟩

/-- A store and the batches that were opened on it. -/
structure Workspace where
  store : Store
  batches : List (StagedBatch StoreWrite)

namespace Workspace

/-- What can be asked for: one more batch, or something of one of the batches, with the errors of
the calls that fail meanwhile. -/
inductive Order where
  | openBatch (size : Nat) : Order
  | ask (batch : Nat) (request : StagedBatch.Request) (faults : List (Option IndexError)) : Order

def perform (w : Workspace) : Order → Workspace
  | .openBatch size =>
    match engine.openBatch size with
    | .ok b => { w with batches := w.batches ++ [b] }
    | .error _ => w
  | .ask batch request faults =>
    match w.batches[batch]? with
    | some b =>
      let o := b.serve engine.interruptible request (w.store, faults)
      ⟨o.state.1, w.batches.set batch o.batch⟩
    | none => w

/-- What orders lead to, from an empty store. -/
def after (orders : List Order) : Workspace := orders.foldl perform ⟨.empty, []⟩

structure Sound (w : Workspace) : Prop where
  store : w.store.Reachable
  staged : ∀ b ∈ w.batches, ∀ op ∈ b.staged, Submitted op

theorem Sound.perform {w : Workspace} (hw : w.Sound) (order : Order) : (w.perform order).Sound := by
  cases order with
  | openBatch size =>
    rw [Workspace.perform]
    cases hb : engine.openBatch size with
    | error e => exact hw
    | ok b =>
      refine ⟨hw.store, List.forall_mem_append.mpr ⟨hw.staged, List.forall_mem_singleton.mpr ?_⟩⟩
      rw [StagedBatch.staged_of_ofSize hb]
      exact fun op hop => absurd hop List.not_mem_nil
  | ask batch request faults =>
    rw [Workspace.perform]
    cases hb : w.batches[batch]? with
    | none => exact hw
    | some b =>
      obtain ⟨hstore, hstaged⟩ :=
        hw.store.serve_interruptible (hw.staged b (List.mem_of_getElem? hb)) request faults
      refine ⟨hstore, ?_⟩
      intro b' hb'
      rcases List.mem_or_eq_of_mem_set hb' with h | rfl
      · exact hw.staged b' h
      · exact hstaged

theorem sound_after (orders : List Order) : (after orders).Sound := by
  induction orders using List.reverseRecOn with
  | nil => exact ⟨.empty, fun b hb => absurd hb List.not_mem_nil⟩
  | append_singleton orders order ih =>
    rw [after, List.foldl_concat]
    exact ih.perform order

end Workspace

end

variable {s : Store}

/-- The ids under which a live document is stored. -/
def liveIds (s : Store) : Set String := {id | ∃ d, s.get? id = some d ∧ d.deleted = false}

theorem liveCount_eq_ncard (hs : s.IdsUnique) : s.liveCount = s.liveIds.ncard := by
  have hids : s.liveIds = {id | id ∈ (s.docs.filter fun d => !d.deleted).map (·.id)} := by
    ext id
    simp only [liveIds, Set.mem_ofPred_eq, get?_eq_some_iff hs, List.mem_map, List.mem_filter,
      Bool.not_eq_true']
    constructor
    · rintro ⟨d, ⟨hd, hid⟩, hlive⟩
      exact ⟨d, ⟨hd, hlive⟩, hid⟩
    · rintro ⟨d, ⟨hd, hlive⟩, hid⟩
      exact ⟨d, ⟨hd, hid⟩, hlive⟩
  have hnodup : ((s.docs.filter fun d => !d.deleted).map (·.id)).Nodup :=
    (List.filter_sublist.map _).nodup hs
  rw [hids, liveCount, List.countP_eq_length_filter, ← List.length_map (f := (·.id)),
    ← List.toFinset_card_of_nodup hnodup, ← Set.ncard_coe_finset, List.coe_toFinset]

/-- Whatever is asked of any batches, and whatever hinders it: no id has two documents, each
document is found under its own id and has a normalized path, and the index counts the ids whose
document is not deleted. -/
theorem store_stays_sound [RegexBuilder] (orders : List Workspace.Order) :
    let s := (Workspace.after orders).store
    s.IdsUnique ∧
      (∀ d ∈ s.docs, s.get? d.id = some d ∧ Path.normalize d.path = d.path) ∧
      (∀ id d, s.get? id = some d → d ∈ s.docs ∧ d.id = id) ∧
      engine.liveCount.run s = (.ok s.liveIds.ncard, s) := by
  have hs := (Workspace.sound_after orders).store.wellFormed
  refine ⟨hs.ids, ?_, fun id d h => mem_and_id_eq_of_get? h, ?_⟩
  · exact fun d hd => ⟨(get?_eq_some_iff hs.ids).mpr ⟨hd, rfl⟩, hs.paths d hd⟩
  · rw [← liveCount_eq_ncard hs.ids]
    rfl

/-- A push fails midway, at the missing document, and forgets what comes behind it; another batch
goes on, and one of its calls is interrupted. -/
example : (Workspace.after
    [.openBatch 3, .openBatch 1, .ask 0 (.change (.upsert "a" (.bare "" "r" "x//y"))) [],
      .ask 0 (.change (.delete "b")) [], .ask 0 (.change (.upsert "b" (.bare "" "r" "z"))) [],
      .ask 1 (.change (.delete "a")) [],
      .ask 1 (.change (.restore "a")) [some (.notFound "a")]]).store =
    ⟨[{ Resource.bare "a" "r" "./x/y" with deleted := true }]⟩ := by decide +kernel

end Store
end ResourceIndex
