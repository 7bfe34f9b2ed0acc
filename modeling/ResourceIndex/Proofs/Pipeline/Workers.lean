import ResourceIndex.Proofs.Pipeline.Events
import ResourceIndex.Proofs.Pipeline.Operations
/-
The workers of a pipeline. The call of a busy worker is on the agenda, so that a closed pipeline can
always come to its end: what is left on its agenda is done with, and then its workers go.
-/
namespace ResourceIndex.Pipeline

variable {w : Workload} {p q : Pipeline} {punctual : Prop} {events : Nat → ChangeEvent}
  {s : EventSettings} {capacity : Nat}

/-- A busy worker's call is on the agenda. -/
def Minded (p : Pipeline) : Prop :=
  ∀ k taken, p.workers[k]? = some (.busy taken) →
    ∃ time call, (time, .call k taken call) ∈ p.agenda.entries

theorem of_getElem?_set {workers : List Worker} {i k : Nat} {x y : Worker}
    (h : (workers.set i y)[k]? = some x) : (i = k ∧ y = x) ∨ (i ≠ k ∧ workers[k]? = some x) := by
  by_cases hne : i = k
  · subst hne
    obtain ⟨hlt, hx⟩ := List.getElem?_eq_some_iff.mp h
    exact .inl ⟨rfl, by simpa using hx⟩
  · rw [List.getElem?_set_ne hne] at h
    exact .inr ⟨hne, h⟩

theorem Minded.of_sub (h : p.Minded) (hw : q.workers = p.workers)
    (ha : ∀ e ∈ p.agenda.entries, e.2.reindexing? = none → e ∈ q.agenda.entries) : q.Minded := by
  intro k taken hk
  obtain ⟨time, call, hmem⟩ := h k taken (hw ▸ hk)
  exact ⟨time, call, ha _ hmem rfl⟩

theorem mem_agenda_apply (p : Pipeline) (e : Debouncer.Effect Nat) {x : Nat × Duty}
    (hx : x ∈ p.agenda.entries) : x ∈ (p.apply w e).agenda.entries := by
  rw [agenda_apply]
  exact Agenda.mem_addAll.mpr (.inr hx)

theorem mem_agenda_settle (p : Pipeline) (taken : Taken) {x : Nat × Duty}
    (hx : x ∈ p.agenda.entries) : x ∈ (p.settle w taken).agenda.entries := by
  unfold settle
  split
  · exact hx
  · exact mem_agenda_apply p _ hx

theorem mem_rest_of_reindexing {time : Nat} {duty : Debouncer.Duty Nat} {rest : Agenda Duty}
    (hg : p.agenda.Gives (time, .reindexing duty) rest) {x : Nat × Duty}
    (hx : x ∈ p.agenda.entries) (hd : x.2.reindexing? = none) : x ∈ rest.entries := by
  refine hg.mem_of_ne hx ?_
  rintro rfl
  cases hd

theorem Minded.process (h : p.Minded) (worker : Nat) (taken : Taken) :
    (p.process w worker taken).Minded := by
  have hprocess := processing w p worker taken
  generalize p.process w worker taken = q at hprocess ⊢
  cases hprocess with
  | skip => exact h
  | settle => exact h.of_sub (workers_settle _ taken) fun e he _ => mem_agenda_settle _ taken he
  | instant => exact h.of_sub (workers_settle _ taken) fun e he _ => mem_agenda_settle _ taken he
  | @begin hs call hc =>
    intro k other hk
    rcases of_getElem?_set hk with ⟨rfl, hbusy⟩ | ⟨-, hk⟩
    · cases hbusy
      exact ⟨_, call, Agenda.mem_insert.mpr (.inl rfl)⟩
    · obtain ⟨time, other, hmem⟩ := h k _ hk
      exact ⟨time, other, Agenda.mem_insert.mpr (.inr hmem)⟩

theorem Minded.release (h : p.Minded) {time worker : Nat} {taken : Taken} {call : IndexCall}
    {rest : Agenda Duty} (hg : p.agenda.Gives (time, .call worker taken call) rest) :
    ((p.withAgenda rest).release w worker taken call).Minded := by
  intro k other hk
  have hworkers : ((p.withAgenda rest).afterCall w taken call).workers = p.workers :=
    workers_settle _ taken
  change (((p.withAgenda rest).afterCall w taken call).workers.set worker .idle)[k]? = _ at hk
  rw [hworkers] at hk
  rcases of_getElem?_set hk with ⟨-, hidle⟩ | ⟨hne, hk⟩
  · cases hidle
  · obtain ⟨t, c, hmem⟩ := h k other hk
    refine ⟨t, c, mem_agenda_settle _ taken (hg.mem_of_ne hmem fun heq => ?_)⟩
    cases heq
    exact hne rfl

theorem Minded.step (h : p.Minded) (hst : Step punctual w events p q) : q.Minded := by
  cases hst with
  | @take worker place event rest => exact Minded.process (by exact h) worker _
  | endCall hg => exact h.release hg
  | carryOut hg =>
    exact h.of_sub (workers_apply _ _) fun e he hd =>
      mem_agenda_apply _ _ (mem_rest_of_reindexing hg he hd)
  | drop _ hg => exact h.of_sub rfl fun e he hd => mem_rest_of_reindexing hg he hd
  | @leave worker =>
    intro k taken hk
    rcases of_getElem?_set hk with ⟨-, hgone⟩ | ⟨-, hk⟩
    · cases hgone
    · exact h k taken hk
  | _ => exact h

end ResourceIndex.Pipeline
