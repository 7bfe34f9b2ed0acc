import ResourceIndex.Proofs.Pipeline.Deliveries
/-
The end of a pipeline. All its workers have gone and nothing is on its agenda any more, so that no
burst waits and no reindex is running, and from then on others see nothing of it.
-/
namespace ResourceIndex

namespace Reindexing

open Debouncer

variable {α : Type} {s : Reindexing α} {space : SpaceId} {c : Course α} {after maxWait : Nat}

theorem Follows.idle (h : s.Follows after maxWait space c) (ha : s.agenda.entries = []) :
    c.burst = none ∧ c.running = none := by
  have htimers := h.timers
  have hrunning := h.running
  rw [timersOf, Agenda.pick, ha] at htimers
  rw [runningOf, Agenda.pick, ha] at hrunning
  constructor
  · cases hb : c.burst with
    | none => rfl
    | some b => simp [hb] at htimers
  · cases hr : c.running with
    | none => rfl
    | some acks => simp [hr] at hrunning

/-- Every burst has its timer and every running reindex its end on the agenda. -/
theorem Reached.idle {punctual : Prop} {work : SpaceId → Nat → Nat}
    (hs : s.Reached punctual work after maxWait) (ha : s.agenda.entries = []) :
    s.debouncer.bursts = [] ∧ s.debouncer.inProgress = [] := by
  constructor
  · apply List.eq_nil_iff_forall_not_mem.mpr
    intro b hb
    obtain ⟨c, -, h⟩ := hs.course b.1
    have hmem : b ∈ (s.debouncer.only b.1).bursts := List.mem_filter.mpr ⟨hb, decide_eq_true rfl⟩
    rw [h.bursts, (h.idle ha).1] at hmem
    exact List.not_mem_nil hmem
  · apply List.eq_nil_iff_forall_not_mem.mpr
    intro space hspace
    obtain ⟨c, -, h⟩ := hs.course space
    have hmem : space ∈ (s.debouncer.only space).inProgress :=
      List.mem_filter.mpr ⟨hspace, decide_eq_true rfl⟩
    rw [h.inProgress, (h.idle ha).2] at hmem
    exact List.not_mem_nil hmem

end Reindexing

namespace Pipeline

variable {w : Workload} {p q r : Pipeline} {hs : List Happening} {n : Nat} {punctual : Prop}
  {events : Nat → ChangeEvent} {s : EventSettings} {capacity : Nat}

/-- A pipeline at its end, whose stream has gone. -/
structure Over (p : Pipeline) : Prop where
  workers : ∀ x ∈ p.workers, x = .gone
  agenda : p.agenda.entries = []
  consumer : p.channel.consumer = .gone

/-- Others see the same of both. -/
structure Unmoved (p q : Pipeline) : Prop where
  log : q.log = p.log
  channel : q.channel = p.channel
  bursts : q.debouncer.bursts = p.debouncer.bursts
  inProgress : q.debouncer.inProgress = p.debouncer.inProgress

theorem Unmoved.refl (p : Pipeline) : Unmoved p p := ⟨rfl, rfl, rfl, rfl⟩

theorem Unmoved.trans (h : Unmoved p q) (h' : Unmoved q r) : Unmoved p r :=
  ⟨h'.log.trans h.log, h'.channel.trans h.channel, h'.bursts.trans h.bursts,
    h'.inProgress.trans h.inProgress⟩

theorem Over.not_gives (h : p.Over) {e : Nat × Duty} {rest : Agenda Duty} :
    ¬ p.agenda.Gives e rest := fun hg =>
  absurd (h.agenda ▸ hg.mem) List.not_mem_nil

theorem Over.not_idle (h : p.Over) {worker : Nat} : p.workers[worker]? ≠ some .idle := fun hi =>
  nomatch h.workers .idle (List.mem_of_getElem? hi)

theorem Over.step (h : p.Over) (hst : Step punctual w events p q) : q.Over ∧ Unmoved p q := by
  cases hst with
  | pass => exact ⟨⟨h.workers, h.agenda, h.consumer⟩, rfl, rfl, rfl, rfl⟩
  | publish ho hc => simp [Channel.publish, h.consumer] at hc
  | take ho hi => exact absurd hi h.not_idle
  | endCall hg => exact absurd hg h.not_gives
  | carryOut hg => exact absurd hg h.not_gives
  | stop =>
    have hlog : p.stop.log = p.log := by
      simp [stop, record, log, Happening.notes]
    exact ⟨⟨h.workers, h.agenda, h.consumer⟩, hlog, rfl, rfl, rfl⟩
  | drop hc hg => exact absurd hg h.not_gives
  | endStream => exact ⟨⟨h.workers, h.agenda, h.consumer⟩, rfl, rfl, rfl, rfl⟩
  | leave hl hi => exact absurd hi h.not_idle
  | conclude =>
    have hleave : p.channel.leave = p.channel := by simp [Channel.leave, h.consumer]
    have hconsumer := (congrArg Channel.consumer hleave).trans h.consumer
    exact ⟨⟨h.workers, h.agenda, hconsumer⟩, rfl, hleave, rfl, rfl⟩

theorem Over.leads (h : p.Over) (hq : Leads punctual w events p q) : q.Over ∧ Unmoved p q := by
  induction hq with
  | refl => exact ⟨h, .refl p⟩
  | tail _ hst ih =>
    obtain ⟨hover, hsame⟩ := ih.1.step hst
    exact ⟨hover, ih.2.trans hsame⟩

/-- The stream has a consumer until the end, and keeps nothing when it has none. -/
def Consumed (c : Channel) : Prop := c.consumer = .present ∨ c.consumer = .gone ∧ c.queue = []

theorem Adds.consumed (h : Adds p hs q) (hc : Consumed p.channel) : Consumed q.channel := by
  obtain ⟨hqueue, -, hconsumer⟩ := foldl_tell_keeps hs p.channel
  unfold Consumed
  rwa [h.channel, hqueue, hconsumer]

theorem Consumed.leave {c : Channel} (h : Consumed c) :
    c.leave.consumer = .gone ∧ c.leave.queue = [] := by
  unfold Channel.leave
  rcases h with hpresent | ⟨hgone, hqueue⟩
  · rw [if_pos hpresent]
    exact ⟨rfl, rfl⟩
  · rw [if_neg (hgone ▸ nofun)]
    exact ⟨hgone, hqueue⟩

theorem Step.consumed (hst : Step punctual w events p q) (h : Consumed p.channel) :
    Consumed q.channel := by
  cases hst with
  | publish ho hc =>
    left
    rcases h with hpresent | ⟨hgone, -⟩
    · exact eq_withEvent hc ▸ hpresent
    · simp [Channel.publish, hgone] at hc
  | @take worker place event rest ho hi hq =>
    have hpresent : p.channel.consumer = .present := by
      refine h.resolve_right fun hgone => ?_
      exact absurd (hq.symm.trans hgone.2) (List.cons_ne_nil _ _)
    obtain ⟨hs, hadds, -⟩ := adds_process w (p.withQueue rest) worker ⟨place, event⟩
    exact hadds.consumed (.inl hpresent)
  | endCall => exact (adds_release _ _ _ _).consumed (by exact h)
  | @carryOut time duty rest =>
    obtain ⟨hs, hadds, -⟩ := adds_carryOut w (p.withAgenda rest) duty
    exact hadds.consumed h
  | stop => exact h
  | drop => exact h
  | conclude => exact .inr h.leave
  | _ => exact h

theorem Reached.consumed (h : Reached punctual w events s capacity p) : Consumed p.channel := by
  induction h with
  | refl => exact .inl rfl
  | tail _ hst ih => exact hst.consumed ih

/-- A pipeline that has come to its end is over. -/
theorem Reached.over (h : Reached punctual w events s capacity p) (hf : p.finished = true) :
    p.Over := by
  induction h with
  | refl => cases hf
  | @tail p q hp hst ih =>
    have hbefore : p.finished = true → q.Over := fun hfinished => ((ih hfinished).step hst).1
    cases hst with
    | @take worker place event rest =>
      obtain ⟨hs, hadds, -⟩ := adds_process w (p.withQueue rest) worker ⟨place, event⟩
      exact hbefore (hadds.finished.symm.trans hf)
    | @endCall time worker taken call rest =>
      exact hbefore ((adds_release (p.withAgenda rest) worker taken call).finished.symm.trans hf)
    | @carryOut time duty rest =>
      obtain ⟨hs, hadds, -⟩ := adds_carryOut w (p.withAgenda rest) duty
      exact hbefore (hadds.finished.symm.trans hf)
    | conclude hw ha => exact ⟨hw, ha, (Reached.consumed hp).leave.1⟩
    | _ => exact hbefore hf

theorem Reached.idle (h : Reached punctual w events s capacity p) (ho : p.Over) :
    p.debouncer.bursts = [] ∧ p.debouncer.inProgress = [] :=
  h.reindexing.idle (by simp [Pipeline.reindexing, Agenda.select, ho.agenda])

/-- Nothing is left to do at the end with an event that a worker has taken. -/
theorem Reached.handled (h : Reached punctual w events s capacity p) (ho : p.Over)
    (hn : p.doings n ≠ []) : Handled w p.asyncUploads n (events n) (p.doings n) := by
  have hstage := h.stage n
  have hcalls : (p.view n).calls = [] := by simp [view, Agenda.pick, ho.agenda]
  change (p.view n).doings ≠ [] at hn
  change Handled _ _ _ _ (p.view n).doings
  generalize p.view n = v at hstage hcalls hn
  cases hstage with
  | calling => cases hcalls
  | handled hdoings => exact hdoings
  | _ => exact absurd rfl hn

/-- When the stream has ended, every event has been taken at the end. -/
theorem Reached.taken_of_open (h : Reached punctual w events s capacity p) (ho : p.Over)
    (hc : p.closed = false) (hn : n < p.channel.deliveries.length) : p.doings n ≠ [] := by
  have hstage := h.stage n
  have hqueue : p.channel.queue = [] := by
    rcases h.consumed with hpresent | ⟨-, hempty⟩
    · exact Consumer.noConfusion (ho.consumer.symm.trans hpresent)
    · exact hempty
  have hqueued : (p.view n).queued = [] := by simp [view, hqueue]
  have hpublished : (p.view n).published = true := decide_eq_true hn
  have hkept : p.abandoned = false := by simp [abandoned, hc]
  change (p.view n).doings ≠ []
  generalize p.view n = v at hstage hqueued hpublished
  cases hstage with
  | unpublished => cases hpublished
  | unread => cases hqueued
  | left ha => exact Bool.noConfusion (ha.symm.trans hkept)
  | calling => exact List.cons_ne_nil _ _
  | handled hdoings => cases hdoings <;> exact List.cons_ne_nil _ _

end Pipeline

end ResourceIndex
