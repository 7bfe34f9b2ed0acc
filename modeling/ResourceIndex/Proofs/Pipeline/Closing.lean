import ResourceIndex.Proofs.Pipeline.Shutdown
import ResourceIndex.Proofs.Pipeline.Workers
/-
What becomes of a pipeline that is closed. Its workers bring to an end what they have begun, events
that nobody has taken stay untouched, what is dropped is never acknowledged, and in the end all is
at rest. A burst is dropped by its timer, which learns of the close in its own time: one that does
so only when its burst is due may fire instead.
-/
namespace ResourceIndex.Pipeline

variable {w : Workload} {p q : Pipeline} {n : Nat} {space : SpaceId} {punctual : Prop}
  {events : Nat → ChangeEvent} {s : EventSettings} {capacity : Nat}

theorem Proceeds.doings {new : List (Nat × Happening)} (h : Proceeds p q new)
    (hn : p.doings n ≠ []) : q.doings n ≠ [] := by
  rw [Pipeline.doings, h.history, List.filter_append]
  exact List.append_ne_nil_of_left_ne_nil hn _

/-- An event that nobody has taken waits in the stream as long as there is one. -/
theorem Reached.waits (h : Reached punctual w events s capacity p)
    (hn : n < p.channel.deliveries.length) (hd : p.doings n = []) (hf : p.finished = false) :
    (n, events n) ∈ p.channel.queue := by
  have hstage := h.stage n
  have hpublished : (p.view n).published = true := decide_eq_true hn
  have hkept : p.abandoned = false := by simp [abandoned, hf]
  have hqueued : (p.view n).queued = [events n] := by
    change (p.view n).doings = [] at hd
    generalize p.view n = v at hstage hpublished hd
    cases hstage with
    | unpublished => cases hpublished
    | unread => rfl
    | left ha => exact Bool.noConfusion (ha.symm.trans hkept)
    | calling => cases hd
    | handled hdoings => cases hdoings <;> cases hd
  have hmem : events n ∈ (p.view n).queued := hqueued ▸ List.mem_singleton.mpr rfl
  obtain ⟨⟨place, event⟩, hx, hsome⟩ := List.mem_filterMap.mp hmem
  obtain ⟨hplace, hevent⟩ := Option.ite_none_right_eq_some.mp hsome
  obtain rfl : place = n := hplace
  obtain rfl : event = events place := Option.some.inj hevent
  exact hx

theorem Reached.rest (h : Reached punctual w events s capacity p) (hf : p.finished = true) :
    p.debouncer.pending = 0 ∧ p.debouncer.inProgress = [] ∧
      ∀ r, Leads punctual w events p r → r.log = p.log ∧ r.channel = p.channel ∧
        r.debouncer.pending = 0 ∧ r.debouncer.inProgress = [] := by
  have hover := h.over hf
  obtain ⟨hbursts, hrunning⟩ := h.idle hover
  have hpending : p.debouncer.pending = 0 := congrArg List.length hbursts
  refine ⟨hpending, hrunning, fun r hr => ?_⟩
  obtain ⟨-, hsame⟩ := hover.leads hr
  exact ⟨hsame.log, hsame.channel, (congrArg List.length hsame.bursts).trans hpending,
    hsame.inProgress.trans hrunning⟩

end ResourceIndex.Pipeline
