import ResourceIndex.Proofs.Debounce.Course
/-
The tasks of a debouncer. A space is marked exactly as long as its reindex runs, which is the only
one, and a burst that waits has exactly one timer. The timer can always still start a reindex for
the burst, and once there is a cancellation it can drop it.
-/
namespace ResourceIndex

namespace Debouncer

variable {α : Type}

def Happening.isEndOf (space : SpaceId) : Happening α → Bool
  | .ended s _ => s = space
  | _ => false

theorem Happening.concerns_of_isEndOf {space : SpaceId} {h : Happening α}
    (he : h.isEndOf space = true) : h.concerns space = true := by
  cases h <;> simp_all [isEndOf, concerns, space?]

end Debouncer

open Debouncer

variable {α : Type}

/-- Every reindex that has started and has not ended is running. -/
theorem Course.Leads.starts {punctual : Prop} {after maxWait : Nat} {space : SpaceId}
    {c : Course α} (h : Course.Leads punctual after maxWait space .start c) :
    c.history.countP (fun e => e.2.isStartOf space) =
      c.history.countP (fun e => e.2.isEndOf space) + c.running.toList.length := by
  induction h with
  | refl => rfl
  | tail _ hst ih =>
    cases hst <;> simp_all [Happening.isStartOf, Happening.isEndOf, List.countP_append]

namespace Reindexing

variable {s t : Reindexing α} {space : SpaceId} {punctual : Prop} {work : SpaceId → Nat → Nat}
  {after maxWait : Nat}

/-- A run leads on to where this has happened and no burst of the space waits. -/
def Resolves (work : SpaceId → Nat → Nat) (space : SpaceId) (happening : Happening α)
    (s : Reindexing α) : Prop :=
  ∃ t, Relation.ReflTransGen (Step False work) s t ∧ t.debouncer.burst? space = none ∧
    (t.now, happening) ∈ t.history

/-- What there is of a space at any moment. -/
structure Orderly (work : SpaceId → Nat → Nat) (s : Reindexing α) (space : SpaceId) : Prop where
  running : (s.runningOf space).length ≤ 1
  begun : s.startCount space =
    s.history.countP (fun e => e.2.isEndOf space) + (s.runningOf space).length
  marked : s.debouncer.isBusy space = true ↔ (s.runningOf space).length = 1
  marks : s.debouncer.inProgress.count space = (s.runningOf space).length
  bursts : s.debouncer.bursts.countP (fun p => p.1 = space) ≤ 1
  timers : (s.timersOf space).length ≤ 1
  armed : (s.debouncer.burst? space).isSome = true ↔ (s.timersOf space).length = 1
  starts : ∀ b, s.debouncer.burst? space = some b → s.Resolves work space (.started space b.acks)
  drops : s.debouncer.cancelled = true → ∀ b, s.debouncer.burst? space = some b →
    s.Resolves work space (.dropped space b.acks)

theorem resolves_started_of_idle {b : Burst α} {armed : Nat} {rest : Agenda (Duty α)}
    (hb : s.debouncer.burst? space = some b) (hidle : s.debouncer.isBusy space = false)
    (hg : s.agenda.Gives (armed, .timer space) rest) :
    s.Resolves work space (.started space b.acks) := by
  let due : Reindexing α := { s with now := max s.now b.deadline }
  have hpass : Step False work s due := .pass ⟨Nat.le_max_left .., False.elim⟩
  refine ⟨due.perform work rest due.now (.timer space), .tail (.single hpass) (.carryOut hg), ?_⟩
  unfold perform apply
  dsimp only
  rw [perform_of_due hb (Nat.le_max_right ..) hidle]
  split
  · exact ⟨burst?_without, List.mem_append_right _ List.mem_cons_self⟩
  · exact ⟨burst?_without, List.mem_append_right _ List.mem_cons_self⟩

/-- Where a reindex is running, it may end first. -/
theorem Follows.resolves_started {c : Course α} (h : s.Follows after maxWait space c) {b : Burst α}
    {armed : Nat} (hb : c.burst = some (b, armed)) :
    s.Resolves work space (.started space b.acks) := by
  have harmed := h.mem_timersOf hb
  have hburst := h.burst?_eq_some hb
  cases hr : c.running with
  | none =>
    obtain ⟨rest, hg⟩ := exists_timer harmed
    exact resolves_started_of_idle hburst (by rw [h.isBusy, hr]; rfl) hg
  | some acks =>
    have hacks : acks ∈ s.runningOf space := by
      rw [h.running, hr]
      exact List.mem_singleton.mpr rfl
    obtain ⟨time, rest, hg⟩ := exists_reindex hacks
    have hrest : armed ∈ rest.pick (Duty.timerOf? space) := by rwa [hg.pick_of_none rfl]
    obtain ⟨rest', hg'⟩ := exists_timer hrest
    -- A reindex may end at any time, and its end leaves the burst and its timer as they are.
    let ended := s.perform work rest s.now (.reindex space acks)
    have hended : Step False work s ended := .carryOut hg
    obtain ⟨t, hst, ht⟩ := resolves_started_of_idle (s := ended) hburst isBusy_finish hg'
    exact ⟨t, .head hended hst, ht⟩

theorem Follows.resolves_dropped {c : Course α} (h : s.Follows after maxWait space c)
    (hc : s.debouncer.cancelled = true) {b : Burst α} {armed : Nat}
    (hb : c.burst = some (b, armed)) : s.Resolves work space (.dropped space b.acks) := by
  obtain ⟨rest, hg⟩ := exists_timer (h.mem_timersOf hb)
  refine ⟨s.drop rest space, .single (.drop hc hg), burst?_without, ?_⟩
  rw [← waiting_of_burst? (h.burst?_eq_some hb)]
  exact List.mem_append_right _ List.mem_cons_self

/-- A space has one reindex at a time, and a burst is waiting exactly if one timer is armed. -/
theorem one_reindex_and_one_timer (hs : s.Reached punctual work after maxWait) (space : SpaceId) :
    s.Orderly work space := by
  obtain ⟨c, hc, h⟩ := hs.course space
  have hbursts : s.debouncer.bursts.countP (fun p => p.1 = space) = c.burst.toList.length := by
    rw [List.countP_eq_length_filter]
    exact (congrArg List.length h.bursts).trans (by cases c.burst <;> rfl)
  have hmarks : s.debouncer.inProgress.count space = c.running.toList.length := by
    rw [List.count_eq_countP, List.countP_eq_length_filter]
    refine (congrArg List.length ((List.filter_congr ?_).trans h.inProgress)).trans
      (by cases c.running <;> rfl)
    intro other _
    exact Bool.beq_eq_decide_eq other space
  have htimers : (s.timersOf space).length = c.burst.toList.length := by
    rw [h.timers]
    cases c.burst <;> rfl
  exact {
    running := by rw [h.running]; exact Option.length_toList_le
    begun := by
      have hstarts := hc.starts
      rw [← h.history, countP_historyOf fun _ => Happening.concerns_of_isStartOf,
        countP_historyOf fun _ => Happening.concerns_of_isEndOf, ← h.running] at hstarts
      exact hstarts
    marked := by rw [h.isBusy, h.running]; cases c.running <;> simp
    marks := by rw [h.running, hmarks]
    bursts := by rw [hbursts]; exact Option.length_toList_le
    timers := by rw [htimers]; exact Option.length_toList_le
    armed := by rw [h.burst?, htimers]; cases c.burst <;> simp
    starts := by
      intro b hb
      obtain ⟨armed, hcb⟩ := h.exists_burst hb
      exact h.resolves_started hcb
    drops := by
      intro hcancelled b hb
      obtain ⟨armed, hcb⟩ := h.exists_burst hb
      exact h.resolves_dropped hcancelled hcb }

theorem one_timer_beside_running_reindex :
    let space : SpaceId := ⟨"", "a"⟩
    let work : SpaceId → Nat → Nat := fun _ _ => 10
    let s : Reindexing Nat :=
      (((ofTimes 0 0).ask space 0).perform work .empty 0 (.timer space)).ask space 1
    s.Reached True work 0 0 ∧ s.runningOf space = [[0]] ∧ s.timersOf space = [0] ∧
      s.Orderly work space := by
  intro space work s
  have hg : ((ofTimes 0 0).ask space 0).agenda.Gives (0, .timer space) .empty := ⟨[], [], rfl, rfl⟩
  have hs : s.Reached True work 0 0 := ((reached_start.ask space 0).carryOut hg).ask space 1
  exact ⟨hs, rfl, rfl, one_reindex_and_one_timer hs space⟩

end Reindexing
end ResourceIndex
