import Mathlib.Logic.Relation
import ResourceIndex.Proofs.Agenda.Entries
import ResourceIndex.Proofs.Debounce.Spaces
/-
The runs of a debouncer, one step after another. Requests come at any time, armed timers wake and
running reindexes end in any order and as late as they like, and once there is a cancellation every
timer learns of it on its own, unless it wakes before that. Punctual timers are not passed over by
the clock.
-/
namespace ResourceIndex

namespace Debouncer

variable {α : Type} {d : Debouncer α} {space : SpaceId} {now work : Nat} {b : Burst α}

/-- The time for which a timer of the space is armed. -/
def Duty.timerOf? (space : SpaceId) : Nat × Duty α → Option Nat
  | (time, .timer s) => if s = space then some time else none
  | (_, .reindex ..) => none

/-- The requests that a reindex of the space carries. -/
def Duty.carriedOf? (space : SpaceId) : Nat × Duty α → Option (List α)
  | (_, .timer _) => none
  | (_, .reindex s acks) => if s = space then some acks else none

theorem cancelled_request (ack : α) : (d.request now space ack).2.cancelled = d.cancelled := by
  unfold request
  split
  · rfl
  · split <;> rfl

theorem cancelled_wake : (d.wake now space).2.cancelled = d.cancelled := by
  unfold wake
  split
  · rfl
  · split
    · rfl
    · split <;> rfl

theorem cancelled_ask (ack : α) : (d.ask now space ack).debouncer.cancelled = d.cancelled := by
  have hrequest := @cancelled_request _ d space now ack
  unfold ask
  revert hrequest
  cases d.request now space ack with
  | mk first d' => cases first <;> exact id

theorem cancelled_perform (duty : Duty α) :
    (d.perform work now duty).debouncer.cancelled = d.cancelled := by
  cases duty with
  | reindex => rfl
  | timer space =>
    have hwake := @cancelled_wake _ d space now
    unfold perform
    dsimp only
    revert hwake
    cases d.wake now space with
    | mk w d' =>
      cases w with
      | fire acks =>
        dsimp only
        split <;> exact id
      | _ => exact id

theorem happenings_ask (d : Debouncer α) (now : Nat) (space : SpaceId) (ack : α) :
    (d.ask now space ack).happenings = [d.reception space ack] := by
  unfold ask
  split <;> rfl

theorem ask_of_cancelled (h : d.cancelled = true) (ack : α) :
    d.ask now space ack = ⟨d, [], [.refused space ack]⟩ := by
  simp [ask, request, reception, h]

theorem ask_of_none (h : d.cancelled = false) (hb : d.burst? space = none) (ack : α) :
    d.ask now space ack = ⟨d.arm now space ack, [(now, .timer space)], [.asked space ack]⟩ := by
  simp [ask, request, reception, h, hb]

theorem ask_of_some (h : d.cancelled = false) (hb : d.burst? space = some b) (ack : α) :
    d.ask now space ack =
      ⟨d.replace space ⟨min (now + d.after) b.ceiling, b.ceiling, b.acks ++ [ack]⟩, [],
        [.asked space ack]⟩ := by
  simp [ask, request, reception, h, hb]

theorem perform_of_early (hb : d.burst? space = some b) (h : now < b.deadline) :
    d.perform work now (.timer space) = ⟨d, [(b.deadline, .timer space)], []⟩ := by
  simp [perform, wake, hb, h]

theorem perform_of_busy (hb : d.burst? space = some b) (h : b.deadline ≤ now)
    (hbusy : d.isBusy space = true) :
    d.perform work now (.timer space) =
      ⟨d.replace space ⟨now + d.after, b.ceiling, b.acks⟩,
        [(max (now + d.after) (now + 1), .timer space)], [.postponed space]⟩ := by
  simp [perform, wake, hb, Nat.not_lt.mpr h, hbusy]

theorem perform_of_due (hb : d.burst? space = some b) (h : b.deadline ≤ now)
    (hbusy : d.isBusy space = false) :
    d.perform work now (.timer space) =
      if work = 0 then
        ⟨(d.start space).finish space, [], [.started space b.acks, .ended space b.acks]⟩
      else ⟨d.start space, [(now + work, .reindex space b.acks)], [.started space b.acks]⟩ := by
  simp [perform, wake, hb, Nat.not_lt.mpr h, hbusy]

end Debouncer

namespace Reindexing

open Debouncer

variable {α : Type}

def historyOf (s : Reindexing α) (space : SpaceId) : List (Nat × Happening α) :=
  s.history.filter fun e => e.2.concerns space

theorem countP_historyOf {s : Reindexing α} {space : SpaceId} {p : Happening α → Bool}
    (hp : ∀ h, p h = true → h.concerns space = true) :
    (s.historyOf space).countP (fun e => p e.2) = s.history.countP fun e => p e.2 := by
  rw [historyOf, List.countP_filter]
  apply List.countP_congr
  intro e _
  simp only [Bool.and_eq_true, and_iff_left_iff_imp]
  exact hp e.2

/-- The times for which timers of a space are armed. -/
def timersOf (s : Reindexing α) (space : SpaceId) : List Nat := s.agenda.pick (Duty.timerOf? space)

/-- The requests that the running reindexes of a space carry. -/
def runningOf (s : Reindexing α) (space : SpaceId) : List (List α) :=
  s.agenda.pick (Duty.carriedOf? space)

theorem exists_timer {armed : Nat} {a : Agenda (Duty α)} {space : SpaceId}
    (h : armed ∈ a.pick (Duty.timerOf? space)) : ∃ rest, a.Gives (armed, .timer space) rest := by
  obtain ⟨⟨time, duty⟩, hmem, hduty⟩ := List.mem_filterMap.mp h
  cases duty with
  | reindex => cases hduty
  | timer other =>
    obtain ⟨rfl, hsome⟩ := Option.ite_none_right_eq_some.mp hduty
    cases hsome
    exact Agenda.exists_gives hmem

theorem exists_reindex {acks : List α} {a : Agenda (Duty α)} {space : SpaceId}
    (h : acks ∈ a.pick (Duty.carriedOf? space)) :
    ∃ time rest, a.Gives (time, .reindex space acks) rest := by
  obtain ⟨⟨time, duty⟩, hmem, hduty⟩ := List.mem_filterMap.mp h
  cases duty with
  | timer => cases hduty
  | reindex other carried =>
    obtain ⟨rfl, hsome⟩ := Option.ite_none_right_eq_some.mp hduty
    cases hsome
    exact ⟨time, Agenda.exists_gives hmem⟩

/-- Whether the clock may move to a time. -/
def MayReach (punctual : Prop) (s : Reindexing α) (time : Nat) : Prop :=
  s.now ≤ time ∧ (punctual → ∀ space, ∀ armed ∈ s.timersOf space, time ≤ armed)

inductive Step (punctual : Prop) (work : SpaceId → Nat → Nat) :
    Reindexing α → Reindexing α → Prop
  | pass {s : Reindexing α} {time : Nat} (h : s.MayReach punctual time) :
      Step punctual work s { s with now := time }
  | ask (s : Reindexing α) (space : SpaceId) (ack : α) : Step punctual work s (s.ask space ack)
  /-- A timer wakes, or a reindex ends. -/
  | carryOut {s : Reindexing α} {time : Nat} {duty : Duty α} {rest : Agenda (Duty α)}
      (h : s.agenda.Gives (time, duty) rest) : Step punctual work s (s.perform work rest s.now duty)
  | stop (s : Reindexing α) : Step punctual work s s.stop
  | drop {s : Reindexing α} {time : Nat} {space : SpaceId} {rest : Agenda (Duty α)}
      (hc : s.debouncer.cancelled = true) (h : s.agenda.Gives (time, .timer space) rest) :
      Step punctual work s (s.drop rest space)

/-- The states to which a debouncer comes that waits `after` for quiet and at most `maxWait`. -/
def Reached (punctual : Prop) (work : SpaceId → Nat → Nat) (after maxWait : Nat)
    (s : Reindexing α) : Prop :=
  Relation.ReflTransGen (Step punctual work) (ofTimes after maxWait) s

section

variable {s : Reindexing α} {punctual : Prop} {work : SpaceId → Nat → Nat}
  {after maxWait time : Nat} {space : SpaceId} {rest : Agenda (Duty α)}

theorem reached_start : (ofTimes (α := α) after maxWait).Reached punctual work after maxWait :=
  .refl

theorem Reached.pass (hs : s.Reached punctual work after maxWait) (h : s.MayReach punctual time) :
    ({ s with now := time } : Reindexing α).Reached punctual work after maxWait :=
  .tail hs (.pass h)

theorem Reached.ask (hs : s.Reached punctual work after maxWait) (space : SpaceId) (ack : α) :
    (s.ask space ack).Reached punctual work after maxWait :=
  .tail hs (.ask s space ack)

theorem Reached.carryOut (hs : s.Reached punctual work after maxWait) {duty : Duty α}
    (h : s.agenda.Gives (time, duty) rest) :
    (s.perform work rest s.now duty).Reached punctual work after maxWait :=
  .tail hs (.carryOut h)

theorem Reached.stop (hs : s.Reached punctual work after maxWait) :
    s.stop.Reached punctual work after maxWait :=
  .tail hs (.stop s)

theorem Reached.drop (hs : s.Reached punctual work after maxWait)
    (hc : s.debouncer.cancelled = true) (h : s.agenda.Gives (time, .timer space) rest) :
    (s.drop rest space).Reached punctual work after maxWait :=
  .tail hs (.drop hc h)

end

end Reindexing

end ResourceIndex
