import ResourceIndex.Proofs.Debounce.Steps
/-
One space of a debouncer: at most one burst waits with its timer, and at most one reindex runs.
Every step of the debouncer is one for each of its spaces, so that what holds on every course of a
single space holds of all of them.
-/
namespace ResourceIndex

open Debouncer

/-- What there is to know about a space. -/
structure Course (α : Type) where
  now : Nat
  cancelled : Bool
  /-- The burst that waits, and the time for which its timer is armed. -/
  burst : Option (Burst α × Nat)
  /-- The requests that the running reindex carries. -/
  running : Option (List α)
  history : List (Nat × Happening α)

namespace Course

variable {α : Type}

def start : Course α := ⟨0, false, none, none, []⟩

/-- Something happens to the space now. -/
def record (c : Course α) (h : Happening α) : Course α :=
  { c with history := c.history ++ [(c.now, h)] }

@[simp] theorem record_cancelled (c : Course α) (h : Happening α) :
    (c.record h).cancelled = c.cancelled := rfl

@[simp] theorem record_running (c : Course α) (h : Happening α) :
    (c.record h).running = c.running := rfl

@[simp] theorem record_history (c : Course α) (h : Happening α) :
    (c.record h).history = c.history ++ [(c.now, h)] := rfl

/-- What can happen to a space next. -/
inductive Step (punctual : Prop) (after maxWait : Nat) (space : SpaceId) :
    Course α → Course α → Prop
  | pass {c : Course α} {time : Nat} (h : c.now ≤ time)
      (hp : punctual → ∀ b ∈ c.burst, time ≤ b.2) :
      Step punctual after maxWait space c { c with now := time }
  | begin {c : Course α} (ack : α) (hc : c.cancelled = false) (hb : c.burst = none) :
      Step punctual after maxWait space c { c.record (.asked space ack) with
        burst := some (⟨c.now + after, c.now + maxWait, [ack]⟩, c.now) }
  | extend {c : Course α} {b : Burst α} {armed : Nat} (ack : α) (hc : c.cancelled = false)
      (hb : c.burst = some (b, armed)) :
      Step punctual after maxWait space c { c.record (.asked space ack) with
        burst := some (⟨min (c.now + after) b.ceiling, b.ceiling, b.acks ++ [ack]⟩, armed) }
  | refuse {c : Course α} (ack : α) (hc : c.cancelled = true) :
      Step punctual after maxWait space c (c.record (.refused space ack))
  | rearm {c : Course α} {b : Burst α} {armed : Nat} (hb : c.burst = some (b, armed))
      (h : c.now < b.deadline) :
      Step punctual after maxWait space c { c with burst := some (b, b.deadline) }
  | postpone {c : Course α} {b : Burst α} {armed : Nat} {acks : List α}
      (hb : c.burst = some (b, armed)) (hr : c.running = some acks) (h : b.deadline ≤ c.now) :
      Step punctual after maxWait space c { c.record (.postponed space) with
        burst := some (⟨c.now + after, b.ceiling, b.acks⟩, max (c.now + after) (c.now + 1)) }
  | fire {c : Course α} {b : Burst α} {armed : Nat} (hb : c.burst = some (b, armed))
      (hr : c.running = none) (h : b.deadline ≤ c.now) :
      Step punctual after maxWait space c { c.record (.started space b.acks) with
        burst := none
        running := some b.acks }
  | finish {c : Course α} {acks : List α} (hr : c.running = some acks) :
      Step punctual after maxWait space c { c.record (.ended space acks) with running := none }
  | stop (c : Course α) :
      Step punctual after maxWait space c { c.record .cancelled with cancelled := true }
  | drop {c : Course α} {b : Burst α} {armed : Nat} (hc : c.cancelled = true)
      (hb : c.burst = some (b, armed)) :
      Step punctual after maxWait space c { c.record (.dropped space b.acks) with burst := none }

def Leads (punctual : Prop) (after maxWait : Nat) (space : SpaceId) :
    Course α → Course α → Prop :=
  Relation.ReflTransGen (Step punctual after maxWait space)

end Course

namespace Reindexing

variable {α : Type} {s t : Reindexing α} {space other : SpaceId} {c : Course α}
  {punctual : Prop} {work : SpaceId → Nat → Nat} {after maxWait : Nat}

/-- The course is that of a space of the debouncer. -/
structure Follows (after maxWait : Nat) (space : SpaceId) (s : Reindexing α) (c : Course α) :
    Prop where
  now : s.now = c.now
  after : s.debouncer.after = after
  maxWait : s.debouncer.maxWait = maxWait
  cancelled : s.debouncer.cancelled = c.cancelled
  bursts : (s.debouncer.only space).bursts = (c.burst.map fun p => (space, p.1)).toList
  inProgress : (s.debouncer.only space).inProgress = (c.running.map fun _ => space).toList
  timers : s.timersOf space = (c.burst.map Prod.snd).toList
  running : s.runningOf space = c.running.toList
  history : s.historyOf space = c.history

theorem follows_start (after maxWait : Nat) (space : SpaceId) :
    (ofTimes (α := α) after maxWait).Follows after (max maxWait after) space .start :=
  ⟨rfl, rfl, rfl, rfl, rfl, rfl, rfl, rfl, rfl⟩

theorem Follows.burst? (h : s.Follows after maxWait space c) :
    s.debouncer.burst? space = c.burst.map Prod.fst := by
  rw [← burst?_only, Debouncer.burst?, h.bursts]
  cases c.burst <;> simp

theorem Follows.isBusy (h : s.Follows after maxWait space c) :
    s.debouncer.isBusy space = c.running.isSome := by
  rw [← isBusy_only, Debouncer.isBusy, h.inProgress]
  cases c.running <;> simp

theorem timerOf?_timer (time : Nat) :
    Duty.timerOf? space (time, (.timer space : Duty α)) = some time := if_pos rfl

theorem carriedOf?_reindex (time : Nat) (acks : List α) :
    Duty.carriedOf? space (time, .reindex space acks) = some acks := if_pos rfl

theorem timerOf?_of_ne {p : Nat × Duty α} (h : p.2.space ≠ space) :
    Duty.timerOf? space p = none := by
  obtain ⟨time, duty⟩ := p
  cases duty with
  | timer s => exact if_neg h
  | reindex s acks => rfl

theorem carriedOf?_of_ne {p : Nat × Duty α} (h : p.2.space ≠ space) :
    Duty.carriedOf? space p = none := by
  obtain ⟨time, duty⟩ := p
  cases duty with
  | timer s => rfl
  | reindex s acks => exact if_neg h

theorem historyOf_apply {e : Effect α} (he : e.Within space) :
    (s.apply e).historyOf space = s.historyOf space ++ e.happenings.map fun h => (s.now, h) := by
  have hall : (e.happenings.map fun h => (s.now, h)).filter (fun p => p.2.concerns space) =
      e.happenings.map fun h => (s.now, h) := by
    apply List.filter_eq_self.mpr
    intro p hp
    obtain ⟨h, hh, rfl⟩ := List.mem_map.mp hp
    simp [Happening.concerns, he.happenings h hh]
  rw [historyOf, apply, List.filter_append, hall]
  rfl

theorem historyOf_apply_of_ne {e : Effect α} (he : e.Within other) (hne : other ≠ space) :
    (s.apply e).historyOf space = s.historyOf space := by
  have hnone : (e.happenings.map fun h => (s.now, h)).filter (fun p => p.2.concerns space) =
      [] := by
    apply List.filter_eq_nil_iff.mpr
    intro p hp
    obtain ⟨h, hh, rfl⟩ := List.mem_map.mp hp
    simp [Happening.concerns, he.happenings h hh, hne]
  rw [historyOf, apply, List.filter_append, hnone, List.append_nil]
  rfl

/-- What comes of it for another space changes nothing. -/
theorem Follows.apply_of_ne (h : s.Follows after maxWait space c) {e : Effect α}
    (he : e.Within other) (hne : other ≠ space)
    (hd : e.debouncer.only space = s.debouncer.only space) :
    (s.apply e).Follows after maxWait space c where
  now := h.now
  after := (congrArg Debouncer.after hd).trans h.after
  maxWait := (congrArg Debouncer.maxWait hd).trans h.maxWait
  cancelled := (congrArg Debouncer.cancelled hd).trans h.cancelled
  bursts := (congrArg Debouncer.bursts hd).trans h.bursts
  inProgress := (congrArg Debouncer.inProgress hd).trans h.inProgress
  timers := (Agenda.pick_addAll_of_none fun p hp =>
    timerOf?_of_ne (he.duties p hp ▸ hne)).trans h.timers
  running := (Agenda.pick_addAll_of_none fun p hp =>
    carriedOf?_of_ne (he.duties p hp ▸ hne)).trans h.running
  history := (historyOf_apply_of_ne he hne).trans h.history

theorem Follows.rest_of_ne (h : s.Follows after maxWait space c) {time : Nat} {duty : Duty α}
    {rest : Agenda (Duty α)} (hg : s.agenda.Gives (time, duty) rest) (hne : duty.space ≠ space) :
    ({ s with agenda := rest } : Reindexing α).Follows after maxWait space c := { h with
  timers := (hg.pick_of_none (timerOf?_of_ne hne)).trans h.timers
  running := (hg.pick_of_none (carriedOf?_of_ne hne)).trans h.running }

theorem Follows.bursts_arm (h : s.Follows after maxWait space c) (hb : c.burst = none) (ack : α) :
    ((s.debouncer.arm s.now space ack).only space).bursts =
      [(space, ⟨c.now + after, c.now + maxWait, [ack]⟩)] := by
  rw [only_arm, arm, h.bursts, hb, ← h.now, ← h.after, ← h.maxWait]
  rfl

theorem Follows.bursts_replace (h : s.Follows after maxWait space c) {b : Burst α} {armed : Nat}
    (hb : c.burst = some (b, armed)) (b' : Burst α) :
    ((s.debouncer.replace space b').only space).bursts = [(space, b')] := by
  rw [only_replace, replace, h.bursts, hb]
  simp

theorem Follows.inProgress_start (h : s.Follows after maxWait space c) (hr : c.running = none) :
    ((s.debouncer.start space).only space).inProgress = [space] := by
  rw [only_start, Debouncer.start, h.inProgress, hr]
  rfl

theorem Follows.burst?_eq_some (h : s.Follows after maxWait space c) {b : Burst α} {armed : Nat}
    (hb : c.burst = some (b, armed)) : s.debouncer.burst? space = some b := by
  rw [h.burst?, hb]
  rfl

theorem Follows.exists_burst (h : s.Follows after maxWait space c) {b : Burst α}
    (hb : s.debouncer.burst? space = some b) : ∃ armed, c.burst = some (b, armed) := by
  obtain ⟨⟨b', armed⟩, hcb, rfl⟩ := Option.map_eq_some_iff.mp (h.burst?.symm.trans hb)
  exact ⟨armed, hcb⟩

theorem Follows.mem_timersOf (h : s.Follows after maxWait space c) {b : Burst α} {armed : Nat}
    (hb : c.burst = some (b, armed)) : armed ∈ s.timersOf space := by
  rw [h.timers, hb]
  exact List.mem_singleton.mpr rfl

theorem Follows.ask (h : s.Follows after maxWait space c) (ack : α) :
    ∃ c', Course.Step punctual after maxWait space c c' ∧
      (s.ask space ack).Follows after maxWait space c' := by
  have hw : (s.debouncer.ask s.now space ack).Within space := ask_within s.now ack
  have hist := historyOf_apply (s := s) hw
  unfold Reindexing.ask
  cases hc : c.cancelled with
  | true =>
    refine ⟨_, .refuse ack hc, ?_⟩
    rw [ask_of_cancelled (h.cancelled.trans hc) ack] at hist ⊢
    rw [h.history, h.now] at hist
    exact { h with history := hist }
  | false =>
    have hcd := h.cancelled.trans hc
    cases hb : c.burst with
    | none =>
      refine ⟨_, .begin ack hc hb, ?_⟩
      have hbd : s.debouncer.burst? space = none := by rw [h.burst?, hb]; rfl
      have htimers : s.timersOf space = [] := by rw [h.timers, hb]; rfl
      rw [ask_of_none hcd hbd ack] at hist ⊢
      rw [h.history, h.now] at hist
      exact { h with
        bursts := h.bursts_arm hb ack
        timers := (Agenda.pick_add_of_nil htimers (timerOf?_timer s.now)).trans (by rw [h.now]; rfl)
        running := (Agenda.pick_add_of_none rfl).trans h.running
        history := hist }
    | some p =>
      obtain ⟨b, armed⟩ := p
      refine ⟨_, .extend ack hc hb, ?_⟩
      rw [ask_of_some hcd (h.burst?_eq_some hb) ack] at hist ⊢
      rw [h.history, h.now] at hist
      exact { h with
        bursts := (h.bursts_replace hb _).trans (by rw [h.now, h.after]; rfl)
        timers := h.timers.trans (by rw [hb]; rfl)
        history := hist }

/-- A timer that wakes is that of the burst that waits. -/
theorem Follows.timer (h : s.Follows after maxWait space c) {time : Nat} {rest : Agenda (Duty α)}
    (hg : s.agenda.Gives (time, .timer space) rest) :
    (∃ b, c.burst = some (b, time)) ∧ rest.pick (Duty.timerOf? space) = [] ∧
      rest.pick (Duty.carriedOf? space) = c.running.toList := by
  obtain ⟨harmed, hrest⟩ := hg.pick_of_toList (timerOf?_timer time) h.timers
  obtain ⟨⟨b, armed⟩, hb, rfl⟩ := Option.map_eq_some_iff.mp harmed
  exact ⟨⟨b, hb⟩, hrest, (hg.pick_of_none rfl).trans h.running⟩

/-- A reindex that ends is that which runs. -/
theorem Follows.reindex (h : s.Follows after maxWait space c) {time : Nat} {acks : List α}
    {rest : Agenda (Duty α)} (hg : s.agenda.Gives (time, .reindex space acks) rest) :
    c.running = some acks ∧ rest.pick (Duty.carriedOf? space) = [] ∧
      rest.pick (Duty.timerOf? space) = (c.burst.map Prod.snd).toList := by
  obtain ⟨hr, hrest⟩ := hg.pick_of_toList (carriedOf?_reindex time acks) h.running
  exact ⟨hr, hrest, (hg.pick_of_none rfl).trans h.timers⟩

theorem Follows.wake (h : s.Follows after maxWait space c) {time : Nat} {rest : Agenda (Duty α)}
    (hg : s.agenda.Gives (time, .timer space) rest) :
    ∃ c', Course.Leads punctual after maxWait space c c' ∧
      (s.perform work rest s.now (.timer space)).Follows after maxWait space c' := by
  obtain ⟨⟨b, hb⟩, htimers, hrunning⟩ := h.timer hg
  have hbd := h.burst?_eq_some hb
  let rested : Reindexing α := { s with agenda := rest }
  change ∃ c', _ ∧ (rested.apply (s.debouncer.perform _ s.now (.timer space))).Follows _ _ _ c'
  generalize work (Duty.timer (α := α) space).space _ = takes
  have hist := historyOf_apply (s := rested)
    (perform_within (d := s.debouncer) takes s.now (.timer space))
  change _ = s.historyOf space ++ _ at hist
  by_cases hdue : b.deadline ≤ s.now
  · cases hr : c.running with
    | some acks =>
      have hbusy : s.debouncer.isBusy space = true := by rw [h.isBusy, hr]; rfl
      refine ⟨_, .single (.postpone hb hr (h.now ▸ hdue)), ?_⟩
      rw [perform_of_busy hbd hdue hbusy] at hist ⊢
      rw [h.history, h.now] at hist
      exact { h with
        bursts := (h.bursts_replace hb _).trans (by rw [h.now, h.after]; rfl)
        timers := (Agenda.pick_add_of_nil htimers (timerOf?_timer _)).trans (by
          rw [h.now, h.after]; rfl)
        running := (Agenda.pick_add_of_none rfl).trans hrunning
        history := hist }
    | none =>
      have hbusy : s.debouncer.isBusy space = false := by rw [h.isBusy, hr]; rfl
      have hfire : Course.Step punctual after maxWait space c _ := .fire hb hr (h.now ▸ hdue)
      rw [hr] at hrunning
      rw [perform_of_due hbd hdue hbusy] at hist ⊢
      -- A reindex that takes no time is over at once, which makes two steps of one.
      by_cases htakes : takes = 0
      · refine ⟨_, .tail (.single hfire) (.finish rfl), ?_⟩
        rw [if_pos htakes] at hist ⊢
        rw [h.history, h.now] at hist
        exact { h with
          bursts := bursts_only_without
          inProgress := inProgress_only_finish
          timers := htimers
          running := hrunning
          history := hist.trans (List.append_cons ..) }
      · refine ⟨_, .single hfire, ?_⟩
        rw [if_neg htakes] at hist ⊢
        rw [h.history, h.now] at hist
        exact { h with
          bursts := bursts_only_without
          inProgress := h.inProgress_start hr
          timers := (Agenda.pick_add_of_none rfl).trans htimers
          running := Agenda.pick_add_of_nil hrunning (carriedOf?_reindex _ _)
          history := hist }
  · refine ⟨_, .single (.rearm hb (h.now ▸ Nat.not_le.mp hdue)), ?_⟩
    rw [perform_of_early hbd (Nat.not_le.mp hdue)] at hist ⊢
    rw [h.history] at hist
    exact { h with
      bursts := h.bursts.trans (by rw [hb]; rfl)
      timers := Agenda.pick_add_of_nil htimers (timerOf?_timer _)
      running := (Agenda.pick_add_of_none rfl).trans hrunning
      history := hist.trans (List.append_nil _) }

theorem Follows.finish (h : s.Follows after maxWait space c) {time : Nat} {acks : List α}
    {rest : Agenda (Duty α)} (hg : s.agenda.Gives (time, .reindex space acks) rest) :
    ∃ c', Course.Step punctual after maxWait space c c' ∧
      (s.perform work rest s.now (.reindex space acks)).Follows after maxWait space c' := by
  obtain ⟨hr, hrunning, htimers⟩ := h.reindex hg
  refine ⟨_, .finish hr, ?_⟩
  have hist := historyOf_apply (s := { s with agenda := rest })
    (perform_within (d := s.debouncer) 0 s.now (.reindex space acks))
  change _ = s.historyOf space ++ [(s.now, .ended space acks)] at hist
  exact { h with
    inProgress := inProgress_only_finish
    timers := htimers
    running := hrunning
    history := hist.trans (by rw [h.history, h.now]; rfl) }

theorem historyOf_append (s : Reindexing α) (e : Nat × Happening α) :
    ({ s with history := s.history ++ [e] } : Reindexing α).historyOf space =
      s.historyOf space ++ if e.2.concerns space then [e] else [] := by
  simp [historyOf, List.filter_append, List.filter_cons]

theorem Follows.stop (h : s.Follows after maxWait space c) :
    ∃ c', Course.Step punctual after maxWait space c c' ∧ s.stop.Follows after maxWait space c' :=
  ⟨_, .stop c, { h with
    cancelled := rfl
    history := (historyOf_append s (s.now, .cancelled)).trans (by rw [h.history, h.now]; rfl) }⟩

theorem Follows.drop (h : s.Follows after maxWait space c) (hc : s.debouncer.cancelled = true)
    {time : Nat} {rest : Agenda (Duty α)} (hg : s.agenda.Gives (time, .timer other) rest) :
    ∃ c', Course.Leads punctual after maxWait space c c' ∧
      (s.drop rest other).Follows after maxWait space c' := by
  by_cases hne : other = space
  · subst hne
    obtain ⟨⟨b, hb⟩, htimers, hrunning⟩ := h.timer hg
    have hwaits := waiting_of_burst? (h.burst?_eq_some hb)
    refine ⟨_, .single (.drop (h.cancelled ▸ hc) hb), ?_⟩
    exact { h with
      bursts := bursts_only_without
      timers := htimers
      running := hrunning
      history := (historyOf_append s _).trans (by
        simp [Happening.concerns, Happening.space?, h.history, h.now, hwaits]) }
  · have hd := only_without_of_ne (d := s.debouncer) hne
    refine ⟨c, .refl, ?_⟩
    exact { h.rest_of_ne hg hne with
      bursts := (congrArg Debouncer.bursts hd).trans h.bursts
      inProgress := (congrArg Debouncer.inProgress hd).trans h.inProgress
      history := (historyOf_append s _).trans (by
        simp [Happening.concerns, Happening.space?, hne, h.history]) }

theorem Follows.step (h : s.Follows after maxWait space c) (hst : Step punctual work s t) :
    ∃ c', Course.Leads punctual after maxWait space c c' ∧ t.Follows after maxWait space c' := by
  cases hst with
  | pass hreach =>
    refine ⟨_, .single (.pass (h.now ▸ hreach.1) ?_), { h with now := rfl }⟩
    intro hp b hb
    apply hreach.2 hp space
    rw [h.timers, Option.mem_def.mp hb]
    exact List.mem_singleton.mpr rfl
  | ask other ack =>
    by_cases hne : other = space
    · subst hne
      obtain ⟨c', hc', ht⟩ := h.ask ack
      exact ⟨c', .single hc', ht⟩
    · exact ⟨c, .refl, h.apply_of_ne (ask_within s.now ack) hne (ask_only_of_ne hne s.now ack)⟩
  | @carryOut time duty rest hg =>
    by_cases hne : duty.space = space
    · cases duty with
      | timer other =>
        change other = space at hne
        subst hne
        exact h.wake hg
      | reindex other acks =>
        change other = space at hne
        subst hne
        obtain ⟨c', hc', ht⟩ := h.finish hg
        exact ⟨c', .single hc', ht⟩
    · exact ⟨c, .refl, (h.rest_of_ne hg hne).apply_of_ne (perform_within _ s.now duty) hne
        (perform_only_of_ne _ s.now hne)⟩
  | stop =>
    obtain ⟨c', hc', ht⟩ := h.stop
    exact ⟨c', .single hc', ht⟩
  | drop hc hg => exact h.drop hc hg

theorem Follows.steps (h : s.Follows after maxWait space c)
    (hst : Relation.ReflTransGen (Step punctual work) s t) :
    ∃ c', Course.Leads punctual after maxWait space c c' ∧ t.Follows after maxWait space c' := by
  induction hst with
  | refl => exact ⟨c, .refl, h⟩
  | tail _ hst ih =>
    obtain ⟨c₁, hc₁, h₁⟩ := ih
    obtain ⟨c₂, hc₂, h₂⟩ := h₁.step hst
    exact ⟨c₂, hc₁.trans hc₂, h₂⟩

/-- Whatever is reached follows a course of each space. -/
theorem Reached.course (h : s.Reached punctual work after maxWait) (space : SpaceId) :
    ∃ c, Course.Leads punctual after (max maxWait after) space .start c ∧
      s.Follows after (max maxWait after) space c :=
  (follows_start after maxWait space).steps h

end Reindexing
end ResourceIndex
