import ResourceIndex.Proofs.Debounce.Ledger
/-
When a reindex starts. Its burst has been quiet for the window then, or has waited for as long as it
may, and while timers are punctual it does not wait any longer, unless a reindex of the space is
running when it is due.
-/
namespace ResourceIndex

open Debouncer

variable {α : Type}

namespace Debouncer

/-- When the requests were made that are waiting or start a reindex next. -/
def askTimes (h : List (Nat × Happening α)) : List Nat := times Happening.isAsked (current h)

/-- When they were put off since a reindex was running. -/
def postponements (h : List (Nat × Happening α)) : List Nat :=
  times Happening.isPostponed (current h)

/-- When reindexes have ended since the last one started. -/
def endTimes (h : List (Nat × Happening α)) : List Nat := times Happening.isEnded (current h)

variable {h : List (Nat × Happening α)}

theorem times_current_concat {p : Happening α → Bool} {time : Nat} {happening : Happening α}
    (hc : happening.closes = false) (hp : p happening = true) :
    times p (current (h ++ [(time, happening)])) = times p (current h) ++ [time] := by
  rw [current_concat, if_neg (Bool.eq_false_iff.mp hc), times_concat, if_pos hp]

theorem times_current_concat_of_false {p : Happening α → Bool} {time : Nat}
    {happening : Happening α} (hc : happening.closes = false) (hp : p happening = false) :
    times p (current (h ++ [(time, happening)])) = times p (current h) := by
  rw [current_concat, if_neg (Bool.eq_false_iff.mp hc), times_concat,
    if_neg (Bool.eq_false_iff.mp hp), List.append_nil]

/-- Every request that waits was made at some time. -/
theorem askTimes_eq_nil (hw : takenIn (current h) = []) : askTimes h = [] := by
  apply List.map_eq_nil_iff.mpr
  apply List.filter_eq_nil_iff.mpr
  rintro ⟨time, happening⟩ he
  cases happening with
  | asked space ack =>
    have hack : ack ∈ takenIn (current h) :=
      List.mem_flatMap.mpr ⟨_, he, List.mem_singleton.mpr rfl⟩
    rw [hw] at hack
    exact absurd hack List.not_mem_nil
  | _ => exact Bool.false_ne_true

theorem le_of_mem_times {p : Happening α → Bool} {now time : Nat} (hh : ∀ e ∈ h, e.1 ≤ now)
    (ht : time ∈ times p (current h)) : time ≤ now := by
  obtain ⟨e, he, rfl⟩ := List.mem_map.mp ht
  obtain ⟨before, hsplit, -⟩ := current_suffix h
  have hmem : e ∈ current h := (List.mem_filter.mp he).1
  exact hh e (by rw [hsplit]; exact List.mem_append_right before hmem)

/-- A reindex starts at a time for requests of which the first was made at `first` and the last at
`last`. -/
structure InWindow (after longest : Nat) (before : List (Nat × Happening α)) (acks : List α)
    (first last start : Nat) : Prop where
  requests : takenIn (current before) = acks
  begun : (askTimes before).head? = some first
  extended : (askTimes before).getLast? = some last
  quiet : min (last + after) (first + longest) ≤ start
  direct : postponements before = [] → start = min (last + after) (first + longest)
  /-- One reindex has held it back, and after its end the burst waits for the window only. -/
  postponed : postponements before ≠ [] → ∃ ended, endTimes before = [ended] ∧
    (∀ p ∈ postponements before, p ≤ ended) ∧ start ≤ max (first + longest) (ended + after)

def StartsInWindow (after longest : Nat) (before : List (Nat × Happening α))
    (e : Nat × Happening α) : Prop :=
  ∀ space acks, e.2 = .started space acks →
    ∃ first last, InWindow after longest before acks first last e.1

end Debouncer

namespace Course

variable {c c' : Course α} {after longest : Nat} {space : SpaceId} {b : Burst α} {armed : Nat}
  {first last : Nat}

/-- A burst that waits since `first` and has had no request since `last`. -/
structure Pending (after longest : Nat) (c : Course α) (b : Burst α) (armed first last : Nat) :
    Prop where
  begun : (askTimes c.history).head? = some first
  extended : (askTimes c.history).getLast? = some last
  ahead : c.now ≤ armed
  ceiling : b.ceiling = first + longest
  quiet : min (last + after) (first + longest) ≤ b.deadline
  /-- As long as it has not been postponed, its timer does not sleep beyond its deadline. -/
  direct : postponements c.history = [] →
    b.deadline = min (last + after) (first + longest) ∧ armed ≤ b.deadline
  /-- Nothing puts it off beyond the window that follows the last postponement. -/
  postponed : postponements c.history ≠ [] → ∀ time, (∀ p ∈ postponements c.history, p ≤ time) →
    b.deadline ≤ max (first + longest) (time + after) ∧ armed ≤ max (first + longest) (time + after)
  released : postponements c.history ≠ [] → c.running = none →
    ∃ ended, endTimes c.history = [ended] ∧ ∀ p ∈ postponements c.history, p ≤ ended

/-- What is known of the times of a space whose timers are punctual. -/
structure Timed (after longest : Nat) (c : Course α) : Prop where
  pending : ∀ b armed, c.burst = some (b, armed) →
    ∃ first last, Pending after longest c b armed first last
  /-- Nothing has ended since the running reindex started. -/
  busy : c.running ≠ none → endTimes c.history = []
  idle : c.burst = none → postponements c.history = []
  started : Throughout (StartsInWindow after longest) c.history

theorem timed_start : (start : Course α).Timed after longest where
  pending := fun _ _ h => nomatch h
  busy := fun h => absurd rfl h
  idle := fun _ => rfl
  started := throughout_nil

theorem Timed.started_record (h : c.Timed after longest) {happening : Happening α}
    (hs : StartsInWindow after longest c.history (c.now, happening)) :
    Throughout (StartsInWindow after longest) (c.record happening).history :=
  throughout_concat.mpr ⟨h.started, hs⟩

theorem Timed.pass (h : c.Timed after longest) {time : Nat} (hp : ∀ b ∈ c.burst, time ≤ b.2) :
    ({ c with now := time } : Course α).Timed after longest where
  pending := by
    intro b armed hb
    obtain ⟨first, last, hpending⟩ := h.pending b armed hb
    exact ⟨first, last, { hpending with ahead := hp (b, armed) hb }⟩
  busy := h.busy
  idle := h.idle
  started := h.started

theorem Pending.congr (h : Pending after longest c b armed first last) (hnow : c'.now = c.now)
    (hrunning : c'.running = c.running) (hasks : askTimes c'.history = askTimes c.history)
    (hposts : postponements c'.history = postponements c.history)
    (hends : endTimes c'.history = endTimes c.history) :
    Pending after longest c' b armed first last where
  begun := hasks.symm ▸ h.begun
  extended := hasks.symm ▸ h.extended
  ahead := hnow.symm ▸ h.ahead
  ceiling := h.ceiling
  quiet := h.quiet
  direct := hposts.symm ▸ h.direct
  postponed := hposts.symm ▸ h.postponed
  released := by
    rw [hposts, hrunning, hends]
    exact h.released

/-- A request that is refused, or a cancellation, changes no times. -/
theorem Timed.enter (h : c.Timed after longest) {happening : Happening α}
    (hc : happening.closes = false) (ha : happening.isAsked = false)
    (hp : happening.isPostponed = false) (he : happening.isEnded = false) (cancelled : Bool) :
    ({ c.record happening with cancelled := cancelled } : Course α).Timed after longest := by
  have hasks : askTimes (c.record happening).history = askTimes c.history :=
    times_current_concat_of_false hc ha
  have hposts : postponements (c.record happening).history = postponements c.history :=
    times_current_concat_of_false hc hp
  have hends : endTimes (c.record happening).history = endTimes c.history :=
    times_current_concat_of_false hc he
  refine ⟨?_, fun hr => hends.trans (h.busy hr), fun hb => hposts.trans (h.idle hb),
    h.started_record ?_⟩
  · intro b armed hb
    obtain ⟨first, last, hpending⟩ := h.pending b armed hb
    exact ⟨first, last, hpending.congr rfl rfl hasks hposts hends⟩
  · rintro space acks hstart
    cases hstart
    cases hc

theorem Timed.begin (h : c.Timed after longest) (haccount : c.Accounted)
    (hlongest : after ≤ longest) (hb : c.burst = none) (ack : α) :
    ({ c.record (.asked space ack) with
      burst := some (⟨c.now + after, c.now + longest, [ack]⟩, c.now) }
        : Course α).Timed after longest := by
  have hopen : (Happening.asked space ack).closes = false := rfl
  have hnone : takenIn (current c.history) = [] := by rw [← haccount.waits, waiting_of_none hb]
  have hasks : askTimes (c.record (.asked space ack)).history = [c.now] :=
    (times_current_concat hopen rfl).trans (congrArg (· ++ [c.now]) (askTimes_eq_nil hnone))
  have hposts : postponements (c.record (.asked space ack)).history = [] :=
    (times_current_concat_of_false hopen rfl).trans (h.idle hb)
  have hends : endTimes (c.record (.asked space ack)).history = endTimes c.history :=
    times_current_concat_of_false hopen rfl
  refine ⟨?_, fun hr => hends.trans (h.busy hr), fun _ => hposts, h.started_record nofun⟩
  rintro b armed hsome
  cases hsome
  exact ⟨c.now, c.now, {
    begun := congrArg List.head? hasks
    extended := congrArg List.getLast? hasks
    ahead := Nat.le_refl c.now
    ceiling := rfl
    quiet := Nat.min_le_left ..
    direct := fun _ => ⟨(Nat.min_eq_left (Nat.add_le_add_left hlongest c.now)).symm,
      Nat.le_add_right ..⟩
    postponed := fun hne => absurd hposts hne
    released := fun hne => absurd hposts hne }⟩

theorem Timed.extend (h : c.Timed after longest) (haccount : c.Accounted)
    (hb : c.burst = some (b, armed)) (ack : α) :
    ({ c.record (.asked space ack) with
      burst := some (⟨min (c.now + after) b.ceiling, b.ceiling, b.acks ++ [ack]⟩, armed) }
        : Course α).Timed after longest := by
  have hopen : (Happening.asked space ack).closes = false := rfl
  obtain ⟨first, last, hpending⟩ := h.pending b armed hb
  have hasks : askTimes (c.record (.asked space ack)).history = askTimes c.history ++ [c.now] :=
    times_current_concat hopen rfl
  have hposts : postponements (c.record (.asked space ack)).history = postponements c.history :=
    times_current_concat_of_false hopen rfl
  have hends : endTimes (c.record (.asked space ack)).history = endTimes c.history :=
    times_current_concat_of_false hopen rfl
  have hlast : last ≤ c.now :=
    le_of_mem_times haccount.times (List.mem_of_getLast? hpending.extended)
  have hceiling := hpending.ceiling
  have hdeadline : min (c.now + after) b.ceiling = min (c.now + after) (first + longest) :=
    congrArg (min (c.now + after)) hceiling
  refine ⟨?_, fun hr => hends.trans (h.busy hr), nofun, h.started_record nofun⟩
  rintro b' armed' hsome
  cases hsome
  refine ⟨first, c.now, ?_⟩
  exact {
    begun := by rw [hasks, List.head?_append, hpending.begun]; rfl
    extended := by rw [hasks]; exact List.getLast?_concat
    ahead := hpending.ahead
    ceiling := hceiling
    quiet := Nat.le_of_eq hdeadline.symm
    direct := by
      intro hnone
      obtain ⟨hbefore, harmed⟩ := hpending.direct (hposts.symm.trans hnone)
      -- Its timer sleeps until an earlier deadline, and will find out then that it woke too early.
      have hlater : b.deadline ≤ min (c.now + after) b.ceiling := by
        rw [hbefore, hceiling]
        omega
      exact ⟨hdeadline, Nat.le_trans harmed hlater⟩
    postponed := by
      intro hsome time htime
      rw [hposts] at hsome htime
      have harmed := (hpending.postponed hsome time htime).2
      have hcapped : min (c.now + after) b.ceiling ≤ first + longest :=
        hceiling ▸ Nat.min_le_right ..
      exact ⟨Nat.le_trans hcapped (Nat.le_max_left ..), harmed⟩
    released := by
      rw [hposts, hends]
      exact hpending.released }

theorem Timed.rearm (h : c.Timed after longest) (hb : c.burst = some (b, armed))
    (hlt : c.now < b.deadline) :
    ({ c with burst := some (b, b.deadline) } : Course α).Timed after longest := by
  obtain ⟨first, last, hpending⟩ := h.pending b armed hb
  refine { h with pending := ?_, idle := nofun }
  rintro b' armed' hsome
  cases hsome
  exact ⟨first, last, { hpending with
    ahead := Nat.le_of_lt hlt
    direct := fun hnone => ⟨(hpending.direct hnone).1, Nat.le_refl _⟩
    postponed := fun hsome time htime =>
      let hdeadline := (hpending.postponed hsome time htime).1
      ⟨hdeadline, hdeadline⟩ }⟩

theorem Timed.postpone (h : c.Timed after longest) (haccount : c.Accounted) (hafter : 0 < after)
    (hb : c.burst = some (b, armed)) {acks : List α} (hr : c.running = some acks) :
    ({ c.record (.postponed space) with
      burst := some (⟨c.now + after, b.ceiling, b.acks⟩, max (c.now + after) (c.now + 1)) }
        : Course α).Timed after longest := by
  have hopen : (Happening.postponed (α := α) space).closes = false := rfl
  obtain ⟨first, last, hpending⟩ := h.pending b armed hb
  have hasks : askTimes (c.record (.postponed space)).history = askTimes c.history :=
    times_current_concat_of_false hopen rfl
  have hposts : postponements (c.record (.postponed space)).history =
      postponements c.history ++ [c.now] := times_current_concat hopen rfl
  have hends : endTimes (c.record (.postponed space)).history = endTimes c.history :=
    times_current_concat_of_false hopen rfl
  have hlast : last ≤ c.now :=
    le_of_mem_times haccount.times (List.mem_of_getLast? hpending.extended)
  have harmed : max (c.now + after) (c.now + 1) = c.now + after := by omega
  refine ⟨?_, fun hr => hends.trans (h.busy hr), nofun, h.started_record nofun⟩
  rintro b' armed' hsome
  cases hsome
  refine ⟨first, last, ?_⟩
  exact {
    begun := by rw [hasks]; exact hpending.begun
    extended := by rw [hasks]; exact hpending.extended
    ahead := Nat.le_trans (Nat.le_add_right ..) (Nat.le_max_left ..)
    ceiling := hpending.ceiling
    quiet := by dsimp only; omega
    direct := by
      intro hnone
      rw [hposts] at hnone
      exact absurd hnone (by simp)
    postponed := by
      -- The new deadline is not capped, but the end of the running reindex is still to come.
      intro _ time htime
      rw [hposts] at htime
      have hnow : c.now ≤ time := htime c.now (by simp)
      rw [harmed]
      dsimp only
      omega
    released := fun _ hnone => absurd (hr.symm.trans hnone) nofun }

/-- The reindex that ends has held the burst back at all its postponements. -/
theorem Timed.finish (h : c.Timed after longest) (haccount : c.Accounted) {acks : List α}
    (hr : c.running = some acks) :
    ({ c.record (.ended space acks) with running := none } : Course α).Timed after longest := by
  have hopen : (Happening.ended space acks).closes = false := rfl
  have hasks : askTimes (c.record (.ended space acks)).history = askTimes c.history :=
    times_current_concat_of_false hopen rfl
  have hposts : postponements (c.record (.ended space acks)).history = postponements c.history :=
    times_current_concat_of_false hopen rfl
  have hends : endTimes (c.record (.ended space acks)).history = [c.now] := by
    have hnone := h.busy (by rw [hr]; nofun)
    exact (times_current_concat hopen rfl).trans (congrArg (· ++ [c.now]) hnone)
  refine ⟨?_, fun hnone => absurd rfl hnone, fun hb => hposts.trans (h.idle hb),
    h.started_record nofun⟩
  intro b armed hb
  obtain ⟨first, last, hpending⟩ := h.pending b armed hb
  refine ⟨first, last, ?_⟩
  exact {
    begun := by rw [hasks]; exact hpending.begun
    extended := by rw [hasks]; exact hpending.extended
    ahead := hpending.ahead
    ceiling := hpending.ceiling
    quiet := hpending.quiet
    direct := by rw [hposts]; exact hpending.direct
    postponed := by rw [hposts]; exact hpending.postponed
    released := by
      intro _ _
      refine ⟨c.now, hends, ?_⟩
      rw [hposts]
      exact fun p hp => le_of_mem_times haccount.times hp }

theorem Timed.close (h : c.Timed after longest) {happening : Happening α}
    (hc : happening.closes = true)
    (hstarted : StartsInWindow after longest c.history (c.now, happening))
    (running : Option (List α)) :
    ({ c.record happening with burst := none, running := running }
      : Course α).Timed after longest := by
  have hcurrent : current (c.record happening).history = [] := by
    rw [record_history, current_concat, if_pos hc]
  exact ⟨nofun, fun _ => congrArg (times _) hcurrent, fun _ => congrArg (times _) hcurrent,
    h.started_record hstarted⟩

/-- A burst that is due starts its reindex in its window. -/
theorem Pending.inWindow (hpending : Pending after longest c b armed first last)
    (haccount : c.Accounted) (hb : c.burst = some (b, armed)) (hr : c.running = none)
    (hdue : b.deadline ≤ c.now) :
    InWindow after longest c.history b.acks first last c.now where
  requests := haccount.waits.symm.trans (waiting_of_some hb)
  begun := hpending.begun
  extended := hpending.extended
  quiet := Nat.le_trans hpending.quiet hdue
  direct := by
    intro hnone
    obtain ⟨hdeadline, harmed⟩ := hpending.direct hnone
    exact Nat.le_antisymm (Nat.le_trans hpending.ahead (hdeadline ▸ harmed)) (hdeadline ▸ hdue)
  postponed := by
    intro hsome
    obtain ⟨ended, hends, hle⟩ := hpending.released hsome hr
    exact ⟨ended, hends, hle, Nat.le_trans hpending.ahead (hpending.postponed hsome ended hle).2⟩

theorem Timed.step (hafter : 0 < after) (hlongest : after ≤ longest) (h : c.Timed after longest)
    (haccount : c.Accounted) (hst : Step True after longest space c c') :
    c'.Timed after longest := by
  cases hst with
  | pass hle hp => exact h.pass (hp trivial)
  | begin ack hc hb => exact h.begin haccount hlongest hb ack
  | extend ack hc hb => exact h.extend haccount hb ack
  | refuse ack hc => exact h.enter rfl rfl rfl rfl c.cancelled
  | rearm hb hlt => exact h.rearm hb hlt
  | postpone hb hr hle => exact h.postpone haccount hafter hb hr
  | @fire b armed hb hr hdue =>
    obtain ⟨first, last, hpending⟩ := h.pending b armed hb
    refine h.close rfl ?_ (some b.acks)
    rintro space acks hstart
    cases hstart
    exact ⟨first, last, hpending.inWindow haccount hb hr hdue⟩
  | finish hr => exact h.finish haccount hr
  | stop => exact h.enter rfl rfl rfl rfl true
  | drop hc hb =>
    refine h.close rfl ?_ c.running
    exact nofun

theorem Leads.timed (hafter : 0 < after) (hlongest : after ≤ longest)
    (h : Leads True after longest space .start c) : c.Timed after longest := by
  induction h with
  | refl => exact timed_start
  | tail hbefore hst ih => exact ih.step hafter hlongest (Leads.accounted hbefore) hst

end Course

namespace Reindexing

variable {s : Reindexing α} {work : SpaceId → Nat → Nat} {after maxWait : Nat}

/-- A burst waits from `first` on and has been extended at `last`. It is not overdue. -/
structure NotOverdue (after longest : Nat) (s : Reindexing α) (space : SpaceId) (first last : Nat) :
    Prop where
  begun : (askTimes (s.historyOf space)).head? = some first
  extended : (askTimes (s.historyOf space)).getLast? = some last
  direct : postponements (s.historyOf space) = [] → s.now ≤ min (last + after) (first + longest)
  postponed : postponements (s.historyOf space) ≠ [] → s.runningOf space = [] →
    ∃ ended, endTimes (s.historyOf space) = [ended] ∧
      (∀ p ∈ postponements (s.historyOf space), p ≤ ended) ∧
      s.now ≤ max (first + longest) (ended + after)

/-- Reindexes of a space start in the windows of their bursts, and no burst waits any longer. -/
structure Timely (after longest : Nat) (s : Reindexing α) (space : SpaceId) : Prop where
  started : ∀ before start acks behind,
    s.historyOf space = before ++ (start, .started space acks) :: behind →
      ∃ first last, InWindow after longest before acks first last start
  waiting : ∀ b, s.debouncer.burst? space = some b →
    ∃ first last, NotOverdue after longest s space first last

theorem reindexes_start_in_window (hafter : 0 < after) (hs : s.Reached True work after maxWait)
    (space : SpaceId) : s.Timely after (max maxWait after) space := by
  obtain ⟨c, hc, h⟩ := hs.course space
  have htimed := hc.timed hafter (Nat.le_max_right ..)
  refine ⟨?_, ?_⟩
  · intro before start acks behind hsplit
    exact htimed.started before _ behind (h.history.symm.trans hsplit) space acks rfl
  · intro b hb
    obtain ⟨armed, hcb⟩ := h.exists_burst hb
    obtain ⟨first, last, hpending⟩ := htimed.pending b armed hcb
    refine ⟨first, last, ?_⟩
    constructor
    · rw [h.history]; exact hpending.begun
    · rw [h.history]; exact hpending.extended
    · intro hnone
      rw [h.history] at hnone
      obtain ⟨hdeadline, harmed⟩ := hpending.direct hnone
      rw [h.now, ← hdeadline]
      exact Nat.le_trans hpending.ahead harmed
    · intro hsome hidle
      rw [h.history] at hsome ⊢
      have hnone : c.running = none := Option.toList_eq_nil_iff.mp (h.running.symm.trans hidle)
      obtain ⟨ended, hends, hle⟩ := hpending.released hsome hnone
      rw [h.now]
      exact ⟨ended, hends, hle,
        Nat.le_trans hpending.ahead (hpending.postponed hsome ended hle).2⟩

theorem reindexes_start_in_window_after_postponement :
    let space : SpaceId := ⟨"", "a"⟩
    let work : SpaceId → Nat → Nat := fun _ _ => 3
    let s : Reindexing Nat := (((ofTimes 2 2).ask space 0).sleep work 2 |>.ask space 1).sleep work 4
    s.Reached True work 2 2 ∧ s.historyOf space = [(0, .asked space 0), (2, .started space [0]),
      (2, .asked space 1), (4, .postponed space), (5, .ended space [0]), (6, .started space [1])] ∧
      s.Timely 2 2 space := by
  intro space work s
  have hs : s.Reached True work 2 2 :=
    ((executed_start.ask space 0).sleep 2 |>.ask space 1 |>.sleep 4).reached
  refine ⟨hs, ?_, reindexes_start_in_window (by decide) hs space⟩
  let idle : Debouncer Nat := .ofTimes 2 2
  let busy : Reindexing Nat := ⟨{ idle with inProgress := [space] }, ⟨[(5, .reindex space [0])]⟩, 2,
    [(0, .asked space 0), (2, .started space [0])]⟩
  have hbusy : ((ofTimes 2 2).ask space 0).sleep work 2 = busy := by
    unfold sleep
    rw [runUntil_of_some rfl, runUntil_of_some rfl, runUntil_of_none rfl]
    rfl
  let held : Reindexing Nat := ⟨{ idle with
      bursts := [(space, ⟨6, 4, [1]⟩)]
      inProgress := [space] }, ⟨[(5, .reindex space [0]), (6, .timer space)]⟩, 4,
    busy.history ++ [(2, .asked space 1), (4, .postponed space)]⟩
  have hheld : (busy.ask space 1).runUntil work 6 = held.runUntil work 6 := by
    rw [runUntil_of_some rfl, runUntil_of_some rfl]
    rfl
  have hdone : held.runUntil work 6 = (held.perform work ⟨[(6, .timer space)]⟩ 5
      (.reindex space [0])).perform work .empty 6 (.timer space) := by
    rw [runUntil_of_some rfl, runUntil_of_some rfl, runUntil_of_none rfl]
    rfl
  change ({ (((ofTimes 2 2).ask space 0).sleep work 2 |>.ask space 1).runUntil work 6 with
    now := 6 } : Reindexing Nat).historyOf space = _
  rw [hbusy, hheld, hdone]
  rfl

end Reindexing
end ResourceIndex
