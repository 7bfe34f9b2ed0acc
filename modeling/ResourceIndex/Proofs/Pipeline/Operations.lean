import ResourceIndex.Proofs.Pipeline.Events
/-
The operations of a pipeline are runs of its steps with punctual timers: workers take events one
after the other, the clock stops at every entry of the agenda, and a close reaches all the timers
before anything else happens.
-/
namespace ResourceIndex.Pipeline

variable {w : Workload} {p q : Pipeline} {punctual : Prop} {events : Nat → ChangeEvent}
  {s : EventSettings} {capacity time limit : Nat} {duty : Duty} {rest : List (Nat × Duty)}

/-- The entries of the agenda are in order, none of them is past, and none is a timer when the
pipeline is closed. -/
structure InOrder (p : Pipeline) : Prop where
  sorted : Agenda.Sorted p.agenda.entries
  ahead : ∀ e ∈ p.agenda.entries, p.now ≤ e.1
  quiet : p.closed = true → ∀ e ∈ p.agenda.entries, e.2.isTimer = false

/-- A state that the operations lead to. -/
structure Executed (w : Workload) (events : Nat → ChangeEvent) (s : EventSettings) (capacity : Nat)
    (p : Pipeline) : Prop where
  reached : Reached True w events s capacity p
  order : p.InOrder

theorem mayReach_of_ahead (hle : p.now ≤ time) (hahead : ∀ e ∈ p.agenda.entries, time ≤ e.1) :
    p.reindexing.MayReach punctual time := by
  refine ⟨hle, fun _ space armed harmed => ?_⟩
  obtain ⟨rest, hg⟩ := mem_of_mem_timersOf harmed
  exact hahead _ hg.mem

/-- No burst is left of a pipeline that is closed: its timer would be on the agenda. -/
theorem Executed.pending_of_closed (h : p.Executed w events s capacity) (hc : p.closed = true) :
    p.debouncer.pending = 0 := by
  cases hb : p.debouncer.bursts with
  | nil => rw [Debouncer.pending, hb, List.length_nil]
  | cons e bursts =>
    obtain ⟨space, b⟩ := e
    have hwaits : p.debouncer.burst? space = some b := by
      rw [Debouncer.burst?, hb, List.lookup_cons_self]
    obtain ⟨c, -, hfollows⟩ := h.reached.reindexing.course space
    obtain ⟨armed, hcb⟩ := hfollows.exists_burst hwaits
    obtain ⟨rest, hg⟩ := mem_of_mem_timersOf (hfollows.mem_timersOf hcb)
    exact Bool.noConfusion (h.order.quiet hc _ hg.mem)

/-- What is asked of the debouncer is not due before. -/
theorem InOrder.apply (h : p.InOrder) {e : Debouncer.Effect Nat}
    (he : ∀ d ∈ e.duties, p.now ≤ d.1)
    (hquiet : p.closed = true → e.duties.all fun d => d.2.isReindex) : (p.apply w e).InOrder := by
  obtain ⟨hs, hadds, -⟩ := adds_apply (w := w) p e
  refine ⟨sorted_apply h.sorted e, ?_, ?_⟩
  · rw [agenda_apply, hadds.now]
    intro x hx
    rcases Agenda.mem_addAll.mp hx with hx | hx
    · obtain ⟨d, hd, rfl⟩ := List.mem_map.mp hx
      exact he d hd
    · exact h.ahead x hx
  · rw [agenda_apply, hadds.closed]
    intro hc x hx
    rcases Agenda.mem_addAll.mp hx with hx | hx
    · obtain ⟨⟨t, d⟩, hd, rfl⟩ := List.mem_map.mp hx
      have hreindex := List.all_eq_true.mp (hquiet hc) _ hd
      cases d with
      | timer => cases hreindex
      | reindex => rfl
    · exact h.quiet hc x hx

theorem InOrder.record (h : p.InOrder) (x : Happening) : (p.record x).InOrder :=
  ⟨h.sorted, h.ahead, h.quiet⟩

theorem InOrder.settle (h : p.InOrder) (hc : p.closed = p.debouncer.cancelled) (taken : Taken) :
    (p.settle w taken).InOrder := by
  unfold Pipeline.settle
  split
  · exact h.record _
  · refine h.apply (fun d => Debouncer.le_of_mem_ask) fun hclosed => ?_
    rw [Debouncer.ask_of_cancelled (hc ▸ hclosed)]
    rfl

theorem InOrder.process (h : p.InOrder) (hc : p.closed = p.debouncer.cancelled) (worker : Nat)
    (taken : Taken) : (p.process w worker taken).InOrder := by
  have hprocess := processing w p worker taken
  generalize p.process w worker taken = q at hprocess ⊢
  cases hprocess with
  | skip => exact (h.record _).record _
  | settle => exact (h.record _).settle hc taken
  | instant => exact (((h.record _).record _).record _).settle hc taken
  | begin =>
    refine ⟨Agenda.sorted_insert h.sorted, ?_, ?_⟩
    · intro e he
      rcases Agenda.mem_insert.mp he with rfl | he
      · exact Nat.le_add_right _ _
      · exact h.ahead e he
    · intro hclosed e he
      rcases Agenda.mem_insert.mp he with rfl | he
      · rfl
      · exact h.quiet hclosed e he

theorem Executed.take (h : p.Executed w events s capacity) {worker place : Nat}
    {event : ChangeEvent} {queue : List (Nat × ChangeEvent)} (ho : p.closed = false)
    (hi : p.workers[worker]? = some .idle) (hq : p.channel.queue = (place, event) :: queue) :
    ((p.withQueue queue).process w worker ⟨place, event⟩).Executed w events s capacity := by
  have hrest : (p.withQueue queue).InOrder := ⟨h.order.sorted, h.order.ahead, h.order.quiet⟩
  exact ⟨.tail h.reached (.take ho hi hq), hrest.process h.reached.closed_eq worker _⟩

theorem Executed.feed (h : p.Executed w events s capacity) (ho : p.closed = false)
    (queue : List (Nat × ChangeEvent)) (hq : p.waiting = queue) :
    (p.feed w queue).Executed w events s capacity ∧ (p.feed w queue).closed = false := by
  induction queue generalizing p with
  | nil => exact ⟨h, ho⟩
  | cons e queue ih =>
    obtain ⟨place, event⟩ := e
    unfold Pipeline.feed
    split
    · exact ⟨h, ho⟩
    · rename_i worker hfound
      obtain ⟨hlt, hidle, -⟩ := List.findIdx?_eq_some_iff_getElem.mp hfound
      have hi : p.workers[worker]? = some .idle := by
        rw [List.getElem?_eq_getElem hlt, of_decide_eq_true hidle]
      obtain ⟨hs, hadds, -⟩ := adds_process w (p.withQueue queue) worker ⟨place, event⟩
      exact ih (h.take ho hi hq) (hadds.closed.trans ho)
        (waiting_process w (p.withQueue queue) worker _)

/-- Workers that are idle go one after the other. -/
theorem leads_leave (h : p.closed = true ∨ p.ended = true ∧ p.channel.queue = []) :
    Leads punctual w events p
      { p with workers := p.workers.map fun x => if x = .idle then .gone else x } := by
  have hall : ∀ before behind : List Worker, p.workers = before ++ behind →
      Leads punctual w events p
        { p with workers := before ++ behind.map fun x => if x = .idle then .gone else x } := by
    intro before behind
    induction behind generalizing p before with
    | nil =>
      intro hp
      rw [List.map_nil, ← hp]
      exact .refl
    | cons x behind ih =>
      intro hp
      by_cases hx : x = .idle
      · subst hx
        have hi : p.workers[before.length]? = some .idle := by
          rw [hp, List.getElem?_append_right (Nat.le_refl _), Nat.sub_self]
          rfl
        have hset : p.workers.set before.length .gone = (before ++ [.gone]) ++ behind := by
          rw [hp, List.set_append_right _ _ (Nat.le_refl _), Nat.sub_self]
          exact List.append_cons before .gone behind
        have hrest := ih (p := { p with workers := p.workers.set before.length .gone }) h
          (before ++ [.gone]) hset
        rw [List.append_assoc] at hrest
        exact .head (.leave h hi) hrest
      · have hrest := ih h (before ++ [x]) (hp.trans (List.append_cons ..))
        rw [List.append_assoc] at hrest
        rwa [List.map_cons, if_neg hx]
  exact hall [] p.workers rfl

theorem Executed.leave (h : p.Executed w events s capacity)
    (hl : p.closed = true ∨ p.ended = true ∧ p.channel.queue = []) :
    Executed w events s capacity
      { p with workers := p.workers.map fun x => if x = .idle then .gone else x } :=
  ⟨Relation.ReflTransGen.trans h.reached (leads_leave hl),
    h.order.sorted, h.order.ahead, h.order.quiet⟩

theorem Executed.dispatch (h : p.Executed w events s capacity) :
    (p.dispatch w).Executed w events s capacity := by
  unfold Pipeline.dispatch
  dsimp only
  by_cases hc : p.closed = true
  · rw [if_pos hc, if_pos (Bool.or_eq_true_iff.mpr (.inl hc))]
    exact h.leave (.inl hc)
  · have ho := Bool.eq_false_iff.mpr hc
    obtain ⟨hfed, hopen⟩ := h.feed ho p.channel.queue rfl
    rw [if_neg hc]
    split
    · rename_i hleave
      refine hfed.leave ((Bool.or_eq_true_iff.mp hleave).imp_right fun hended => ?_)
      exact (Bool.and_eq_true_iff.mp hended).imp_right List.isEmpty_iff.mp
    · exact hfed

theorem InOrder.next (h : p.InOrder) (hnext : p.agenda.entries = (time, duty) :: rest) :
    ({ p with now := time, agenda := ⟨rest⟩ } : Pipeline).InOrder := by
  have hsorted := h.sorted
  have hquiet := h.quiet
  rw [hnext] at hsorted hquiet
  obtain ⟨hhead, htail⟩ := List.pairwise_cons.mp hsorted
  exact ⟨htail, hhead, fun hc e he => hquiet hc e (List.mem_cons_of_mem _ he)⟩

/-- The clock moves to the first entry, which is carried out. -/
theorem Executed.perform (h : p.Executed w events s capacity)
    (hnext : p.agenda.entries = (time, duty) :: rest) :
    (p.perform w ⟨rest⟩ time duty).Executed w events s capacity := by
  have horder := h.order.next hnext
  have hle : p.now ≤ time := h.order.ahead (time, duty) (hnext ▸ List.mem_cons_self)
  have hahead : ∀ e ∈ p.agenda.entries, time ≤ e.1 := by
    rw [hnext]
    exact List.forall_mem_cons.mpr ⟨Nat.le_refl time, horder.ahead⟩
  have hpass : Reached True w events s capacity { p with now := time } :=
    .tail h.reached (.pass (mayReach_of_ahead hle hahead))
  have hc : p.closed = p.debouncer.cancelled := h.reached.closed_eq
  have hg : p.agenda.Gives (time, duty) ⟨rest⟩ := ⟨[], rest, hnext, rfl⟩
  cases duty with
  | reindexing d =>
    refine ⟨.tail hpass (.carryOut hg), horder.apply (fun _ => Debouncer.le_of_mem_perform) ?_⟩
    intro hclosed
    cases d with
    | reindex => rfl
    | timer space => exact Bool.noConfusion (h.order.quiet hclosed _ hg.mem)
  | call worker taken call =>
    let rested : Pipeline := { p with now := time, agenda := ⟨rest⟩ }
    have hback : (rested.afterCall w taken call).InOrder := (horder.record _).settle hc taken
    have hreleased : (rested.release w worker taken call).Executed w events s capacity :=
      ⟨.tail hpass (.endCall hg), hback.sorted, hback.ahead, hback.quiet⟩
    exact hreleased.dispatch

theorem Executed.runUntil (h : p.Executed w events s capacity) (limit : Nat) :
    (p.runUntil w limit).Executed w events s capacity := by
  fun_induction Pipeline.runUntil w limit p with
  | case1 => exact h
  | case2 p time duty rest hdue ih => exact ih (h.perform (Agenda.due?_eq_some hdue).1)

theorem Executed.conclude (h : p.Executed w events s capacity) :
    p.conclude.Executed w events s capacity := by
  unfold Pipeline.conclude
  split
  · rename_i hdone
    obtain ⟨hworkers, hagenda⟩ := Bool.and_eq_true_iff.mp hdone
    have hgone : ∀ x ∈ p.workers, x = .gone := fun x hx =>
      of_decide_eq_true (List.all_eq_true.mp hworkers x hx)
    exact ⟨.tail h.reached (.conclude hgone (List.isEmpty_iff.mp hagenda)), h.order.sorted,
      h.order.ahead, h.order.quiet⟩
  · exact h

theorem Executed.advance (h : p.Executed w events s capacity) :
    (p.advance w).Executed w events s capacity :=
  (h.dispatch.runUntil p.now).conclude

theorem now_feed (w : Workload) (p : Pipeline) (queue : List (Nat × ChangeEvent)) :
    (p.feed w queue).now = p.now := by
  induction queue generalizing p with
  | nil => rfl
  | cons e queue ih =>
    unfold Pipeline.feed
    split
    · rfl
    · rename_i worker _
      obtain ⟨hs, hadds, -⟩ := adds_process w (p.withQueue queue) worker ⟨e.1, e.2⟩
      exact (ih _).trans hadds.now

theorem now_dispatch (w : Workload) (p : Pipeline) : (p.dispatch w).now = p.now := by
  unfold Pipeline.dispatch
  dsimp only
  split
  · split <;> rfl
  · split <;> exact now_feed w p p.channel.queue

theorem now_perform (w : Workload) (p : Pipeline) (rest : Agenda Duty) (time : Nat) (duty : Duty) :
    (p.perform w rest time duty).now = time := by
  cases duty with
  | reindexing d =>
    obtain ⟨hs, hadds, -⟩ := adds_carryOut w { p with now := time, agenda := rest } d
    exact hadds.now
  | call worker taken call =>
    have hadds := adds_release (w := w) { p with now := time, agenda := rest } worker taken call
    exact (now_dispatch w _).trans hadds.now

/-- The clock has run until the limit: what was due is done, and the rest comes later. -/
theorem Executed.runsTo (h : p.Executed w events s capacity) (hle : p.now ≤ limit) :
    (p.runUntil w limit).now ≤ limit ∧
      ∀ e ∈ (p.runUntil w limit).agenda.entries, limit < e.1 := by
  fun_induction Pipeline.runUntil w limit p with
  | case1 p hdue => exact ⟨hle, Agenda.lt_of_due?_eq_none h.order.sorted hdue⟩
  | case2 p time duty rest hdue ih =>
    obtain ⟨hnext, htime⟩ := Agenda.due?_eq_some hdue
    exact ih (h.perform hnext) ((now_perform w p rest time duty).symm ▸ htime)

theorem Executed.sleep (h : p.Executed w events s capacity) (ms : Nat) :
    (p.sleep w ms).Executed w events s capacity := by
  have hrun := h.runUntil (p.now + ms)
  obtain ⟨hle, hlater⟩ := h.runsTo (Nat.le_add_right p.now ms)
  have hahead : ∀ e ∈ (p.runUntil w (p.now + ms)).agenda.entries, p.now + ms ≤ e.1 :=
    fun e he => Nat.le_of_lt (hlater e he)
  have hpass := Relation.ReflTransGen.tail hrun.reached (.pass (mayReach_of_ahead hle hahead))
  have hslept : ({ p.runUntil w (p.now + ms) with now := p.now + ms } : Pipeline).Executed
      w events s capacity := ⟨hpass, hrun.order.sorted, hahead, hrun.order.quiet⟩
  exact hslept.conclude

/-- An event is published, unless the stream refuses it or has no room. -/
theorem Executed.publish (h : p.Executed w events s capacity) :
    (p.publish w (events p.channel.deliveries.length)).2.Executed w events s capacity := by
  unfold Pipeline.publish
  split
  · exact h
  · rename_i hended
    split
    · exact h
    · rename_i outcome channel hother hpublish
      refine Executed.advance ⟨?_, h.order.sorted, h.order.ahead, h.order.quiet⟩
      cases outcome with
      | queued => exact .tail h.reached (.publish (Bool.eq_false_iff.mpr hended) hpublish)
      | refused e => exact absurd rfl (hother e)
      | full =>
        have hsame : channel = p.channel := by
          unfold Channel.publish at hpublish
          split at hpublish
          · cases hpublish
          · split at hpublish
            · cases hpublish
              rfl
            · cases hpublish
        rw [hsame]
        exact h.reached

theorem Executed.endStream (h : p.Executed w events s capacity) :
    (p.endStream w).Executed w events s capacity :=
  Executed.advance ⟨.tail h.reached (.endStream p), h.order.sorted, h.order.ahead, h.order.quiet⟩

/-- What is left when all timers have dropped their bursts. -/
def dropAll (p : Pipeline) : Pipeline := { p with
  debouncer := p.debouncer.cancel
  agenda := p.agenda.filter fun d => !d.isTimer
  history := p.history ++
    p.debouncer.bursts.map fun (space, b) => (p.now, .deferred (.dropped space b.acks)) }

theorem cancel_eq_dropAll (p : Pipeline) : p.cancel = p.stop.dropAll := by
  simp [cancel, stop, dropAll, record, Happening.tell, Happening.acks, Debouncer.stop,
    Debouncer.cancel]

theorem dropAll_drop {space : SpaceId} {b : Burst Nat} {bursts : List (SpaceId × Burst Nat)}
    {armed : Nat} {rest : Agenda Duty}
    (hg : p.agenda.Gives (armed, .reindexing (.timer space)) rest)
    (hb : p.debouncer.bursts = (space, b) :: bursts)
    (hrest : (p.debouncer.without space).bursts = bursts) :
    (p.drop rest space).dropAll = p.dropAll := by
  have hwaits : p.debouncer.waiting space = b.acks := by
    simp [Debouncer.waiting, Debouncer.burst?, hb]
  have hagenda : rest.filter (fun d => !d.isTimer) = p.agenda.filter fun d => !d.isTimer := by
    obtain ⟨before, behind, hbefore, hafter⟩ := hg
    simp [Agenda.filter, hbefore, hafter, Duty.isTimer]
  have hcancel : (p.debouncer.without space).cancel = p.debouncer.cancel := rfl
  simp only [dropAll, drop, record, Happening.tell, Happening.acks, List.foldl_nil, hwaits, hagenda,
    hcancel, hrest, hb, List.map_cons, List.append_assoc, List.singleton_append]

/-- Every armed timer belongs to a burst. -/
theorem dropAll_of_nil {after maxWait : Nat}
    (hs : ∀ space, ∃ c, p.reindexing.Follows after maxWait space c)
    (hc : p.debouncer.cancelled = true) (hb : p.debouncer.bursts = []) : p.dropAll = p := by
  have hagenda : p.agenda.filter (fun d => !d.isTimer) = p.agenda := by
    apply congrArg Agenda.mk
    apply List.filter_eq_self.mpr
    rintro ⟨time, duty⟩ hmem
    rcases duty with (⟨space⟩ | ⟨space, places⟩) | ⟨worker, taken, call⟩
    · obtain ⟨c, h⟩ := hs space
      have hnone : c.burst = none := by
        have hburst := h.burst?
        rw [Debouncer.burst?, Pipeline.reindexing, hb] at hburst
        exact Option.map_eq_none_iff.mp hburst.symm
      have htimer : time ∈ p.reindexing.timersOf space :=
        List.mem_filterMap.mpr ⟨(time, .timer space), List.mem_filterMap.mpr ⟨_, hmem, rfl⟩,
          Reindexing.timerOf?_timer time⟩
      rw [h.timers, hnone] at htimer
      exact absurd htimer List.not_mem_nil
    · rfl
    · rfl
  rw [dropAll, hagenda, Debouncer.cancel_eq_self hb hc, hb, List.map_nil, List.append_nil]

/-- One timer after the other drops its burst, until no timer is left. -/
theorem leads_dropAll {after maxWait : Nat}
    (hs : ∀ space, ∃ c, p.reindexing.Follows after maxWait space c) (hclosed : p.closed = true)
    (hc : p.debouncer.cancelled = true) : Leads punctual w events p p.dropAll := by
  generalize hbursts : p.debouncer.bursts = bursts
  induction bursts generalizing p with
  | nil =>
    rw [dropAll_of_nil hs hc hbursts]
    exact .refl
  | cons b bursts ih =>
    obtain ⟨space, b⟩ := b
    obtain ⟨c, h⟩ := hs space
    obtain ⟨⟨armed, harmed⟩, hrest⟩ := h.first_burst hbursts
    obtain ⟨rest, hg⟩ := mem_of_mem_timersOf harmed
    have htracked : ∀ other, ∃ c, (p.drop rest space).reindexing.Follows after maxWait other c := by
      intro other
      obtain ⟨c, h⟩ := hs other
      have hselect : p.reindexing.agenda.Gives (armed, .timer space)
          (rest.select Duty.reindexing?) := hg.select_of_some rfl
      obtain ⟨c', -, h'⟩ : ∃ c', Course.Leads True after maxWait other c c' ∧ _ :=
        h.drop hc hselect
      rw [reindexing_drop]
      exact ⟨c', h'⟩
    have hleads := ih htracked hclosed hc hrest
    rw [dropAll_drop hg hbursts hrest] at hleads
    exact .head (.drop hclosed hg) hleads

theorem Executed.cancel (h : p.Executed w events s capacity) (ho : p.closed = false) :
    p.cancel.Executed w events s capacity := by
  have hstop : Reached True w events s capacity p.stop := .tail h.reached (.stop ho)
  have htracked : ∀ space, ∃ c, p.stop.reindexing.Follows s.debounce
      (max s.debounceMaxWait s.debounce) space c := by
    intro space
    obtain ⟨c, -, hc⟩ := hstop.reindexing.course space
    exact ⟨c, hc⟩
  refine ⟨?_, Agenda.sorted_filter _ h.order.sorted, ?_, ?_⟩
  · rw [cancel_eq_dropAll]
    exact Relation.ReflTransGen.trans hstop (leads_dropAll htracked rfl rfl)
  · exact fun e he => h.order.ahead e (List.mem_filter.mp he).1
  · intro _ e he
    simpa using (List.mem_filter.mp he).2

/-- The pipeline may be closed again and again. -/
theorem Executed.close (h : p.Executed w events s capacity) :
    (p.close w).Executed w events s capacity := by
  unfold Pipeline.close
  split
  · exact h.advance
  · rename_i hc
    exact (h.cancel (Bool.eq_false_iff.mpr hc)).advance

theorem executed_start :
    (ofSettings s (.ofCapacity capacity)).Executed w events s capacity :=
  ⟨.refl, .nil, fun _ he => absurd he List.not_mem_nil, fun hc => Bool.noConfusion hc⟩

theorem Adds.length_deliveries {hs : List Happening} (h : Adds p hs q) :
    q.channel.deliveries.length = p.channel.deliveries.length := by
  rw [h.channel]
  exact (foldl_tell_keeps hs p.channel).2.1

theorem Step.length_deliveries (hst : Step punctual w events p q) :
    q.channel.deliveries.length = p.channel.deliveries.length ∨
      q.channel.deliveries.length = p.channel.deliveries.length + 1 := by
  cases hst with
  | publish ho hc => exact .inr (eq_withEvent hc ▸ List.length_append)
  | @take worker place event rest =>
    obtain ⟨hs, h, -⟩ := adds_process w (p.withQueue rest) worker ⟨place, event⟩
    exact .inl h.length_deliveries
  | @endCall time worker taken call rest =>
    exact .inl (adds_release (p.withAgenda rest) worker taken call).length_deliveries
  | @carryOut time duty rest =>
    obtain ⟨hs, h, -⟩ := adds_carryOut w (p.withAgenda rest) duty
    exact .inl h.length_deliveries
  | conclude =>
    left
    change p.channel.leave.deliveries.length = _
    unfold Channel.leave
    split <;> rfl
  | _ => exact .inl rfl

/-- Only the events that have been published matter. -/
theorem Reached.congr {other : Nat → ChangeEvent} (h : Reached punctual w events s capacity p)
    (ho : ∀ n < p.channel.deliveries.length, other n = events n) :
    Reached punctual w other s capacity p := by
  induction h with
  | refl => exact .refl
  | @tail p q hp hst ih =>
    have hlength := hst.length_deliveries
    have hbefore := ih fun n hn => ho n (by omega)
    refine .tail hbefore ?_
    cases hst with
    | pass h => exact .pass h
    | publish hopen hc =>
      have hpublished : p.channel.deliveries.length < (p.withEvent
          (events p.channel.deliveries.length)).channel.deliveries.length := by
        simp [withEvent]
      rw [← eq_withEvent hc] at hpublished
      exact .publish hopen (ho _ hpublished ▸ hc)
    | take hopen hi hq => exact .take hopen hi hq
    | endCall hg => exact .endCall hg
    | carryOut hg => exact .carryOut hg
    | stop hopen => exact .stop hopen
    | drop hc hg => exact .drop hc hg
    | endStream => exact .endStream p
    | leave hl hi => exact .leave hl hi
    | conclude hw ha => exact .conclude hw ha

/-- What is done with a pipeline from outside. -/
inductive Command where
  | publish (event : ChangeEvent) : Command
  | sleep (ms : Nat) : Command
  | endStream : Command
  | close : Command

def Command.run (w : Workload) (p : Pipeline) : Command → Pipeline
  | .publish event => (p.publish w event).2
  | .sleep ms => p.sleep w ms
  | .endStream => p.endStream w
  | .close => p.close w

theorem Executed.command (h : p.Executed w events s capacity) (command : Command) :
    ∃ other, (command.run w p).Executed w other s capacity := by
  cases command with
  | publish event =>
    let other : Nat → ChangeEvent := Function.update events p.channel.deliveries.length event
    have hsame : ∀ n < p.channel.deliveries.length, other n = events n := fun n hn =>
      Function.update_of_ne (Nat.ne_of_lt hn) event events
    have hother : p.Executed w other s capacity := ⟨h.reached.congr hsame, h.order⟩
    have hpublish := hother.publish
    rw [show other p.channel.deliveries.length = event from Function.update_self ..] at hpublish
    exact ⟨other, hpublish⟩
  | sleep ms => exact ⟨events, h.sleep ms⟩
  | endStream => exact ⟨events, h.endStream⟩
  | close => exact ⟨events, h.close⟩

/-- Whatever is done with a pipeline, it is a run of the steps with punctual timers. -/
theorem executed_run (w : Workload) (s : EventSettings) (capacity : Nat) (script : List Command) :
    ∃ events, (script.foldl (Command.run w) (ofSettings s (.ofCapacity capacity))).Executed w events
      s capacity := by
  induction script using List.reverseRecOn with
  | nil => exact ⟨fun _ => default, executed_start⟩
  | append_singleton script command ih =>
    obtain ⟨events, h⟩ := ih
    rw [List.foldl_append]
    exact h.command command

end ResourceIndex.Pipeline
