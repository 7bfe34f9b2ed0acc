import ResourceIndex.Proofs.Debounce.Chronicle
import ResourceIndex.Proofs.Pipeline.Steps
/-
One event of a stream. It waits in the queue, or a worker has a call to make for it, or all is done
that a worker does with it. Every step of a pipeline leads from one of these stages to another.
-/
namespace ResourceIndex.Pipeline

/-- The last thing that a worker does with an event that it has made its call for. -/
inductive Closes (n : Nat) (e : ChangeEvent) : Happening → Prop
  | purged (h : e.isPurge = true) : Closes n e (.acked n)
  | asked (h : e.isPurge = false) : Closes n e (.deferred (.asked e.space n))
  | refused (h : e.isPurge = false) : Closes n e (.deferred (.refused e.space n))

/-- All that a worker does with the event at a place, with its times. -/
inductive Handled (w : Workload) (asyncUploads : Bool) (n : Nat) (e : ChangeEvent) :
    List (Nat × Happening) → Prop
  | skipped (worker time : Nat) (h : e.isSubscribed asyncUploads = false) :
      Handled w asyncUploads n e [(time, .taken worker n), (time, .acked n)]
  | uncalled (worker time : Nat) (h : e.isSubscribed asyncUploads = true) (hc : e.call? = none)
      {last : Happening} (hl : Closes n e last) :
      Handled w asyncUploads n e [(time, .taken worker n), (time, last)]
  | called (worker time later : Nat) (h : e.isSubscribed asyncUploads = true) {call : IndexCall}
      (hc : e.call? = some call) {last : Happening} (hl : Closes n e last) :
      Handled w asyncUploads n e [(time, .taken worker n), (time, .called n call),
        (later, .returned n call (w.callResult n call)), (later, last)]

/-- What there is of the event at a place. -/
structure View where
  published : Bool
  queued : List ChangeEvent
  /-- Its calls that have not ended, with their workers. -/
  calls : List (Nat × ChangeEvent × IndexCall)
  doings : List (Nat × Happening)

/-- The view after more has been done. -/
def View.after (v : View) (new : List (Nat × Happening)) : View :=
  { v with doings := v.doings ++ new }

/-- The stages of an event. One that waits at the end of a closed pipeline is left behind. -/
inductive Stage (w : Workload) (asyncUploads gone : Bool) (n : Nat) (e : ChangeEvent) :
    View → Prop
  | unpublished : Stage w asyncUploads gone n e ⟨false, [], [], []⟩
  | unread : Stage w asyncUploads gone n e ⟨true, [e], [], []⟩
  | left (h : gone = true) : Stage w asyncUploads gone n e ⟨true, [], [], []⟩
  | calling (worker time : Nat) (h : e.isSubscribed asyncUploads = true) {call : IndexCall}
      (hc : e.call? = some call) : Stage w asyncUploads gone n e
        ⟨true, [], [(worker, e, call)], [(time, .taken worker n), (time, .called n call)]⟩
  | handled {doings : List (Nat × Happening)} (h : Handled w asyncUploads n e doings) :
      Stage w asyncUploads gone n e ⟨true, [], [], doings⟩

/-- What workers have done with the event at a place. -/
def doings (p : Pipeline) (n : Nat) : List (Nat × Happening) :=
  p.history.filter fun e => e.2.place? = some n

def queuedAt? (n : Nat) (x : Nat × ChangeEvent) : Option ChangeEvent :=
  if x.1 = n then some x.2 else none

def Duty.callAt? (n : Nat) : Nat × Duty → Option (Nat × ChangeEvent × IndexCall)
  | (_, .call worker taken c) => if taken.place = n then some (worker, taken.event, c) else none
  | (_, .reindexing _) => none

/-- Whether the stream has gone with the events that waited. -/
def abandoned (p : Pipeline) : Bool := p.closed && p.finished

def view (p : Pipeline) (n : Nat) : View where
  published := n < p.channel.deliveries.length
  queued := p.channel.queue.filterMap (queuedAt? n)
  calls := p.agenda.pick (Duty.callAt? n)
  doings := p.doings n

variable {w : Workload} {p q : Pipeline} {hs : List Happening} {n : Nat} {e : ChangeEvent}
  {punctual : Prop} {events : Nat → ChangeEvent} {asyncUploads gone : Bool}

theorem View.after_after (v : View) (new later : List (Nat × Happening)) :
    (v.after new).after later = v.after (new ++ later) := by
  simp only [after, List.append_assoc]

theorem tell_keeps (h : Happening) (c : Channel) :
    (h.tell c).queue = c.queue ∧ (h.tell c).deliveries.length = c.deliveries.length ∧
      (h.tell c).consumer = c.consumer := by
  have hacks : ∀ (places : List Nat) (c : Channel),
      (places.foldl Channel.ack c).queue = c.queue ∧
        (places.foldl Channel.ack c).deliveries.length = c.deliveries.length ∧
        (places.foldl Channel.ack c).consumer = c.consumer := by
    intro places
    induction places with
    | nil => exact fun _ => ⟨rfl, rfl, rfl⟩
    | cons place places ih =>
      intro c
      obtain ⟨hq, hd, hc⟩ := ih (c.ack place)
      exact ⟨hq, hd.trans (List.length_modify ..), hc⟩
  cases h with
  | taken worker place => exact ⟨rfl, List.length_modify .., rfl⟩
  | _ => exact hacks _ c

theorem foldl_tell_keeps (hs : List Happening) (c : Channel) :
    (hs.foldl Happening.tell c).queue = c.queue ∧
      (hs.foldl Happening.tell c).deliveries.length = c.deliveries.length ∧
      (hs.foldl Happening.tell c).consumer = c.consumer := by
  induction hs generalizing c with
  | nil => exact ⟨rfl, rfl, rfl⟩
  | cons h hs ih =>
    obtain ⟨hq, hd, hc⟩ := ih (h.tell c)
    obtain ⟨hq', hd', hc'⟩ := tell_keeps h c
    exact ⟨hq.trans hq', hd.trans hd', hc.trans hc'⟩

theorem Adds.view (h : Adds p hs q)
    (ha : q.agenda.pick (Duty.callAt? n) = p.agenda.pick (Duty.callAt? n)) : q.view n =
      (p.view n).after ((hs.filter fun x => x.place? = some n).map fun x => (p.now, x)) := by
  obtain ⟨hq, hd, -⟩ := foldl_tell_keeps hs p.channel
  unfold Pipeline.view View.after doings
  rw [h.history, h.channel, hq, hd, ha, List.filter_append, List.filter_map]
  rfl

/-- What happens elsewhere does not concern the event. -/
theorem Adds.view_of_ne (h : Adds p hs q) (hn : ∀ x ∈ hs, x.place? ≠ some n)
    (ha : q.agenda.pick (Duty.callAt? n) = p.agenda.pick (Duty.callAt? n)) :
    q.view n = p.view n := by
  have hnone : hs.filter (fun x => x.place? = some n) = [] :=
    List.filter_eq_nil_iff.mpr fun x hx => by simpa using hn x hx
  rw [h.view ha, hnone, View.after, List.map_nil, List.append_nil]

/-- What happens to the event alone. -/
theorem Adds.view_self (h : Adds p hs q) (hn : ∀ x ∈ hs, x.place? = some n)
    (ha : q.agenda.pick (Duty.callAt? n) = p.agenda.pick (Duty.callAt? n)) :
    q.view n = (p.view n).after (hs.map fun x => (p.now, x)) := by
  have hall : hs.filter (fun x => x.place? = some n) = hs :=
    List.filter_eq_self.mpr fun x hx => by simpa using hn x hx
  rw [h.view ha, hall]

theorem calls_apply (p : Pipeline) (e : Debouncer.Effect Nat) (n : Nat) :
    (p.apply w e).agenda.pick (Duty.callAt? n) = p.agenda.pick (Duty.callAt? n) := by
  rw [agenda_apply]
  apply Agenda.pick_addAll_of_none
  intro x hx
  obtain ⟨d, -, rfl⟩ := List.mem_map.mp hx
  rfl

theorem calls_settle (p : Pipeline) (taken : Taken) (n : Nat) :
    (p.settle w taken).agenda.pick (Duty.callAt? n) = p.agenda.pick (Duty.callAt? n) := by
  unfold settle
  split
  · rfl
  · exact calls_apply p _ n

theorem callAt?_of_ne {time worker : Nat} {taken : Taken} {call : IndexCall}
    (h : taken.place ≠ n) : Duty.callAt? n (time, .call worker taken call) = none :=
  if_neg h

theorem callAt?_self (time worker : Nat) (taken : Taken) (call : IndexCall) :
    Duty.callAt? taken.place (time, .call worker taken call) = some (worker, taken.event, call) :=
  if_pos rfl

theorem closes_closing (p : Pipeline) (taken : Taken) :
    Closes taken.place taken.event (p.closing taken) := by
  unfold closing Debouncer.reception
  split
  · rename_i h
    exact .purged h
  · rename_i h
    have hpurge := Bool.eq_false_iff.mpr h
    split
    · exact .refused hpurge
    · exact .asked hpurge

theorem not_place?_of_hears {happenings : List (Debouncer.Happening Nat)}
    (h : Hears hs happenings) (hn : ∀ x ∈ happenings, x.made = []) :
    ∀ x ∈ hs, x.place? ≠ some n := by
  intro x hx
  cases hd : x.deferred? with
  | none =>
    obtain ⟨space, result, rfl⟩ := h.others x hx hd
    exact nofun
  | some y =>
    have hy : y ∈ happenings := h.deferred ▸ List.mem_filterMap.mpr ⟨x, hx, hd⟩
    have hmade := hn y hy
    cases x with
    | deferred z =>
      obtain rfl : z = y := Option.some.inj hd
      cases z <;> simp_all [Happening.place?]
    | _ => cases hd

theorem made_perform {d : Debouncer Nat} {work now : Nat} {duty : Debouncer.Duty Nat} :
    ∀ x ∈ (d.perform work now duty).happenings, x.made = [] := by
  cases duty with
  | reindex => simp [Debouncer.perform]
  | timer space =>
    unfold Debouncer.perform
    dsimp only
    split
    · simp
    · simp
    · simp
    · split <;> simp

theorem view_record {h : Happening} (hn : h.place? = some n) :
    (p.record h).view n = (p.view n).after [(p.now, h)] :=
  (adds_record p h).view_self (List.forall_mem_singleton.mpr hn) rfl

theorem view_withAgenda (p : Pipeline) (a : Agenda Duty) (n : Nat) :
    (p.withAgenda a).view n = { p.view n with calls := a.pick (Duty.callAt? n) } := rfl

theorem view_settle (p : Pipeline) (taken : Taken) : (p.settle w taken).view taken.place =
    (p.view taken.place).after [(p.now, p.closing taken)] :=
  (adds_settle p taken).view_self (List.forall_mem_singleton.mpr (place?_closing p taken))
    (calls_settle p taken _)

theorem view_afterCall (p : Pipeline) (taken : Taken) (call : IndexCall) :
    (p.afterCall w taken call).view taken.place = (p.view taken.place).after
      [(p.now, .returned taken.place call (w.callResult taken.place call)),
        (p.now, p.closing taken)] := by
  rw [afterCall, view_settle, view_record rfl]
  exact View.after_after ..

/-- A worker that takes an event makes its call or is done with it. -/
theorem stage_process {worker : Nat} {taken : Taken}
    (hp : p.view taken.place = ⟨true, [], [], []⟩) :
    Stage w p.asyncUploads gone taken.place taken.event
      ((p.process w worker taken).view taken.place) := by
  have htaken : (p.record (.taken worker taken.place)).view taken.place =
      ⟨true, [], [], [(p.now, .taken worker taken.place)]⟩ := by
    rw [view_record rfl, hp]
    rfl
  have hprocess := processing w p worker taken
  generalize p.process w worker taken = q at hprocess ⊢
  cases hprocess with
  | skip hs =>
    rw [view_record rfl, htaken]
    exact .handled (.skipped worker p.now hs)
  | settle hs hc =>
    rw [view_settle, htaken]
    exact .handled (.uncalled worker p.now hs hc (closes_closing _ taken))
  | @instant hs call hc =>
    rw [view_afterCall, view_record rfl, htaken]
    exact .handled (.called worker p.now p.now hs hc (closes_closing _ taken))
  | @begin hs call hc =>
    let called := (p.record (.taken worker taken.place)).record (.called taken.place call)
    have hcalled : called.view taken.place = ⟨true, [], [],
        [(p.now, .taken worker taken.place), (p.now, .called taken.place call)]⟩ := by
      rw [view_record rfl, htaken]
      rfl
    let agenda := p.agenda.add (p.now + w.callTime taken.place call) (.call worker taken call)
    have hcalls : agenda.pick (Duty.callAt? taken.place) = [(worker, taken.event, call)] :=
      Agenda.pick_add_of_nil (congrArg View.calls hp) (callAt?_self _ worker taken call)
    change Stage _ _ _ _ _ ((called.withAgenda agenda).view taken.place)
    rw [view_withAgenda, hcalled, hcalls]
    exact .calling worker p.now hs hc

/-- A call that has not ended is that of the worker which has taken the event. -/
theorem Stage.calls {v : View} {worker : Nat} {event : ChangeEvent} {call : IndexCall}
    (h : Stage w asyncUploads gone n e v) (hc : (worker, event, call) ∈ v.calls) :
    event = e ∧ e.isSubscribed asyncUploads = true ∧ e.call? = some call ∧
      ∃ time, v = ⟨true, [], [(worker, e, call)],
        [(time, .taken worker n), (time, .called n call)]⟩ := by
  cases h with
  | calling other time hs hcall =>
    cases List.mem_singleton.mp hc
    exact ⟨rfl, hs, hcall, time, rfl⟩
  | _ => exact absurd hc List.not_mem_nil

/-- A worker that is back from its call is done with the event. -/
theorem stage_release {time worker : Nat} {taken : Taken} {call : IndexCall} {rest : Agenda Duty}
    (h : Stage w p.asyncUploads gone taken.place e (p.view taken.place))
    (hg : p.agenda.Gives (time, .call worker taken call) rest) :
    Stage w p.asyncUploads gone taken.place e
      (((p.withAgenda rest).release w worker taken call).view taken.place) := by
  have hself := callAt?_self time worker taken call
  have hmem : (worker, taken.event, call) ∈ (p.view taken.place).calls :=
    List.mem_filterMap.mpr ⟨_, hg.mem, hself⟩
  obtain ⟨hevent, hs, hc, since, hview⟩ := h.calls hmem
  have hcalls : p.agenda.pick (Duty.callAt? taken.place) = (some (worker, e, call)).toList :=
    congrArg View.calls hview
  obtain ⟨-, hrest⟩ := hg.pick_of_toList hself hcalls
  change Stage _ _ _ _ _ (((p.withAgenda rest).afterCall w taken call).view taken.place)
  rw [view_afterCall, view_withAgenda, hrest, hview]
  exact .handled (.called worker since p.now hs hc (hevent ▸ closes_closing _ taken))

theorem Stage.mono {v : View} {later : Bool} (h : Stage w asyncUploads gone n e v)
    (hl : gone = true → later = true) : Stage w asyncUploads later n e v := by
  cases h with
  | unpublished => exact .unpublished
  | unread => exact .unread
  | left ha => exact .left (hl ha)
  | calling worker time hs hc => exact .calling worker time hs hc
  | handled h => exact .handled h

/-- The stream with one more event that waits. -/
def withEvent (p : Pipeline) (event : ChangeEvent) : Pipeline := { p with
  channel := { p.channel with
    queue := p.channel.queue ++ [(p.channel.deliveries.length, event)]
    deliveries := p.channel.deliveries ++ [⟨0, false⟩] } }

theorem eq_withEvent {c : Channel} {event : ChangeEvent}
    (h : p.channel.publish event = (.queued, c)) :
    ({ p with channel := c } : Pipeline) = p.withEvent event := by
  unfold Channel.publish at h
  split at h
  · cases h
  · split at h
    · cases h
    · cases h
      rfl

theorem view_withEvent_self (p : Pipeline) (event : ChangeEvent) :
    (p.withEvent event).view p.channel.deliveries.length =
      { p.view p.channel.deliveries.length with
        published := true
        queued := (p.view p.channel.deliveries.length).queued ++ [event] } := by
  simp [view, withEvent, queuedAt?, List.filterMap_append]
  rfl

theorem view_withEvent_of_ne (event : ChangeEvent) (hn : p.channel.deliveries.length ≠ n) :
    (p.withEvent event).view n = p.view n := by
  have hlt : n < p.channel.deliveries.length + 1 ↔ n < p.channel.deliveries.length := by omega
  simp [view, withEvent, queuedAt?, hn, List.filterMap_append, hlt]
  rfl

theorem stage_withEvent (h : Stage w p.asyncUploads p.abandoned n (events n) (p.view n)) :
    Stage w p.asyncUploads p.abandoned n (events n)
      ((p.withEvent (events p.channel.deliveries.length)).view n) := by
  by_cases hn : p.channel.deliveries.length = n
  · subst hn
    have hnew : (p.view p.channel.deliveries.length).published = false :=
      decide_eq_false (Nat.lt_irrefl _)
    rw [view_withEvent_self]
    generalize p.view p.channel.deliveries.length = v at h hnew
    cases h with
    | unpublished => exact .unread
    | _ => cases hnew
  · rw [view_withEvent_of_ne _ hn]
    exact h

theorem view_withQueue (p : Pipeline) (queue : List (Nat × ChangeEvent)) (n : Nat) :
    (p.withQueue queue).view n =
      { p.view n with queued := queue.filterMap (queuedAt? n) } := rfl

/-- The event that is taken is the one that waits, and nothing has been done with it. -/
theorem stage_take {worker place : Nat} {event : ChangeEvent} {rest : List (Nat × ChangeEvent)}
    (h : Stage w p.asyncUploads gone place e (p.view place))
    (hq : p.channel.queue = (place, event) :: rest) :
    Stage w p.asyncUploads gone place e
      (((p.withQueue rest).process w worker ⟨place, event⟩).view place) := by
  have hqueued : (p.view place).queued = event :: rest.filterMap (queuedAt? place) := by
    simp [view, hq, queuedAt?]
  have hunread : p.view place = ⟨true, [e], [], []⟩ := by
    generalize p.view place = v at h hqueued
    cases h with
    | unread => rfl
    | _ => cases hqueued
  rw [hunread] at hqueued
  obtain ⟨rfl, hrest⟩ := List.cons.inj hqueued
  let taken : Taken := ⟨place, e⟩
  have hview : (p.withQueue rest).view taken.place = ⟨true, [], [], []⟩ := by
    rw [view_withQueue, hunread, ← hrest]
  exact stage_process hview

theorem calls_process_of_ne {worker : Nat} {taken : Taken} (hn : taken.place ≠ n) :
    (p.process w worker taken).agenda.pick (Duty.callAt? n) =
      p.agenda.pick (Duty.callAt? n) := by
  have hprocess := processing w p worker taken
  generalize p.process w worker taken = q at hprocess ⊢
  cases hprocess with
  | skip => rfl
  | settle => exact calls_settle _ taken n
  | instant => exact calls_settle _ taken n
  | begin => exact Agenda.pick_add_of_none (callAt?_of_ne hn)

theorem view_process_of_ne {worker : Nat} {taken : Taken} (hn : taken.place ≠ n) :
    (p.process w worker taken).view n = p.view n := by
  obtain ⟨hs, hadds, hplace⟩ := adds_process w p worker taken
  refine hadds.view_of_ne ?_ (calls_process_of_ne hn)
  intro x hx hsome
  exact hn (Option.some.inj ((hplace x hx).symm.trans hsome))

theorem view_release_of_ne {time worker : Nat} {taken : Taken} {call : IndexCall}
    {rest : Agenda Duty} (hn : taken.place ≠ n)
    (hg : p.agenda.Gives (time, .call worker taken call) rest) :
    ((p.withAgenda rest).release w worker taken call).view n = p.view n := by
  have hrest : (p.withAgenda rest).view n = p.view n := by
    rw [view_withAgenda, hg.pick_of_none (callAt?_of_ne hn)]
    rfl
  rw [← hrest]
  refine (adds_release (p.withAgenda rest) worker taken call).view_of_ne ?_ (calls_settle _ taken n)
  have hplace : ∀ x : Happening, x.place? = some taken.place → x.place? ≠ some n :=
    fun x hx hsome => hn (Option.some.inj (hx.symm.trans hsome))
  exact List.forall_mem_cons.mpr ⟨hplace _ rfl,
    List.forall_mem_singleton.mpr (hplace _ (place?_closing _ taken))⟩

theorem view_carryOut {time : Nat} {duty : Debouncer.Duty Nat} {rest : Agenda Duty}
    (hg : p.agenda.Gives (time, .reindexing duty) rest) :
    ((p.withAgenda rest).carryOut w duty).view n = p.view n := by
  have hrest : (p.withAgenda rest).view n = p.view n := by
    rw [view_withAgenda, hg.pick_of_none rfl]
    rfl
  obtain ⟨hs, hadds, hhears⟩ := adds_carryOut w (p.withAgenda rest) duty
  rw [← hrest]
  exact hadds.view_of_ne (not_place?_of_hears hhears made_perform) (calls_apply _ _ n)

theorem view_drop {time : Nat} {space : SpaceId} {rest : Agenda Duty}
    (hg : p.agenda.Gives (time, .reindexing (.timer space)) rest) :
    (p.drop rest space).view n = p.view n := by
  have hadds := adds_record { p with debouncer := p.debouncer.without space, agenda := rest }
    (.deferred (.dropped space (p.debouncer.waiting space)))
  refine (hadds.view_of_ne (List.forall_mem_singleton.mpr nofun) rfl).trans ?_
  change (p.withAgenda rest).view n = p.view n
  rw [view_withAgenda, hg.pick_of_none rfl]
  rfl

/-- As long as no worker has gone there may be events to take, and there is a worker. -/
structure Staffed (p : Pipeline) : Prop where
  workers : p.workers ≠ []
  gone : .gone ∈ p.workers → p.closed = true ∨ p.ended = true ∧ p.channel.queue = []

theorem workers_process (w : Workload) (p : Pipeline) (worker : Nat) (taken : Taken) :
    (p.process w worker taken).workers = p.workers ∨
      (p.process w worker taken).workers = p.workers.set worker (.busy taken) := by
  have hprocess := processing w p worker taken
  generalize p.process w worker taken = q at hprocess ⊢
  cases hprocess with
  | skip => exact .inl rfl
  | settle => exact .inl (workers_settle _ taken)
  | instant => exact .inl (workers_settle _ taken)
  | begin => exact .inr rfl

theorem set_ne_nil {workers : List Worker} (h : workers ≠ []) (k : Nat) (x : Worker) :
    workers.set k x ≠ [] := fun hnil =>
  h (List.eq_nil_of_length_eq_zero ((List.length_set ..).symm.trans (congrArg List.length hnil)))

theorem gone_of_mem_set {workers : List Worker} {k : Nat} {x : Worker} (hx : x ≠ .gone)
    (h : .gone ∈ workers.set k x) : .gone ∈ workers :=
  (List.mem_or_eq_of_mem_set h).resolve_right (Ne.symm hx)

theorem Adds.abandoned (h : Adds p hs q) : q.abandoned = p.abandoned := by
  unfold Pipeline.abandoned
  rw [h.closed, h.finished]

theorem Adds.queue (h : Adds p hs q) : q.channel.queue = p.channel.queue := by
  rw [h.channel]
  exact (foldl_tell_keeps hs p.channel).1

theorem Staffed.of_adds (h : p.Staffed) (ha : Adds p hs q)
    (hw : q.workers = p.workers ∨ ∃ k x, x ≠ .gone ∧ q.workers = p.workers.set k x) :
    q.Staffed := by
  have hgone : .gone ∈ p.workers → q.closed = true ∨ q.ended = true ∧ q.channel.queue = [] := by
    rw [ha.closed, ha.ended, ha.queue]
    exact h.gone
  rcases hw with hsame | ⟨k, x, hx, hset⟩
  · exact ⟨hsame ▸ h.workers, fun hmem => hgone (hsame ▸ hmem)⟩
  · exact ⟨hset ▸ set_ne_nil h.workers k x, fun hmem => hgone (gone_of_mem_set hx (hset ▸ hmem))⟩

theorem Staffed.step (h : p.Staffed) (hst : Step punctual w events p q) : q.Staffed := by
  cases hst with
  | publish ho =>
    refine ⟨h.workers, fun hmem => (h.gone hmem).imp_right fun hended => ?_⟩
    exact absurd (ho.symm.trans hended.1) Bool.false_ne_true
  | @take worker place event rest ho hi hq =>
    have hpresent : .gone ∉ p.workers := by
      intro hmem
      rcases h.gone hmem with hclosed | ⟨-, hempty⟩
      · exact Bool.false_ne_true (ho.symm.trans hclosed)
      · exact absurd (hq.symm.trans hempty) (List.cons_ne_nil _ _)
    have hrest : (p.withQueue rest).Staffed := ⟨h.workers, fun hmem => absurd hmem hpresent⟩
    obtain ⟨hs, hadds, -⟩ := adds_process w (p.withQueue rest) worker ⟨place, event⟩
    have hworkers := workers_process w (p.withQueue rest) worker ⟨place, event⟩
    exact hrest.of_adds hadds (hworkers.imp_right fun hset => ⟨worker, .busy _, nofun, hset⟩)
  | @endCall time worker taken call rest hg =>
    have hrest : (p.withAgenda rest).Staffed := ⟨h.workers, h.gone⟩
    refine hrest.of_adds (adds_release _ worker taken call) (.inr ⟨worker, .idle, nofun, ?_⟩)
    exact congrArg (List.set · worker .idle) (workers_settle _ taken)
  | @carryOut time duty rest hg =>
    have hrest : (p.withAgenda rest).Staffed := ⟨h.workers, h.gone⟩
    obtain ⟨hs, hadds, -⟩ := adds_carryOut w (p.withAgenda rest) duty
    exact hrest.of_adds hadds (.inl (workers_apply _ _))
  | stop => exact ⟨h.workers, fun _ => .inl rfl⟩
  | endStream => exact ⟨h.workers, fun hmem => (h.gone hmem).imp_right fun hq => ⟨rfl, hq.2⟩⟩
  | leave hl => exact ⟨set_ne_nil h.workers _ _, fun _ => hl⟩
  | conclude =>
    refine ⟨h.workers, fun hmem => (h.gone hmem).imp_right fun hq => ⟨hq.1, ?_⟩⟩
    change p.channel.leave.queue = []
    unfold Channel.leave
    split
    · rfl
    · exact hq.2
  | _ => exact ⟨h.workers, h.gone⟩

theorem Staffed.conclude (h : p.Staffed) (hw : ∀ x ∈ p.workers, x = .gone) :
    p.closed = true ∨ p.channel.queue = [] := by
  obtain ⟨x, hx⟩ := List.exists_mem_of_ne_nil _ h.workers
  exact (h.gone (hw x hx ▸ hx)).imp_right And.right

/-- When all workers have gone, nothing waits any more, or it is left behind by a close. -/
theorem stage_conclude (h : Stage w p.asyncUploads p.abandoned n e (p.view n))
    (hq : p.closed = true ∨ p.channel.queue = []) :
    Stage w p.asyncUploads p.closed n e
      (({ p with channel := p.channel.leave, finished := true } : Pipeline).view n) := by
  have hview : ({ p with channel := p.channel.leave, finished := true } : Pipeline).view n =
      p.view n ∨ ({ p with channel := p.channel.leave, finished := true } : Pipeline).view n =
        { p.view n with queued := [] } := by
    unfold Channel.leave
    split
    · exact .inr rfl
    · exact .inl rfl
  replace h := h.mono fun ha => (Bool.and_eq_true_iff.mp ha).1
  rcases hview with hsame | hlost
  · rwa [hsame]
  · rw [hlost]
    rcases hq with hclosed | hempty
    · generalize p.view n = v at h
      cases h with
      | unpublished => exact .unpublished
      | unread => exact .left hclosed
      | left hc => exact .left hc
      | calling worker time hs hc => exact .calling worker time hs hc
      | handled h => exact .handled h
    · have hqueued : (p.view n).queued = [] := by simp [view, hempty]
      rw [← hqueued]
      exact h

theorem Stage.step (h : Stage w p.asyncUploads p.abandoned n (events n) (p.view n))
    (hst : Step punctual w events p q) (hp : p.Staffed) :
    Stage w q.asyncUploads q.abandoned n (events n) (q.view n) := by
  cases hst with
  | publish ho hc => exact eq_withEvent hc ▸ stage_withEvent h
  | @take worker place event rest ho hi hq =>
    obtain ⟨hs, hadds, -⟩ := adds_process w (p.withQueue rest) worker ⟨place, event⟩
    rw [hadds.asyncUploads, hadds.abandoned]
    by_cases hn : place = n
    · subst hn
      exact stage_take (p := p) h hq
    · rw [view_process_of_ne (p := p.withQueue rest) hn, view_withQueue]
      have hqueued : rest.filterMap (queuedAt? n) = (p.view n).queued := by
        simp [view, hq, queuedAt?, hn]
      rw [hqueued]
      exact h
  | @endCall time worker taken call rest hg =>
    have hadds := adds_release (w := w) (p.withAgenda rest) worker taken call
    rw [hadds.asyncUploads, hadds.abandoned]
    by_cases hn : taken.place = n
    · subst hn
      exact stage_release (p := p) h hg
    · rw [view_release_of_ne hn hg]
      exact h
  | @carryOut time duty rest hg =>
    obtain ⟨hs, hadds, -⟩ := adds_carryOut w (p.withAgenda rest) duty
    rw [hadds.asyncUploads, hadds.abandoned, view_carryOut hg]
    exact h
  | stop =>
    have hadds := adds_record { p with closed := true, debouncer := p.debouncer.stop }
      (.deferred .cancelled)
    have hview : p.stop.view n = p.view n :=
      hadds.view_of_ne (List.forall_mem_singleton.mpr nofun) rfl
    rw [hview]
    exact h.mono fun ha => (Bool.and_eq_true_iff.mp ha).2
  | drop hc hg => exact view_drop hg ▸ h
  | conclude hw =>
    refine (stage_conclude h (hp.conclude hw)).mono fun hclosed => ?_
    exact (Bool.and_true p.closed).trans hclosed
  | _ => exact h

section

variable {s : EventSettings} {capacity : Nat}

theorem Reached.staffed (h : Reached punctual w events s capacity p) : p.Staffed := by
  induction h with
  | refl =>
    refine ⟨?_, fun hmem => nomatch List.eq_of_mem_replicate hmem⟩
    intro hnil
    have hlength := congrArg List.length hnil
    simp only [ofSettings, List.length_replicate, List.length_nil] at hlength
    omega
  | tail _ hst ih => exact ih.step hst

/-- Every event of the stream is at one of its stages. -/
theorem Reached.stage (h : Reached punctual w events s capacity p) (n : Nat) :
    Stage w p.asyncUploads p.abandoned n (events n) (p.view n) := by
  induction h with
  | refl => exact .unpublished
  | tail hp hst ih => exact ih.step hst (Reached.staffed hp)

end

end ResourceIndex.Pipeline
