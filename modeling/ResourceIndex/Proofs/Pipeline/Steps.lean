import ResourceIndex.Proofs.Pipeline.Happenings
/-
The runs of a pipeline, one step after another. The stream brings its events at any time, any idle
worker takes the next one, and calls, reindexes and timers come to their ends in any order. Punctual
timers are not passed over by the clock; when timers learn of a close is left open.
-/
namespace ResourceIndex.Pipeline

variable {w : Workload} {p q r : Pipeline}

/-- Takes no further events and accepts no further requests. -/
def stop (p : Pipeline) : Pipeline :=
  { p with closed := true, debouncer := p.debouncer.stop }.record (.deferred .cancelled)

/-- A timer that is taken off the agenda has learnt of the close and drops its burst. -/
def drop (p : Pipeline) (rest : Agenda Duty) (space : SpaceId) : Pipeline :=
  { p with debouncer := p.debouncer.without space, agenda := rest }.record
    (.deferred (.dropped space (p.debouncer.waiting space)))

/-- The steps of a pipeline whose stream brings the given events. -/
inductive Step (punctual : Prop) (w : Workload) (events : Nat → ChangeEvent) :
    Pipeline → Pipeline → Prop
  | pass {p : Pipeline} {time : Nat} (h : p.reindexing.MayReach punctual time) :
      Step punctual w events p { p with now := time }
  | publish {p : Pipeline} {channel : Channel} (ho : p.ended = false)
      (h : p.channel.publish (events p.channel.deliveries.length) = (.queued, channel)) :
      Step punctual w events p { p with channel := channel }
  | take {p : Pipeline} {worker place : Nat} {event : ChangeEvent} {rest : List (Nat × ChangeEvent)}
      (ho : p.closed = false) (hi : p.workers[worker]? = some .idle)
      (hq : p.channel.queue = (place, event) :: rest) :
      Step punctual w events p ((p.withQueue rest).process w worker ⟨place, event⟩)
  | endCall {p : Pipeline} {time worker : Nat} {taken : Taken} {call : IndexCall}
      {rest : Agenda Duty} (h : p.agenda.Gives (time, .call worker taken call) rest) :
      Step punctual w events p ((p.withAgenda rest).release w worker taken call)
  /-- A timer wakes, or a reindex ends. -/
  | carryOut {p : Pipeline} {time : Nat} {duty : Debouncer.Duty Nat} {rest : Agenda Duty}
      (h : p.agenda.Gives (time, .reindexing duty) rest) :
      Step punctual w events p ((p.withAgenda rest).carryOut w duty)
  /-- The first close; to close again is no step. -/
  | stop {p : Pipeline} (ho : p.closed = false) : Step punctual w events p p.stop
  | drop {p : Pipeline} {time : Nat} {space : SpaceId} {rest : Agenda Duty} (hc : p.closed = true)
      (h : p.agenda.Gives (time, .reindexing (.timer space)) rest) :
      Step punctual w events p (p.drop rest space)
  | endStream (p : Pipeline) : Step punctual w events p { p with ended := true }
  /-- A worker goes when there can be no event for it any more. -/
  | leave {p : Pipeline} {worker : Nat}
      (h : p.closed = true ∨ p.ended = true ∧ p.channel.queue = [])
      (hi : p.workers[worker]? = some .idle) :
      Step punctual w events p { p with workers := p.workers.set worker .gone }
  | conclude {p : Pipeline} (hw : ∀ x ∈ p.workers, x = .gone) (ha : p.agenda.entries = []) :
      Step punctual w events p { p with channel := p.channel.leave, finished := true }

/-- A run leads from one pipeline to another. -/
def Leads (punctual : Prop) (w : Workload) (events : Nat → ChangeEvent) :
    Pipeline → Pipeline → Prop :=
  Relation.ReflTransGen (Step punctual w events)

/-- What a service with these settings comes to. -/
def Reached (punctual : Prop) (w : Workload) (events : Nat → ChangeEvent) (s : EventSettings)
    (capacity : Nat) (p : Pipeline) : Prop :=
  Leads punctual w events (.ofSettings s (.ofCapacity capacity)) p

section

variable {punctual : Prop} {events : Nat → ChangeEvent} {s : EventSettings} {capacity : Nat}

theorem Step.sorted (hst : Step punctual w events p q) (hp : Agenda.Sorted p.agenda.entries) :
    Agenda.Sorted q.agenda.entries := by
  cases hst with
  | take => exact sorted_process (by exact hp) _ _
  | endCall h => exact sorted_settle (by exact h.sorted hp) _
  | carryOut h => exact sorted_apply (by exact h.sorted hp) _
  | drop _ h => exact h.sorted hp
  | _ => exact hp

theorem Reached.sorted (h : Reached punctual w events s capacity p) :
    Agenda.Sorted p.agenda.entries := by
  induction h with
  | refl => exact .nil
  | tail _ hst ih => exact hst.sorted ih

/-- The debouncer is asked for a reindex, or nothing concerns it. -/
def AsksOnly (p : Pipeline) (taken : Taken) (q : Pipeline) : Prop :=
  q.reindexing = p.reindexing ∨
    q.reindexing = p.reindexing.ask taken.event.space taken.place

theorem asksOnly_settle (hp : Agenda.Sorted p.agenda.entries) (taken : Taken)
    (hq : p.reindexing = r.reindexing) : r.AsksOnly taken (p.settle w taken) := by
  unfold AsksOnly
  rw [reindexing_settle hp, hq]
  split
  · exact .inl rfl
  · exact .inr rfl

theorem asksOnly_process (hp : Agenda.Sorted p.agenda.entries) (worker : Nat) (taken : Taken) :
    p.AsksOnly taken (p.process w worker taken) := by
  have htaken : (p.record (.taken worker taken.place)).reindexing = p.reindexing :=
    reindexing_record rfl
  have hprocess := processing w p worker taken
  generalize p.process w worker taken = q at hprocess ⊢
  cases hprocess with
  | skip => exact .inl ((reindexing_record rfl).trans htaken)
  | settle => exact asksOnly_settle (p := p.record _) hp taken htaken
  | @instant _ call =>
    let called := (p.record (.taken worker taken.place)).record (.called taken.place call)
    have hcalled : called.reindexing = p.reindexing := (reindexing_record rfl).trans htaken
    exact asksOnly_settle (p := called.record _) hp taken ((reindexing_record rfl).trans hcalled)
  | begin =>
    exact .inl ((adds_begin p worker taken _).reindexing_of_nil rfl
      (Agenda.select_add_of_none rfl) rfl)

theorem asksOnly_release {time worker : Nat} {taken : Taken} {call : IndexCall}
    {rest : Agenda Duty} (hp : Agenda.Sorted p.agenda.entries)
    (h : p.agenda.Gives (time, .call worker taken call) rest) :
    p.AsksOnly taken ((p.withAgenda rest).release w worker taken call) := by
  have hadds : Adds p [] (p.withAgenda rest) := adds_nil rfl rfl rfl rfl rfl rfl rfl
  have hrest : (p.withAgenda rest).reindexing = p.reindexing :=
    hadds.reindexing_of_nil rfl (h.select_of_none rfl) rfl
  exact asksOnly_settle (p := (p.withAgenda rest).record _) (h.sorted hp) taken
    ((reindexing_record rfl).trans hrest)

theorem reindexing_carryOut (hp : Agenda.Sorted p.agenda.entries) (duty : Debouncer.Duty Nat) :
    (p.carryOut w duty).reindexing =
      p.reindexing.perform w.reindexTime p.reindexing.agenda p.now duty := by
  rw [carryOut, reindexing_apply hp, reindexTime, ← startCount_reindexing]
  rfl

theorem reindexing_stop (p : Pipeline) : p.stop.reindexing = p.reindexing.stop := by
  have hstopped := adds_record { p with closed := true, debouncer := p.debouncer.stop }
    (.deferred .cancelled)
  exact hstopped.reindexing rfl rfl

theorem reindexing_drop (p : Pipeline) (rest : Agenda Duty) (space : SpaceId) :
    (p.drop rest space).reindexing =
      p.reindexing.drop (rest.select Duty.reindexing?) space := by
  have hdropped := adds_record { p with debouncer := p.debouncer.without space, agenda := rest }
    (.deferred (.dropped space (p.debouncer.waiting space)))
  exact hdropped.reindexing rfl rfl

theorem AsksOnly.runs {taken : Taken} (h : p.AsksOnly taken q) :
    Relation.ReflTransGen (Reindexing.Step punctual w.reindexTime) p.reindexing q.reindexing := by
  rcases h with hsame | hasked
  · rw [hsame]
  · rw [hasked]
    exact .single (.ask _ _ _)

theorem AsksOnly.cancelled {taken : Taken} (h : p.AsksOnly taken q) :
    q.debouncer.cancelled = p.debouncer.cancelled := by
  rcases h with hsame | hasked
  · exact congrArg (fun s : Reindexing Nat => s.debouncer.cancelled) hsame
  · exact (congrArg (fun s : Reindexing Nat => s.debouncer.cancelled) hasked).trans
      (Debouncer.cancelled_ask taken.place)

theorem mem_of_mem_timersOf {space : SpaceId} {armed : Nat}
    (h : armed ∈ p.reindexing.timersOf space) :
    ∃ rest, p.agenda.Gives (armed, .reindexing (.timer space)) rest := by
  obtain ⟨⟨t, d⟩, hmem, htimer⟩ := List.mem_filterMap.mp h
  obtain ⟨⟨t', x⟩, hx, hsome⟩ := List.mem_filterMap.mp hmem
  obtain ⟨d', hd, heq⟩ := Option.map_eq_some_iff.mp hsome
  cases heq
  cases x with
  | call => cases hd
  | reindexing y =>
    obtain rfl : y = d := Option.some.inj hd
    cases y with
    | reindex => cases htimer
    | timer other =>
      obtain ⟨rfl, heq⟩ := Option.ite_none_right_eq_some.mp htimer
      cases heq
      exact Agenda.exists_gives hx

/-- The pipeline is closed exactly if its debouncer takes no requests. -/
theorem Step.closed_eq (hst : Step punctual w events p q)
    (hp : Agenda.Sorted p.agenda.entries) (hc : p.closed = p.debouncer.cancelled) :
    q.closed = q.debouncer.cancelled := by
  cases hst with
  | @take worker place event rest =>
    obtain ⟨hs, hadds, -⟩ := adds_process w (p.withQueue rest) worker ⟨place, event⟩
    exact hadds.closed.trans
      (hc.trans (asksOnly_process (p := p.withQueue rest) hp worker _).cancelled.symm)
  | endCall h =>
    exact (adds_release _ _ _ _).closed.trans (hc.trans (asksOnly_release hp h).cancelled.symm)
  | @carryOut time duty rest =>
    obtain ⟨hs, hadds, -⟩ := adds_carryOut w (p.withAgenda rest) duty
    exact hadds.closed.trans (hc.trans (cancelled_carryOut (p.withAgenda rest) duty).symm)
  | stop => rfl
  | _ => exact hc

/-- A step of the pipeline is none for its debouncer or a step of it. -/
theorem Step.reindexing (hst : Step punctual w events p q)
    (hp : Agenda.Sorted p.agenda.entries) (hc : p.closed = p.debouncer.cancelled) :
    Relation.ReflTransGen (Reindexing.Step punctual w.reindexTime) p.reindexing q.reindexing := by
  cases hst with
  | pass h => exact .single (.pass h)
  | @take worker place event rest =>
    exact (asksOnly_process (p := p.withQueue rest) hp worker ⟨place, event⟩).runs
  | endCall h => exact (asksOnly_release hp h).runs
  | carryOut h =>
    rw [reindexing_carryOut (h.sorted hp)]
    exact .single (.carryOut (h.select_of_some rfl))
  | stop =>
    rw [reindexing_stop]
    exact .single (.stop _)
  | drop hclosed h =>
    rw [reindexing_drop]
    exact .single (.drop (hc ▸ hclosed) (h.select_of_some rfl))
  | _ => exact .refl

theorem Step.asyncUploads_eq (hst : Step punctual w events p q) :
    q.asyncUploads = p.asyncUploads := by
  cases hst with
  | @take worker place event rest =>
    obtain ⟨hs, hadds, -⟩ := adds_process w (p.withQueue rest) worker ⟨place, event⟩
    exact hadds.asyncUploads
  | @endCall time worker taken call rest =>
    exact (adds_release (p.withAgenda rest) worker taken call).asyncUploads
  | @carryOut time duty rest =>
    obtain ⟨hs, hadds, -⟩ := adds_carryOut w (p.withAgenda rest) duty
    exact hadds.asyncUploads
  | _ => rfl

theorem Reached.asyncUploads_eq (h : Reached punctual w events s capacity p) :
    p.asyncUploads = s.asyncUploads := by
  induction h with
  | refl => rfl
  | tail _ hst ih => exact hst.asyncUploads_eq.trans ih

theorem Reached.closed_eq (h : Reached punctual w events s capacity p) :
    p.closed = p.debouncer.cancelled := by
  induction h with
  | refl => rfl
  | tail hp hst ih => exact hst.closed_eq (Reached.sorted hp) ih

theorem Leads.reindexing (h : Leads punctual w events p q) (hp : Agenda.Sorted p.agenda.entries)
    (hc : p.closed = p.debouncer.cancelled) :
    Relation.ReflTransGen (Reindexing.Step punctual w.reindexTime) p.reindexing q.reindexing := by
  induction h using Relation.ReflTransGen.head_induction_on with
  | refl => exact .refl
  | head hst _ ih => exact (hst.reindexing hp hc).trans (ih (hst.sorted hp) (hst.closed_eq hp hc))

theorem Reached.reindexing (h : Reached punctual w events s capacity p) :
    p.reindexing.Reached punctual w.reindexTime s.debounce s.debounceMaxWait :=
  Leads.reindexing h .nil rfl

end

end ResourceIndex.Pipeline
