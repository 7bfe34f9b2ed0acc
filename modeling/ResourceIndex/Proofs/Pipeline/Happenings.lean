import ResourceIndex.Pipeline.Run
import ResourceIndex.Proofs.Debounce.Operations
/-
What happens when a worker is at an event and when a duty of the debouncer is carried out, and what
the debouncer sees of it: nothing, a request, or its own duty.
-/
namespace ResourceIndex.Pipeline

def Duty.reindexing? : Duty → Option (Debouncer.Duty Nat)
  | .reindexing d => some d
  | .call .. => none

def Happening.deferred? : Happening → Option (Debouncer.Happening Nat)
  | .deferred h => some h
  | _ => none

variable {w : Workload} {p q r : Pipeline} {hs hs' : List Happening}
  {happenings happenings' : List (Debouncer.Happening Nat)}

/-- The place of the event that a worker is at. -/
def Happening.place? : Happening → Option Nat
  | .taken _ place | .called place _ | .returned place _ _ | .acked place
  | .deferred (.asked _ place) | .deferred (.refused _ place) => some place
  | _ => none

def withAgenda (p : Pipeline) (agenda : Agenda Duty) : Pipeline := { p with agenda := agenda }

/-- What the debouncer of a pipeline goes through. -/
def reindexing (p : Pipeline) : Reindexing Nat where
  debouncer := p.debouncer
  agenda := p.agenda.select Duty.reindexing?
  now := p.now
  history := p.history.filterMap fun e => e.2.deferred?.map fun h => (e.1, h)

/-- This happens now, whatever becomes of the debouncer, the agenda and the workers. -/
structure Adds (p : Pipeline) (hs : List Happening) (q : Pipeline) : Prop where
  history : q.history = p.history ++ hs.map fun h => (p.now, h)
  channel : q.channel = hs.foldl Happening.tell p.channel
  now : q.now = p.now
  asyncUploads : q.asyncUploads = p.asyncUploads
  closed : q.closed = p.closed
  ended : q.ended = p.ended
  finished : q.finished = p.finished

theorem adds_nil (hh : q.history = p.history) (hc : q.channel = p.channel) (hn : q.now = p.now)
    (ha : q.asyncUploads = p.asyncUploads) (hcl : q.closed = p.closed) (he : q.ended = p.ended)
    (hf : q.finished = p.finished) : Adds p [] q :=
  ⟨hh.trans (List.append_nil _).symm, hc, hn, ha, hcl, he, hf⟩

theorem adds_record (p : Pipeline) (h : Happening) : Adds p [h] (p.record h) :=
  ⟨rfl, rfl, rfl, rfl, rfl, rfl, rfl⟩

theorem Adds.trans (h : Adds p hs q) (h' : Adds q hs' r) : Adds p (hs ++ hs') r where
  history := by rw [h'.history, h.history, h.now, List.map_append, List.append_assoc]
  channel := by rw [h'.channel, h.channel, List.foldl_append]
  now := h'.now.trans h.now
  asyncUploads := h'.asyncUploads.trans h.asyncUploads
  closed := h'.closed.trans h.closed
  ended := h'.ended.trans h.ended
  finished := h'.finished.trans h.finished

/-- Nothing happens but to the debouncer, apart from the results of reindexes. -/
structure Hears (hs : List Happening) (happenings : List (Debouncer.Happening Nat)) : Prop where
  deferred : hs.filterMap Happening.deferred? = happenings
  others : ∀ h ∈ hs, h.deferred? = none → ∃ space result, h = .reindexed space result

theorem Hears.append (h : Hears hs happenings) (h' : Hears hs' happenings') :
    Hears (hs ++ hs') (happenings ++ happenings') where
  deferred := by rw [List.filterMap_append, h.deferred, h'.deferred]
  others := fun x hx =>
    (List.mem_append.mp hx).elim (h.others x) (h'.others x)

theorem adds_hear (p : Pipeline) (h : Debouncer.Happening Nat) :
    ∃ hs, Adds p hs (p.hear w h) ∧ Hears hs [h] := by
  have hone : Hears [.deferred h] [h] := by
    refine ⟨rfl, fun x hx hnone => ?_⟩
    rw [List.mem_singleton.mp hx] at hnone
    cases hnone
  cases h with
  | ended space places =>
    have hback : Hears [.reindexed space (w.reindexResult space (p.startCount space - 1))] [] :=
      ⟨rfl, fun x hx _ => ⟨_, _, List.mem_singleton.mp hx⟩⟩
    exact ⟨_, (adds_record p _).trans (adds_record _ _), hback.append hone⟩
  | _ => exact ⟨_, adds_record p _, hone⟩

theorem adds_foldl_hear (p : Pipeline) (happenings : List (Debouncer.Happening Nat)) :
    ∃ hs, Adds p hs (happenings.foldl (hear w) p) ∧ Hears hs happenings := by
  induction happenings generalizing p with
  | nil =>
    exact ⟨[], adds_nil rfl rfl rfl rfl rfl rfl rfl, rfl, fun _ h => absurd h List.not_mem_nil⟩
  | cons h rest ih =>
    obtain ⟨hs, hadds, hhears⟩ := adds_hear (w := w) p h
    obtain ⟨hs', hadds', hhears'⟩ := ih (p.hear w h)
    exact ⟨hs ++ hs', hadds.trans hadds', hhears.append hhears'⟩

theorem adds_apply (p : Pipeline) (e : Debouncer.Effect Nat) :
    ∃ hs, Adds p hs (p.apply w e) ∧ Hears hs e.happenings := by
  let started : Pipeline := { p with
    debouncer := e.debouncer
    agenda := p.agenda.addAll (e.duties.map fun d => (d.1, .reindexing d.2)) }
  have hstarted : Adds p [] started := adds_nil rfl rfl rfl rfl rfl rfl rfl
  obtain ⟨hs, hadds, hhears⟩ := adds_foldl_hear (w := w) started e.happenings
  exact ⟨hs, hstarted.trans hadds, hhears⟩

theorem foldl_hear_frame (p : Pipeline) (happenings : List (Debouncer.Happening Nat)) :
    (happenings.foldl (hear w) p).debouncer = p.debouncer ∧
      (happenings.foldl (hear w) p).workers = p.workers := by
  induction happenings generalizing p with
  | nil => exact ⟨rfl, rfl⟩
  | cons h rest ih =>
    have hhear : (p.hear w h).debouncer = p.debouncer ∧ (p.hear w h).workers = p.workers := by
      cases h <;> exact ⟨rfl, rfl⟩
    obtain ⟨hd, hw⟩ := ih (p.hear w h)
    exact ⟨hd.trans hhear.1, hw.trans hhear.2⟩

theorem debouncer_apply (p : Pipeline) (e : Debouncer.Effect Nat) :
    (p.apply w e).debouncer = e.debouncer :=
  (foldl_hear_frame _ e.happenings).1

theorem workers_apply (p : Pipeline) (e : Debouncer.Effect Nat) :
    (p.apply w e).workers = p.workers :=
  (foldl_hear_frame _ e.happenings).2

theorem agenda_apply (p : Pipeline) (e : Debouncer.Effect Nat) :
    (p.apply w e).agenda = p.agenda.addAll (e.duties.map fun d => (d.1, .reindexing d.2)) :=
  (foldl_hear_keeps w _ e.happenings).2

theorem startCount_reindexing (p : Pipeline) (space : SpaceId) :
    p.reindexing.startCount space = p.startCount space := by
  unfold Reindexing.startCount startCount reindexing
  rw [List.countP_filterMap]
  congr 1
  funext e
  obtain ⟨time, h⟩ := e
  cases h <;> rfl

theorem Adds.reindexing (h : Adds p hs q) {d : Debouncer Nat} {a : Agenda (Debouncer.Duty Nat)}
    (hd : q.debouncer = d) (ha : q.agenda.select Duty.reindexing? = a) :
    q.reindexing = ⟨d, a, p.now, p.reindexing.history ++
      (hs.filterMap Happening.deferred?).map fun h => (p.now, h)⟩ := by
  unfold Pipeline.reindexing
  rw [hd, ha, h.now, h.history, List.filterMap_append, List.filterMap_map, List.map_filterMap]
  rfl

/-- What is no concern of the debouncer. -/
theorem Adds.reindexing_of_nil (h : Adds p hs q) (hd : q.debouncer = p.debouncer)
    (ha : q.agenda.select Duty.reindexing? = p.agenda.select Duty.reindexing?)
    (hnone : hs.filterMap Happening.deferred? = []) : q.reindexing = p.reindexing := by
  rw [h.reindexing hd ha, hnone, List.map_nil, List.append_nil]
  rfl

theorem reindexing_record {h : Happening} (hnone : h.deferred? = none) :
    (p.record h).reindexing = p.reindexing :=
  (adds_record p h).reindexing_of_nil rfl rfl (List.filterMap_cons_none hnone)

theorem reindexing_apply (hp : Agenda.Sorted p.agenda.entries) (e : Debouncer.Effect Nat) :
    (p.apply w e).reindexing = p.reindexing.apply e := by
  obtain ⟨hs, hadds, hhears⟩ := adds_apply (w := w) p e
  have hagenda : (p.apply w e).agenda.select Duty.reindexing? =
      (p.agenda.select Duty.reindexing?).addAll e.duties := by
    rw [agenda_apply]
    exact Agenda.select_addAll (fun d => (rfl : (Duty.reindexing d).reindexing? = some d)) hp _
  rw [hadds.reindexing (debouncer_apply p e) hagenda, hhears.deferred]
  rfl

/-- What a worker does with an event in the end. -/
def closing (p : Pipeline) (taken : Taken) : Happening :=
  if taken.event.isPurge then .acked taken.place
  else .deferred (p.debouncer.reception taken.event.space taken.place)

theorem adds_settle (p : Pipeline) (taken : Taken) :
    Adds p [p.closing taken] (p.settle w taken) := by
  unfold settle closing
  split
  · exact adds_record p _
  · have hask : (p.debouncer.ask p.now taken.event.space taken.place).happenings =
        [p.debouncer.reception taken.event.space taken.place] := Debouncer.happenings_ask ..
    unfold apply
    rw [hask]
    unfold Debouncer.reception
    split
    · exact ⟨rfl, rfl, rfl, rfl, rfl, rfl, rfl⟩
    · exact ⟨rfl, rfl, rfl, rfl, rfl, rfl, rfl⟩

theorem workers_settle (p : Pipeline) (taken : Taken) : (p.settle w taken).workers = p.workers := by
  unfold settle
  split
  · rfl
  · exact workers_apply p _

/-- The debouncer is asked for a reindex, unless the event is a purge. -/
theorem reindexing_settle (hp : Agenda.Sorted p.agenda.entries) (taken : Taken) :
    (p.settle w taken).reindexing = if taken.event.isPurge then p.reindexing
      else p.reindexing.ask taken.event.space taken.place := by
  unfold settle
  split
  · exact reindexing_record rfl
  · exact reindexing_apply hp _

theorem adds_afterCall (p : Pipeline) (taken : Taken) (call : IndexCall) :
    Adds p [.returned taken.place call (w.callResult taken.place call), p.closing taken]
      (p.afterCall w taken call) :=
  (adds_record p _).trans (adds_settle _ taken)

/-- The ways in which a worker starts on an event. -/
inductive Processing (w : Workload) (p : Pipeline) (worker : Nat) (taken : Taken) : Pipeline → Prop
  | skip (hs : taken.event.isSubscribed p.asyncUploads = false) :
      Processing w p worker taken
        ((p.record (.taken worker taken.place)).record (.acked taken.place))
  | settle (hs : taken.event.isSubscribed p.asyncUploads = true)
      (hc : taken.event.call? = none) :
      Processing w p worker taken ((p.record (.taken worker taken.place)).settle w taken)
  | instant (hs : taken.event.isSubscribed p.asyncUploads = true) {call : IndexCall}
      (hc : taken.event.call? = some call) :
      Processing w p worker taken
        (((p.record (.taken worker taken.place)).record (.called taken.place call)).afterCall w
          taken call)
  | begin (hs : taken.event.isSubscribed p.asyncUploads = true) {call : IndexCall}
      (hc : taken.event.call? = some call) :
      Processing w p worker taken
        { (p.record (.taken worker taken.place)).record (.called taken.place call) with
          workers := p.workers.set worker (.busy taken)
          agenda := p.agenda.add (p.now + w.callTime taken.place call) (.call worker taken call) }

theorem adds_begin (p : Pipeline) (worker : Nat) (taken : Taken) (call : IndexCall)
    {workers : List Worker} {agenda : Agenda Duty} :
    Adds p [.taken worker taken.place, .called taken.place call]
      { (p.record (.taken worker taken.place)).record (.called taken.place call) with
        workers := workers
        agenda := agenda } :=
  ⟨List.append_assoc .., rfl, rfl, rfl, rfl, rfl, rfl⟩

theorem processing (w : Workload) (p : Pipeline) (worker : Nat) (taken : Taken) :
    Processing w p worker taken (p.process w worker taken) := by
  unfold process
  dsimp only
  split
  · rename_i hs
    split
    · rename_i hc
      exact .settle hs hc
    · rename_i call hc
      unfold makeCall
      dsimp only
      split
      · exact .instant (w := w) (p := p) hs hc
      · exact .begin (w := w) (p := p) hs hc
  · rename_i hs
    exact .skip (Bool.eq_false_iff.mpr hs)

theorem place?_closing (p : Pipeline) (taken : Taken) :
    (p.closing taken).place? = some taken.place := by
  unfold closing Debouncer.reception
  split
  · rfl
  · split <;> rfl

/-- A worker is at its own event. -/
theorem adds_process (w : Workload) (p : Pipeline) (worker : Nat) (taken : Taken) :
    ∃ hs, Adds p hs (p.process w worker taken) ∧ ∀ h ∈ hs, h.place? = some taken.place := by
  have hclosing : ∀ h ∈ [p.closing taken], h.place? = some taken.place := by
    intro h hh
    rw [List.mem_singleton.mp hh, place?_closing]
  have hprocess := processing w p worker taken
  generalize p.process w worker taken = q at hprocess ⊢
  cases hprocess with
  | skip =>
    exact ⟨_, (adds_record p _).trans (adds_record _ _), by simp [Happening.place?]⟩
  | settle =>
    refine ⟨_, (adds_record p _).trans (adds_settle _ taken), ?_⟩
    exact List.forall_mem_cons.mpr ⟨rfl, hclosing⟩
  | @instant _ call =>
    refine ⟨_, ((adds_record p _).trans (adds_record _ _)).trans (adds_afterCall _ taken call), ?_⟩
    refine List.forall_mem_cons.mpr ⟨rfl, List.forall_mem_cons.mpr ⟨rfl, ?_⟩⟩
    exact List.forall_mem_cons.mpr ⟨rfl, hclosing⟩
  | begin => exact ⟨_, adds_begin p worker taken _, by simp [Happening.place?]⟩

theorem adds_release (p : Pipeline) (worker : Nat) (taken : Taken) (call : IndexCall) :
    Adds p [.returned taken.place call (w.callResult taken.place call), p.closing taken]
      (p.release w worker taken call) :=
  (adds_afterCall p taken call).trans (adds_nil rfl rfl rfl rfl rfl rfl rfl)

theorem adds_carryOut (w : Workload) (p : Pipeline) (duty : Debouncer.Duty Nat) :
    ∃ hs, Adds p hs (p.carryOut w duty) ∧
      Hears hs (p.debouncer.perform (p.reindexTime w duty) p.now duty).happenings :=
  adds_apply p _

theorem cancelled_carryOut (p : Pipeline) (duty : Debouncer.Duty Nat) :
    (p.carryOut w duty).debouncer.cancelled = p.debouncer.cancelled :=
  (congrArg Debouncer.cancelled (debouncer_apply p _)).trans (Debouncer.cancelled_perform duty)

theorem sorted_apply (hp : Agenda.Sorted p.agenda.entries) (e : Debouncer.Effect Nat) :
    Agenda.Sorted (p.apply w e).agenda.entries := by
  rw [agenda_apply]
  exact Agenda.sorted_addAll hp

theorem sorted_settle (hp : Agenda.Sorted p.agenda.entries) (taken : Taken) :
    Agenda.Sorted (p.settle w taken).agenda.entries := by
  unfold settle
  split
  · exact hp
  · exact sorted_apply hp _

theorem sorted_process (hp : Agenda.Sorted p.agenda.entries) (worker : Nat) (taken : Taken) :
    Agenda.Sorted (p.process w worker taken).agenda.entries := by
  have hprocess := processing w p worker taken
  generalize p.process w worker taken = q at hprocess ⊢
  cases hprocess with
  | skip => exact hp
  | settle => exact sorted_settle (by exact hp) taken
  | instant => exact sorted_settle (by exact hp) taken
  | begin => exact Agenda.sorted_insert hp

end ResourceIndex.Pipeline
