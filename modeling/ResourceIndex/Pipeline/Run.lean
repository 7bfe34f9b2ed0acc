import ResourceIndex.Pipeline.Basic
/-
The pipeline on its clock: events are published, time passes, and in the end the stream ends or
the pipeline is closed. What is due is carried out in order; this comes to an end since a duty
leaves less to do until a given time, or takes an event from the queue.
-/
namespace ResourceIndex.Pipeline

variable (w : Workload) (p : Pipeline)

abbrev waiting : List (Nat × ChangeEvent) := p.channel.queue

theorem waiting_record (h : Happening) : (p.record h).waiting = p.waiting := by
  have hack : ∀ (places : List Nat) (c : Channel),
      (places.foldl Channel.ack c).queue = c.queue := by
    intro places
    induction places with
    | nil => exact fun _ => rfl
    | cons place places ih => exact fun c => ih (c.ack place)
  cases h with
  | taken => rfl
  | _ => exact hack _ p.channel

theorem waiting_hear (h : Debouncer.Happening Nat) : (p.hear w h).waiting = p.waiting := by
  cases h with
  | ended space places => exact (waiting_record _ _).trans (waiting_record p _)
  | _ => exact waiting_record p _

theorem agenda_hear (h : Debouncer.Happening Nat) : (p.hear w h).agenda = p.agenda := by
  cases h <;> rfl

theorem foldl_hear_keeps (happenings : List (Debouncer.Happening Nat)) :
    (happenings.foldl (hear w) p).waiting = p.waiting ∧
      (happenings.foldl (hear w) p).agenda = p.agenda := by
  induction happenings generalizing p with
  | nil => exact ⟨rfl, rfl⟩
  | cons h rest ih =>
    obtain ⟨hwaiting, hagenda⟩ := ih (p.hear w h)
    exact ⟨hwaiting.trans (waiting_hear w p h), hagenda.trans (agenda_hear w p h)⟩

theorem waiting_apply (e : Debouncer.Effect Nat) : (p.apply w e).waiting = p.waiting :=
  (foldl_hear_keeps w _ e.happenings).1

theorem weigh_apply (limit : Nat) (e : Debouncer.Effect Nat) :
    (p.apply w e).agenda.weigh (Duty.weight limit) =
      p.agenda.weigh (Duty.weight limit) +
        Agenda.total (Debouncer.Duty.weight limit) e.duties := by
  unfold apply
  rw [(foldl_hear_keeps w _ e.happenings).2, Agenda.weigh_addAll, Agenda.total_map]
  rfl

theorem weight_ask (d : Debouncer Nat) (now limit : Nat) (space : SpaceId) (place : Nat) :
    Agenda.total (Debouncer.Duty.weight limit) (d.ask now space place).duties ≤
      3 * (limit + 1 - now) + 2 := by
  unfold Debouncer.ask
  split <;> simp [Debouncer.Duty.weight]

theorem waiting_settle (taken : Taken) : (p.settle w taken).waiting = p.waiting := by
  unfold settle
  split
  · exact waiting_record p _
  · exact waiting_apply w p _

theorem weigh_settle (limit : Nat) (taken : Taken) :
    (p.settle w taken).agenda.weigh (Duty.weight limit) ≤
      p.agenda.weigh (Duty.weight limit) + (3 * (limit + 1 - p.now) + 2) := by
  unfold settle
  split
  · exact Nat.le_add_right _ _
  · rw [weigh_apply]
    have := weight_ask p.debouncer p.now limit taken.event.space taken.place
    omega

theorem waiting_afterCall (taken : Taken) (call : IndexCall) :
    (p.afterCall w taken call).waiting = p.waiting :=
  (waiting_settle w _ taken).trans (waiting_record p _)

theorem weigh_afterCall (limit : Nat) (taken : Taken) (call : IndexCall) :
    (p.afterCall w taken call).agenda.weigh (Duty.weight limit) ≤
      p.agenda.weigh (Duty.weight limit) + (3 * (limit + 1 - p.now) + 2) :=
  weigh_settle w (p.record (.returned taken.place call (w.callResult taken.place call))) limit taken

theorem waiting_process (worker : Nat) (taken : Taken) :
    (p.process w worker taken).waiting = p.waiting := by
  have htaken := waiting_record p (.taken worker taken.place)
  unfold process
  dsimp only
  split
  · split
    · exact (waiting_settle w _ taken).trans htaken
    · rename_i call _
      refine Eq.trans ?_ htaken
      unfold makeCall
      dsimp only
      split
      · exact (waiting_afterCall w _ taken call).trans (waiting_record _ _)
      · exact waiting_record _ _
  · exact (waiting_record _ _).trans htaken

theorem feed_le (queue : List (Nat × ChangeEvent)) (hq : p.waiting = queue) :
    (p.feed w queue).waiting.length ≤ queue.length := by
  induction queue generalizing p with
  | nil => exact Nat.le_of_eq (congrArg List.length hq)
  | cons e rest ih =>
    unfold feed
    split
    · exact Nat.le_of_eq (congrArg List.length hq)
    · exact Nat.le_succ_of_le (ih _ (waiting_process w (p.withQueue rest) _ _))

/-- Feeding takes an event or leaves all as it is. -/
theorem feed_progress : (p.feed w p.waiting).waiting.length < p.waiting.length ∨
    p.feed w p.waiting = p := by
  generalize hq : p.waiting = queue
  cases queue with
  | nil => exact .inr rfl
  | cons e rest =>
    unfold feed
    split
    · exact .inr rfl
    · exact .inl (Nat.lt_succ_of_le (feed_le w _ rest (waiting_process w (p.withQueue rest) _ _)))

theorem dispatch_progress :
    (p.dispatch w).waiting.length < p.waiting.length ∨
      (p.dispatch w).waiting = p.waiting ∧ (p.dispatch w).agenda = p.agenda := by
  unfold dispatch
  dsimp only
  by_cases hc : p.closed
  · simp only [hc, if_true]
    split <;> exact .inr ⟨rfl, rfl⟩
  · simp only [hc, Bool.false_eq_true, if_false]
    rcases feed_progress w p with h | h
    · left
      split <;> exact h
    · right
      rw [h]
      split <;> exact ⟨rfl, rfl⟩

/-- Carrying out a duty takes a waiting event, or leaves less to do until the limit. -/
theorem perform_progress (rest : Agenda Duty) (duty : Duty) {limit time : Nat}
    (h : time ≤ limit) :
    (p.perform w rest time duty).waiting.length < p.waiting.length ∨
      (p.perform w rest time duty).waiting.length = p.waiting.length ∧
        (p.perform w rest time duty).agenda.weigh (Duty.weight limit) <
          rest.weigh (Duty.weight limit) + Duty.weight limit (time, duty) := by
  let q : Pipeline := { p with now := time, agenda := rest }
  cases duty with
  | reindexing d =>
    right
    change (q.carryOut w d).waiting.length = _ ∧ (q.carryOut w d).agenda.weigh _ < _
    unfold carryOut
    refine ⟨by rw [waiting_apply], ?_⟩
    rw [weigh_apply]
    have := Debouncer.weight_perform p.debouncer (q.reindexTime w d) time limit d h
    exact Nat.add_lt_add_left this _
  | call worker taken call =>
    let r := q.release w worker taken call
    have hr : r.waiting = p.waiting := waiting_afterCall w q taken call
    have ha : r.agenda.weigh (Duty.weight limit) ≤
        rest.weigh (Duty.weight limit) + (3 * (limit + 1 - time) + 2) :=
      weigh_afterCall w q limit taken call
    change (r.dispatch w).waiting.length < _ ∨ (r.dispatch w).waiting.length = _ ∧
      (r.dispatch w).agenda.weigh _ < _
    rw [← hr]
    rcases dispatch_progress w r with hd | ⟨hd, hg⟩
    · exact .inl hd
    · refine .inr ⟨congrArg List.length hd, ?_⟩
      rw [hg]
      simp only [Duty.weight]
      omega

def runUntil (limit : Nat) (p : Pipeline) : Pipeline :=
  match _due : p.agenda.due? limit with
  | none => p
  | some ((time, duty), rest) => (p.perform w rest time duty).runUntil limit
termination_by (p.waiting.length, p.agenda.weigh (Duty.weight limit))
decreasing_by
  obtain ⟨heq, hle⟩ := Agenda.due?_eq_some _due
  have hw : p.agenda.weigh (Duty.weight limit) =
      Duty.weight limit (time, duty) + rest.weigh (Duty.weight limit) := by
    rw [Agenda.weigh, Agenda.weigh, heq, Agenda.total_cons]
  rcases perform_progress w p rest duty (show time ≤ limit from hle) with h | ⟨h, h'⟩
  · exact Prod.Lex.left _ _ h
  · rw [Prod.lex_def]
    exact .inr ⟨h, by omega⟩

/-- Comes to an end once all workers are gone and nothing is left to happen; the stream has no
consumer from then on. -/
def conclude (p : Pipeline) : Pipeline :=
  if p.workers.all (· = .gone) && p.agenda.entries.isEmpty then
    { p with channel := p.channel.leave, finished := true }
  else p

/-- What is due now, after idle workers have been given events. -/
def advance (p : Pipeline) : Pipeline := ((p.dispatch w).runUntil w p.now).conclude

def sleep (ms : Nat) (p : Pipeline) : Pipeline :=
  ({ p.runUntil w (p.now + ms) with now := p.now + ms }).conclude

def streamEnded : IndexError := .channel "stream ended"

def publish (event : ChangeEvent) (p : Pipeline) : Except IndexError Unit × Pipeline :=
  if p.ended then (.error streamEnded, p)
  else match p.channel.publish event with
    | (.refused e, _) => (.error e, p)
    | (_, channel) => (.ok (), { p with channel := channel }.advance w)

/-- To close the pipeline again changes nothing. -/
def close (p : Pipeline) : Pipeline := (if p.closed then p else p.cancel).advance w

/-- Nothing more is published; events that wait are still taken. -/
def endStream (p : Pipeline) : Pipeline := { p with ended := true }.advance w

/-- Starts to consume the stream, which is consumed already. -/
def consume (group : String) (p : Pipeline) : Except IndexError Unit :=
  if p.ended then .error streamEnded else (p.channel.consume group).map fun _ => ()

end ResourceIndex.Pipeline
