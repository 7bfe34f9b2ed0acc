import ResourceIndex.Debounce.Schedule
import ResourceIndex.Event.Channel
import ResourceIndex.Pipeline.Call
import ResourceIndex.Settings.Basic
/-
Workers that take events from a stream and keep the index in step, on a clock. A purge is
acknowledged right after its call; every other event asks for a reindex of its space and is
acknowledged after that. Whether a call fails does not matter for acknowledgements.
-/
namespace ResourceIndex

/-- How long calls take, and how they end. -/
structure Workload where
  /-- The time that the call for the event at a place takes. -/
  callTime : Nat → IndexCall → Nat
  callResult : Nat → IndexCall → Except IndexError Unit
  /-- The time that the `n`-th reindex of a space takes. -/
  reindexTime : SpaceId → Nat → Nat
  reindexResult : SpaceId → Nat → Except IndexError Unit

namespace Pipeline

/-- An event that was taken, by its place among the deliveries. -/
structure Taken where
  place : Nat
  event : ChangeEvent
deriving DecidableEq, Repr

inductive Worker where
  | idle : Worker
  | busy : Taken → Worker
  | gone : Worker
deriving DecidableEq, Repr

inductive Duty where
  | reindexing : Debouncer.Duty Nat → Duty
  /-- The end of the call that a worker makes for an event. -/
  | call (worker : Nat) (taken : Taken) (call : IndexCall) : Duty
deriving DecidableEq, Repr

def Duty.isTimer : Duty → Bool
  | .reindexing (.timer _) => true
  | _ => false

def Duty.weight (limit : Nat) : Nat × Duty → Nat
  | (time, .reindexing d) => Debouncer.Duty.weight limit (time, d)
  | (time, .call ..) => 3 * (limit + 1 - time) + 3

/-- What has happened. Events are given by their places. -/
inductive Note where
  | taken (worker place : Nat) : Note
  | called (place : Nat) (call : IndexCall) : Note
  | returned (place : Nat) (call : IndexCall) (result : Except IndexError Unit) : Note
  | reindexing (space : SpaceId) : Note
  | reindexed (space : SpaceId) (result : Except IndexError Unit) : Note
  | acked (place : Nat) : Note
deriving Repr

inductive Happening where
  | taken (worker place : Nat) : Happening
  | called (place : Nat) (call : IndexCall) : Happening
  | returned (place : Nat) (call : IndexCall) (result : Except IndexError Unit) : Happening
  /-- An event is acknowledged that does not wait for a reindex. -/
  | acked (place : Nat) : Happening
  /-- A reindex comes back, right before it ends. -/
  | reindexed (space : SpaceId) (result : Except IndexError Unit) : Happening
  | deferred : Debouncer.Happening Nat → Happening
deriving Repr

namespace Happening

/-- What others see of it. -/
def notes : Happening → List Note
  | taken worker place => [.taken worker place]
  | called place call => [.called place call]
  | returned place call result => [.returned place call result]
  | acked place => [.acked place]
  | reindexed space result => [.reindexed space result]
  | deferred (.started space _) => [.reindexing space]
  | deferred (.ended _ places) => places.map .acked
  | deferred _ => []

def acks : Happening → List Nat
  | acked place => [place]
  | deferred (.ended _ places) => places
  | _ => []

def tell (c : Channel) : Happening → Channel
  | taken _ place => c.reportProgress place
  | h => h.acks.foldl Channel.ack c

def startsReindex (space : SpaceId) : Happening → Bool
  | deferred h => h.isStartOf space
  | _ => false

end Happening

end Pipeline

open Pipeline

structure Pipeline where
  asyncUploads : Bool
  debouncer : Debouncer Nat
  channel : Channel
  workers : List Worker
  agenda : Agenda Duty
  now : Nat
  history : List (Nat × Happening)
  closed : Bool
  /-- Whether nothing can be published any more. -/
  ended : Bool
  /-- Whether the workers and all that they asked for have come to an end. -/
  finished : Bool
deriving Repr

namespace Pipeline

/-- The pipeline that consumes a stream from the start, with at least one worker. -/
def ofSettings (s : EventSettings) (channel : Channel) : Pipeline where
  asyncUploads := s.asyncUploads
  debouncer := .ofTimes s.debounce s.debounceMaxWait
  channel := { channel with consumer := .present }
  workers := List.replicate (max s.consumers 1) .idle
  agenda := .empty
  now := 0
  history := []
  closed := false
  ended := false
  finished := false

def log (p : Pipeline) : List (Nat × Note) :=
  p.history.flatMap fun (time, h) => h.notes.map fun note => (time, note)

def startCount (p : Pipeline) (space : SpaceId) : Nat :=
  p.history.countP fun e => e.2.startsReindex space

def record (p : Pipeline) (h : Happening) : Pipeline :=
  { p with channel := h.tell p.channel, history := p.history ++ [(p.now, h)] }

def withQueue (p : Pipeline) (queue : List (Nat × ChangeEvent)) : Pipeline :=
  { p with channel := { p.channel with queue := queue } }

variable (w : Workload)

def hear (p : Pipeline) (h : Debouncer.Happening Nat) : Pipeline :=
  match h with
  | .ended space _ =>
    (p.record (.reindexed space (w.reindexResult space (p.startCount space - 1)))).record
      (.deferred h)
  | _ => p.record (.deferred h)

def apply (p : Pipeline) (e : Debouncer.Effect Nat) : Pipeline :=
  e.happenings.foldl (hear w) { p with
    debouncer := e.debouncer
    agenda := p.agenda.addAll (e.duties.map fun (time, d) => (time, .reindexing d)) }

/-- Is done with an event after its call, or without one. -/
def settle (p : Pipeline) (taken : Taken) : Pipeline :=
  if taken.event.isPurge then p.record (.acked taken.place)
  else p.apply w (p.debouncer.ask p.now taken.event.space taken.place)

def afterCall (p : Pipeline) (taken : Taken) (call : IndexCall) : Pipeline :=
  (p.record (.returned taken.place call (w.callResult taken.place call))).settle w taken

/-- A worker makes the call for its event; one that takes no time comes back at once. -/
def makeCall (p : Pipeline) (worker : Nat) (taken : Taken) (call : IndexCall) : Pipeline :=
  let p := p.record (.called taken.place call)
  let time := w.callTime taken.place call
  if time = 0 then p.afterCall w taken call
  else { p with
    workers := p.workers.set worker (.busy taken)
    agenda := p.agenda.add (p.now + time) (.call worker taken call) }

def process (p : Pipeline) (worker : Nat) (taken : Taken) : Pipeline :=
  let p := p.record (.taken worker taken.place)
  if taken.event.isSubscribed p.asyncUploads then
    match taken.event.call? with
    | none => p.settle w taken
    | some call => p.makeCall w worker taken call
  else p.record (.acked taken.place)

/-- Gives events of the queue to idle workers in the order of both. -/
def feed : List (Nat × ChangeEvent) → Pipeline → Pipeline
  | [], p => p
  | (place, event) :: rest, p =>
    match p.workers.findIdx? (· = .idle) with
    | none => p
    | some worker => feed rest ((p.withQueue rest).process w worker ⟨place, event⟩)

/-- Idle workers take events, or go when there can be none for them any more. -/
def dispatch (p : Pipeline) : Pipeline :=
  let p := if p.closed then p else p.feed w p.channel.queue
  if p.closed || (p.ended && p.channel.queue.isEmpty) then
    { p with workers := p.workers.map fun x => if x = .idle then .gone else x }
  else p

def release (p : Pipeline) (worker : Nat) (taken : Taken) (call : IndexCall) : Pipeline :=
  let p := p.afterCall w taken call
  { p with workers := p.workers.set worker .idle }

/-- The time that a duty of the debouncer takes if it is the start of a reindex. -/
def reindexTime (p : Pipeline) (d : Debouncer.Duty Nat) : Nat :=
  w.reindexTime d.space (p.startCount d.space)

/-- A timer wakes, or a reindex ends. -/
def carryOut (p : Pipeline) (d : Debouncer.Duty Nat) : Pipeline :=
  p.apply w (p.debouncer.perform (p.reindexTime w d) p.now d)

/-- The clock moves to a duty that is taken off the agenda, which is carried out. -/
def perform (p : Pipeline) (rest : Agenda Duty) (time : Nat) (duty : Duty) : Pipeline :=
  let p := { p with now := time, agenda := rest }
  match duty with
  | .reindexing d => p.carryOut w d
  | .call worker taken call => (p.release w worker taken call).dispatch w

/-- Takes no further events and drops the reindexes that wait; calls that are running go on. -/
def cancel (p : Pipeline) : Pipeline := { p with
  closed := true
  debouncer := p.debouncer.cancel
  agenda := p.agenda.filter fun d => !d.isTimer
  history := p.history ++ (p.now, .deferred .cancelled) ::
    p.debouncer.bursts.map fun (space, b) => (p.now, .deferred (.dropped space b.acks)) }

end Pipeline

end ResourceIndex
