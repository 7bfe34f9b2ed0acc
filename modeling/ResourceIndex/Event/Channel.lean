import ResourceIndex.Error
import ResourceIndex.Event.Basic
/-
An event stream inside one process: a queue of bounded capacity, one consumer, and for each event
what is known of its delivery.
-/
namespace ResourceIndex

/-- How often an event was reported as being worked on, and whether it was confirmed. -/
structure Delivery where
  progress : Nat
  acked : Bool
deriving DecidableEq, Repr, Inhabited

inductive Consumer where
  | awaited | present | gone
deriving DecidableEq, Repr, Inhabited

structure Channel where
  capacity : Nat
  /-- Events that wait, by their places among the deliveries. -/
  queue : List (Nat × ChangeEvent)
  deliveries : List Delivery
  consumer : Consumer
deriving Repr

namespace Channel

/-- A stream always has room for one event. -/
def ofCapacity (capacity : Nat) : Channel := ⟨max capacity 1, [], [], .awaited⟩

inductive Published where
  | queued : Published
  /-- There is no room; the publisher would have to wait. -/
  | full : Published
  | refused : IndexError → Published
deriving DecidableEq, Repr

def publish (c : Channel) (e : ChangeEvent) : Published × Channel :=
  if c.consumer = .gone then (.refused (.channel "event consumer has gone away"), c)
  else if c.capacity ≤ c.queue.length then (.full, c)
  else (.queued, { c with
    queue := c.queue ++ [(c.deliveries.length, e)]
    deliveries := c.deliveries ++ [⟨0, false⟩] })

/-- Starts to consume as a member of a group; a stream is consumed only once. -/
def consume (c : Channel) (group : String) : Except IndexError Channel :=
  if c.consumer = .awaited then .ok { c with consumer := .present }
  else .error (.channel ("stream is already consumed by group '" ++ group ++ "'"))

def receive (c : Channel) : Option (Nat × ChangeEvent) × Channel :=
  match c.consumer, c.queue with
  | .present, next :: rest => (some next, { c with queue := rest })
  | _, _ => (none, c)

/-- The consumer goes away, and what waits is lost. -/
def leave (c : Channel) : Channel :=
  if c.consumer = .present then { c with consumer := .gone, queue := [] } else c

def reportProgress (c : Channel) (n : Nat) : Channel :=
  { c with deliveries := c.deliveries.modify n fun d => { d with progress := d.progress + 1 } }

def ack (c : Channel) (n : Nat) : Channel :=
  { c with deliveries := c.deliveries.modify n fun d => { d with acked := true } }

end Channel

end ResourceIndex
