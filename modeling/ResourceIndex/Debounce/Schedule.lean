import ResourceIndex.Agenda
import ResourceIndex.Debounce.Basic
/-
A debouncer on a clock. Its timers and its running reindexes are entries of an agenda, and the
clock moves from one entry to the next.
-/
namespace ResourceIndex

namespace Debouncer

inductive Duty (α : Type) where
  | timer : SpaceId → Duty α
  /-- The end of a reindex that carries these requests. -/
  | reindex : SpaceId → List α → Duty α
deriving DecidableEq, Repr

def Duty.isReindex {α : Type} : Duty α → Bool
  | .timer _ => false
  | .reindex .. => true

def Duty.space {α : Type} : Duty α → SpaceId
  | .timer space => space
  | .reindex space _ => space

inductive Note (α : Type) where
  | started : Note α
  | ended : Note α
  | acked : α → Note α
deriving DecidableEq, Repr

inductive Happening (α : Type) where
  | asked (space : SpaceId) (ack : α) : Happening α
  /-- A request comes after the cancellation and is not taken. -/
  | refused (space : SpaceId) (ack : α) : Happening α
  /-- A burst is due while the reindex of its space is running. -/
  | postponed (space : SpaceId) : Happening α
  | started (space : SpaceId) (acks : List α) : Happening α
  | ended (space : SpaceId) (acks : List α) : Happening α
  | cancelled : Happening α
  | dropped (space : SpaceId) (acks : List α) : Happening α
deriving DecidableEq, Repr

variable {α : Type}

/-- The notes of a reindex that ends: its requests are acknowledged in their order. -/
def endNotes (space : SpaceId) (acks : List α) : List (SpaceId × Note α) :=
  (space, .ended) :: acks.map fun a => (space, .acked a)

/-- What others see of it. -/
def Happening.notes : Happening α → List (SpaceId × Note α)
  | .started space _ => [(space, .started)]
  | .ended space acks => endNotes space acks
  | _ => []

def Happening.isStartOf (space : SpaceId) : Happening α → Bool
  | .started s _ => s = space
  | _ => false

/-- What comes of a request or a duty: the debouncer after it, what is to happen later, and what
has happened. -/
structure Effect (α : Type) where
  debouncer : Debouncer α
  duties : List (Nat × Duty α)
  happenings : List (Happening α)
deriving Repr

def Effect.notes (e : Effect α) : List (SpaceId × Note α) := e.happenings.flatMap Happening.notes

def reception (d : Debouncer α) (space : SpaceId) (ack : α) : Happening α :=
  if d.cancelled then .refused space ack else .asked space ack

/-- A request; the timer of a new burst begins at once. -/
def ask (d : Debouncer α) (now : Nat) (space : SpaceId) (ack : α) : Effect α :=
  match d.request now space ack with
  | (true, d') => ⟨d', [(now, .timer space)], [d.reception space ack]⟩
  | (false, d') => ⟨d', [], [d.reception space ack]⟩

/-- Carries out a duty, a reindex that starts taking `work`; one that takes no time ends at once.
A timer sleeps for at least one tick, so that without a window it does not wake for ever while a
reindex is running. -/
def perform (d : Debouncer α) (work now : Nat) : Duty α → Effect α
  | .timer space =>
    match d.wake now space with
    | (.over, d) => ⟨d, [], []⟩
    | (.early t, d) => ⟨d, [(t, .timer space)], []⟩
    | (.busy t, d) => ⟨d, [(max t (now + 1), .timer space)], [.postponed space]⟩
    | (.fire acks, d) =>
      if work = 0 then ⟨d.finish space, [], [.started space acks, .ended space acks]⟩
      else ⟨d, [(now + work, .reindex space acks)], [.started space acks]⟩
  | .reindex space acks => ⟨d.finish space, [], [.ended space acks]⟩

/-- How much may still come of a duty until a time. -/
def Duty.weight (limit : Nat) (e : Nat × Duty α) : Nat :=
  3 * (limit + 1 - e.1) + match e.2 with
    | .timer _ => 2
    | .reindex .. => 1

theorem weight_perform (d : Debouncer α) (work now limit : Nat) (duty : Duty α)
    (h : now ≤ limit) :
    Agenda.total (Duty.weight limit) (d.perform work now duty).duties <
      Duty.weight limit (now, duty) := by
  cases duty with
  | reindex space acks => simp [perform, Duty.weight]
  | timer space =>
    unfold perform
    dsimp only
    split
    · simp [Duty.weight]
    · rename_i t d' heq
      have := lt_of_wake heq
      simp [Duty.weight]
      omega
    · simp [Duty.weight]
      omega
    · split
      · simp [Duty.weight]
      · simp [Duty.weight]
        omega

end Debouncer

structure Reindexing (α : Type) where
  debouncer : Debouncer α
  agenda : Agenda (Debouncer.Duty α)
  now : Nat
  history : List (Nat × Debouncer.Happening α)
deriving Repr

namespace Reindexing

open Debouncer

variable {α : Type}

def ofTimes (after maxWait : Nat) : Reindexing α := ⟨.ofTimes after maxWait, .empty, 0, []⟩

def apply (s : Reindexing α) (e : Effect α) : Reindexing α where
  debouncer := e.debouncer
  agenda := s.agenda.addAll e.duties
  now := s.now
  history := s.history ++ e.happenings.map fun h => (s.now, h)

def log (s : Reindexing α) : List (Nat × SpaceId × Note α) :=
  s.history.flatMap fun (time, h) => h.notes.map fun (space, note) => (time, space, note)

def startCount (s : Reindexing α) (space : SpaceId) : Nat :=
  s.history.countP fun e => e.2.isStartOf space

def ask (s : Reindexing α) (space : SpaceId) (ack : α) : Reindexing α :=
  s.apply (s.debouncer.ask s.now space ack)

variable (work : SpaceId → Nat → Nat)

/-- The clock moves to a duty that is taken off the agenda, which is carried out. The `n`-th
reindex of a space takes as long as `work` says. -/
def perform (s : Reindexing α) (rest : Agenda (Duty α)) (time : Nat) (duty : Duty α) :
    Reindexing α :=
  let s := { s with now := time, agenda := rest }
  s.apply (s.debouncer.perform (work duty.space (s.startCount duty.space)) time duty)

def runUntil (limit : Nat) (s : Reindexing α) : Reindexing α :=
  match _due : s.agenda.due? limit with
  | none => s
  | some ((time, duty), rest) => (s.perform work rest time duty).runUntil limit
termination_by s.agenda.weigh (Duty.weight limit)
decreasing_by
  obtain ⟨heq, hle⟩ := Agenda.due?_eq_some _due
  have := weight_perform s.debouncer
    (work duty.space ({ s with now := time, agenda := rest }.startCount duty.space))
    time limit duty hle
  simp only [perform, apply, Agenda.weigh_addAll]
  rw [Agenda.weigh, Agenda.weigh, heq]
  simp only [Agenda.total_cons]
  omega

/-- What is due now, as after a request. -/
def settle (s : Reindexing α) : Reindexing α := s.runUntil work s.now

def sleep (ms : Nat) (s : Reindexing α) : Reindexing α :=
  { s.runUntil work (s.now + ms) with now := s.now + ms }

/-- Drops what waits; reindexes that are running go on. -/
def cancel (s : Reindexing α) : Reindexing α := { s with
  debouncer := s.debouncer.cancel
  agenda := s.agenda.filter Duty.isReindex
  history := s.history ++
    (s.now, .cancelled) :: s.debouncer.bursts.map fun (space, b) => (s.now, .dropped space b.acks) }

/-- The cancellation alone. Its timers learn of it one after the other. -/
def stop (s : Reindexing α) : Reindexing α := { s with
  debouncer := s.debouncer.stop
  history := s.history ++ [(s.now, .cancelled)] }

/-- A timer that is taken off the agenda has learnt of the cancellation and drops its burst. -/
def drop (s : Reindexing α) (rest : Agenda (Duty α)) (space : SpaceId) : Reindexing α := { s with
  debouncer := s.debouncer.without space
  agenda := rest
  history := s.history ++ [(s.now, .dropped space (s.debouncer.waiting space))] }

/-- Carries out duties until there are none or the number is used up. -/
def drain : Nat → Reindexing α → Reindexing α
  | 0, s => s
  | fuel + 1, s =>
    match s.agenda.entries with
    | [] => s
    | (time, duty) :: rest => drain fuel (s.perform work ⟨rest⟩ time duty)

/-- As many duties as there can be before all is done: a timer wakes at its deadline, at each window
while the last of the running reindexes goes on, and once more. -/
def dutyBound (s : Reindexing α) : Nat :=
  let last := s.agenda.entries.foldl (fun m e => max m e.1) s.now
  s.agenda.entries.length * (last - s.now + s.debouncer.maxWait + 4)

def wait (s : Reindexing α) : Reindexing α := s.drain work s.dutyBound

end Reindexing

end ResourceIndex
