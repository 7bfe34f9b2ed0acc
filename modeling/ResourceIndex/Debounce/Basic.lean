import ResourceIndex.Identity
/-
Requests to read a space anew come in bursts. A burst is answered by one reindex, as soon as the
space has been quiet for a while or the burst has waited for long enough, and never while the space
is being reindexed. Times are in milliseconds.
-/
namespace ResourceIndex

structure Burst (α : Type) where
  deadline : Nat
  /-- Further requests do not put the burst off beyond this time. -/
  ceiling : Nat
  acks : List α
deriving DecidableEq, Repr

/-- Bursts by their spaces. The acknowledgement of a request is a value of type `α`. -/
structure Debouncer (α : Type) where
  after : Nat
  maxWait : Nat
  after_le_maxWait : after ≤ maxWait
  bursts : List (SpaceId × Burst α)
  /-- The spaces whose reindex is running. -/
  inProgress : List SpaceId
  cancelled : Bool
deriving Repr

namespace Debouncer

variable {α : Type}

/-- A debouncer for a window and a longest wait, which is not shorter than the window. -/
def ofTimes (after maxWait : Nat) : Debouncer α where
  after := after
  maxWait := max maxWait after
  after_le_maxWait := Nat.le_max_right maxWait after
  bursts := []
  inProgress := []
  cancelled := false

def burst? (d : Debouncer α) (space : SpaceId) : Option (Burst α) := d.bursts.lookup space

def waiting (d : Debouncer α) (space : SpaceId) : List α := (d.burst? space).elim [] Burst.acks

def pending (d : Debouncer α) : Nat := d.bursts.length

def isBusy (d : Debouncer α) (space : SpaceId) : Bool := d.inProgress.contains space

def replace (d : Debouncer α) (space : SpaceId) (b : Burst α) : Debouncer α :=
  { d with bursts := d.bursts.map fun p => if p.1 = space then (space, b) else p }

def arm (d : Debouncer α) (now : Nat) (space : SpaceId) (ack : α) : Debouncer α :=
  { d with bursts := d.bursts ++ [(space, ⟨now + d.after, now + d.maxWait, [ack]⟩)] }

/-- Adds a request at a time, and tells whether it is the first of a burst, for which a timer has
to be started. After cancellation a request is not taken. -/
def request (d : Debouncer α) (now : Nat) (space : SpaceId) (ack : α) : Bool × Debouncer α :=
  if d.cancelled then (false, d)
  else match d.burst? space with
    | some b =>
      (false, d.replace space { b with
        deadline := min (now + d.after) b.ceiling
        acks := b.acks ++ [ack] })
    | none => (true, d.arm now space ack)

def without (d : Debouncer α) (space : SpaceId) : Debouncer α :=
  { d with bursts := d.bursts.filter fun p => p.1 != space }

def start (d : Debouncer α) (space : SpaceId) : Debouncer α :=
  { d.without space with inProgress := space :: d.inProgress }

inductive Wake (α : Type) where
  /-- There is no burst any more. -/
  | over : Wake α
  /-- The burst is due at a later time. -/
  | early : Nat → Wake α
  /-- The burst is put off to a time since the reindex of its space is running. -/
  | busy : Nat → Wake α
  /-- The reindex starts now, for these requests. -/
  | fire : List α → Wake α
deriving Repr

/-- A burst that is due is put off by the window while the reindex of its space is running. -/
def wake (d : Debouncer α) (now : Nat) (space : SpaceId) : Wake α × Debouncer α :=
  match d.burst? space with
  | none => (.over, d)
  | some b =>
    if now < b.deadline then (.early b.deadline, d)
    else if d.isBusy space then
      (.busy (now + d.after), d.replace space { b with deadline := now + d.after })
    else (.fire b.acks, d.start space)

theorem lt_of_wake {d d' : Debouncer α} {now t : Nat} {space : SpaceId}
    (h : d.wake now space = (.early t, d')) : now < t := by
  unfold wake at h
  split at h
  · simp at h
  · split at h
    · rename_i hb
      simp only [Prod.mk.injEq, Wake.early.injEq] at h
      omega
    · split at h <;> simp at h

def finish (d : Debouncer α) (space : SpaceId) : Debouncer α :=
  { d with inProgress := d.inProgress.filter (· != space) }

def stop (d : Debouncer α) : Debouncer α := { d with cancelled := true }

/-- Drops all bursts and takes no request from now on. -/
def cancel (d : Debouncer α) : Debouncer α := { d with bursts := [], cancelled := true }

end Debouncer

end ResourceIndex
