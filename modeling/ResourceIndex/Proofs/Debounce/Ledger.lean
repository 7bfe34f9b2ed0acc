import ResourceIndex.Proofs.Debounce.Chronicle
import ResourceIndex.Proofs.Debounce.Operations
/-
The requests of a space are kept account of. They are served first come, first served: first come
those that are acknowledged, then those that a reindex carries, then those that wait, or that were
dropped by a cancellation instead.
-/
namespace ResourceIndex

open Debouncer

variable {α : Type}

namespace Debouncer

/-- What may happen to a space after what has happened to it before. -/
def Permitted (before : List (Nat × Happening α)) : Happening α → Prop
  | .asked .. => ¬ Cancelled before
  | .refused .. => Cancelled before
  | .postponed _ => carriedIn before ≠ none
  | .started _ acks => acks ≠ [] ∧ acks = takenIn (current before) ∧ carriedIn before = none
  | .ended _ acks => carriedIn before = some acks
  | .cancelled => True
  | .dropped _ acks => Cancelled before ∧ acks = takenIn (current before)

def Lawful (before : List (Nat × Happening α)) (e : Nat × Happening α) : Prop :=
  (∀ f ∈ before, f.1 ≤ e.1) ∧ Permitted before e.2

variable {h : List (Nat × Happening α)}

/-- Requests are lost by a cancellation only, and none waits after that. -/
theorem lost_of_lawful (hh : Throughout Lawful h) (hlost : lostIn h ≠ []) :
    Cancelled h ∧ takenIn (current h) = [] := by
  induction h using List.reverseRecOn with
  | nil => exact absurd rfl hlost
  | append_singleton h e ih =>
    obtain ⟨hbefore, -, he⟩ := throughout_concat.mp hh
    obtain ⟨time, happening⟩ := e
    rw [cancelled_concat]
    cases happening with
    | asked space ack =>
      have hnone : lostIn h ≠ [] := by simpa using hlost
      exact absurd (ih hbefore hnone).1 he
    | dropped space acks => exact ⟨.inl he.1, by simp⟩
    | started space acks =>
      have hnone : lostIn h ≠ [] := by simpa using hlost
      exact ⟨.inl (ih hbefore hnone).1, by simp⟩
    | _ =>
      have hnone : lostIn h ≠ [] := by simpa using hlost
      obtain ⟨hc, hw⟩ := ih hbefore hnone
      exact ⟨.inl hc, by simp [hw]⟩

/-- Every request that was taken is accounted for, in the order in which they came. -/
theorem ledger_of_lawful (hh : Throughout Lawful h) :
    takenIn h = ackedIn h ++ (carriedIn h).getD [] ++ takenIn (current h) ++ lostIn h := by
  induction h using List.reverseRecOn with
  | nil => rfl
  | append_singleton h e ih =>
    obtain ⟨hbefore, -, he⟩ := throughout_concat.mp hh
    have hlost := mt (lost_of_lawful hbefore)
    obtain ⟨time, happening⟩ := e
    rw [takenIn_append, ih hbefore]
    cases happening with
    | asked space ack =>
      -- A request that comes after a loss is refused.
      have hnone : lostIn h = [] := not_not.mp (hlost fun hboth => he hboth.1)
      simp [hnone]
    | started space acks =>
      obtain ⟨hne, hacks, hidle⟩ := he
      have hnone : lostIn h = [] := not_not.mp (hlost fun hboth => hne (hacks.trans hboth.2))
      simp [hnone, hidle, ← hacks]
    | ended space acks =>
      have hcarried : carriedIn h = some acks := he
      simp [hcarried]
    | dropped space acks =>
      -- If something was dropped before, nothing waits that could be dropped now.
      obtain ⟨-, rfl⟩ := he
      by_cases hnone : lostIn h = []
      · simp [hnone]
      · have hempty := (lost_of_lawful hbefore hnone).2
        simp [hempty]
    | _ => simp

end Debouncer

namespace Course

variable {c c' : Course α} {punctual : Prop} {after maxWait : Nat} {space : SpaceId}

def waiting (c : Course α) : List α := c.burst.elim [] fun p => p.1.acks

/-- What is known of a space agrees with what has happened to it. -/
structure Accounted (c : Course α) : Prop where
  times : ∀ e ∈ c.history, e.1 ≤ c.now
  cancelled : c.cancelled = true ↔ Cancelled c.history
  waits : c.waiting = takenIn (current c.history)
  carries : c.running = carriedIn c.history
  nonempty : ∀ b armed, c.burst = some (b, armed) → b.acks ≠ []
  lawful : Throughout Lawful c.history

theorem accounted_start : (start : Course α).Accounted where
  times := fun _ he => absurd he List.not_mem_nil
  cancelled := ⟨Bool.noConfusion, fun ⟨_, h⟩ => absurd h List.not_mem_nil⟩
  waits := rfl
  carries := rfl
  nonempty := fun _ _ h => nomatch h
  lawful := throughout_nil

theorem Accounted.enter (h : c.Accounted) (happening : Happening α)
    (hp : Permitted c.history happening) (hnow : c'.now = c.now)
    (hist : c'.history = c.history ++ [(c.now, happening)])
    (hcancelled : c'.cancelled = true ↔ c.cancelled = true ∨ happening = .cancelled)
    (hwaits : c'.waiting = if happening.closes then [] else c.waiting ++ happening.taken)
    (hcarries : c'.running = happening.carried c.running)
    (hnonempty : ∀ b armed, c'.burst = some (b, armed) → b.acks ≠ []) : c'.Accounted where
  times := by
    rw [hist, hnow]
    intro e he
    rcases List.mem_append.mp he with he | he
    · exact h.times e he
    · exact Nat.le_of_eq (congrArg Prod.fst (List.mem_singleton.mp he))
  cancelled := by rw [hcancelled, hist, cancelled_concat, h.cancelled]
  waits := by
    rw [hwaits, hist, current_concat]
    split
    · rfl
    · rw [takenIn_append, takenIn_singleton, h.waits]
  carries := by rw [hcarries, hist, carriedIn_concat, h.carries]
  nonempty := hnonempty
  lawful := by
    rw [hist]
    exact throughout_concat.mpr ⟨h.lawful, h.times, hp⟩

theorem waiting_of_none (hb : c.burst = none) : c.waiting = [] := by
  rw [waiting, hb]
  rfl

theorem waiting_of_some {b : Burst α} {armed : Nat} (hb : c.burst = some (b, armed)) :
    c.waiting = b.acks := by
  rw [waiting, hb]
  rfl

theorem Accounted.step (h : c.Accounted) (hst : Step punctual after maxWait space c c') :
    c'.Accounted := by
  cases hst with
  | pass hle => exact { h with times := fun e he => Nat.le_trans (h.times e he) hle }
  | begin ack hc hb =>
    exact h.enter (.asked space ack) (mt h.cancelled.mpr (by simp [hc])) rfl rfl (by simp)
      (by rw [waiting_of_none hb]; rfl) rfl (by simp)
  | extend ack hc hb =>
    exact h.enter (.asked space ack) (mt h.cancelled.mpr (by simp [hc])) rfl rfl (by simp)
      (by rw [waiting_of_some hb]; rfl) rfl (by simp)
  | refuse ack hc =>
    exact h.enter (.refused space ack) (h.cancelled.mp hc) rfl rfl (by simp)
      (List.append_nil _).symm rfl h.nonempty
  | @rearm b armed hb hlt =>
    exact { h with
      waits := (waiting_of_some hb).symm.trans h.waits
      nonempty := by simpa using h.nonempty b armed hb }
  | @postpone b armed acks hb hr hle =>
    exact h.enter (.postponed space) (by simp [Permitted, ← h.carries, hr]) rfl rfl (by simp)
      (by rw [waiting_of_some hb]; exact (List.append_nil _).symm) rfl
      (by simpa using h.nonempty b armed hb)
  | @fire b armed hb hr hle =>
    exact h.enter (.started space b.acks)
      ⟨h.nonempty b armed hb, (waiting_of_some hb).symm.trans h.waits, h.carries.symm.trans hr⟩
      rfl rfl (by simp) rfl rfl (by simp)
  | @finish acks hr =>
    exact h.enter (.ended space acks) (h.carries.symm.trans hr) rfl rfl (by simp)
      (List.append_nil _).symm rfl h.nonempty
  | stop =>
    exact h.enter .cancelled trivial rfl rfl (by simp) (List.append_nil _).symm rfl h.nonempty
  | @drop b armed hc hb =>
    exact h.enter (.dropped space b.acks)
      ⟨h.cancelled.mp hc, (waiting_of_some hb).symm.trans h.waits⟩ rfl rfl (by simp) rfl rfl
      (by simp)

theorem Leads.accounted (h : Leads punctual after maxWait space .start c) : c.Accounted := by
  induction h with
  | refl => exact accounted_start
  | tail _ hst ih => exact ih.step hst

end Course

namespace Reindexing

variable {s : Reindexing α} {space : SpaceId} {punctual : Prop} {work : SpaceId → Nat → Nat}
  {after maxWait : Nat}

/-- The request of a space that a note acknowledges. -/
def ackOf? (space : SpaceId) : SpaceId × Note α → Option α
  | (_, .started) | (_, .ended) => none
  | (other, .acked ack) => if other = space then some ack else none

/-- The acknowledgements of a space that others have seen. -/
def ackedOf (s : Reindexing α) (space : SpaceId) : List α :=
  s.log.filterMap fun p => ackOf? space p.2

theorem filterMap_notes (h : Happening α) (space : SpaceId) :
    h.notes.filterMap (ackOf? space) = if h.concerns space then h.acked else [] := by
  cases h with
  | ended other acks =>
    rw [Happening.notes, endNotes, List.filterMap_cons_none (by rfl), List.filterMap_map]
    unfold Function.comp
    by_cases hs : other = space
    · simp [ackOf?, Happening.concerns, Happening.space?, hs]
    · simp [ackOf?, Happening.concerns, Happening.space?, hs]
  | _ => simp [Happening.notes, ackOf?]

theorem ackedOf_eq_ackedIn (s : Reindexing α) (space : SpaceId) :
    s.ackedOf space = ackedIn (s.historyOf space) := by
  unfold ackedOf log historyOf
  induction s.history with
  | nil => rfl
  | cons e h ih =>
    obtain ⟨time, happening⟩ := e
    have hnotes := filterMap_notes happening space
    rw [List.flatMap_cons, List.filterMap_append, ih, List.filter_cons, List.filterMap_map]
    split
    · rename_i hs
      rw [if_pos hs] at hnotes
      exact congrArg (· ++ _) hnotes
    · rename_i hs
      rw [if_neg hs] at hnotes
      exact congrArg (· ++ _) hnotes

theorem concerns_of_mem_historyOf {e : Nat × Happening α} (h : e ∈ s.historyOf space) :
    e.2.concerns space = true :=
  (List.mem_filter.mp h).2

/-- A note tells of a reindex that has ended. -/
theorem ended_of_mem_log {time : Nat} {ack : α} (h : (time, space, .acked ack) ∈ s.log) :
    ∃ acks, ack ∈ acks ∧ (time, .ended space acks) ∈ s.historyOf space := by
  obtain ⟨⟨t, happening⟩, hmem, hnote⟩ := List.mem_flatMap.mp h
  obtain ⟨⟨other, note⟩, hn, heq⟩ := List.mem_map.mp hnote
  cases heq
  cases happening with
  | ended other acks =>
    rcases List.mem_cons.mp hn with hn | hn
    · cases hn
    · obtain ⟨a, ha, heq⟩ := List.mem_map.mp hn
      cases heq
      exact ⟨acks, ha, List.mem_filter.mpr ⟨hmem, by simp [Happening.concerns, Happening.space?]⟩⟩
  | started other acks => cases List.mem_singleton.mp hn
  | _ => exact absurd hn List.not_mem_nil

/-- Where a request can be. -/
inductive Place where
  | waiting | carried | acked | dropped
deriving DecidableEq, Repr

def Place.requests (s : Reindexing α) (space : SpaceId) : Place → List α
  | .waiting => s.debouncer.waiting space
  | .carried => (s.runningOf space).flatten
  | .acked => s.ackedOf space
  | .dropped => lostIn (s.historyOf space)

/-- A request that is acknowledged at a time was made before a reindex started with it, which has
ended then. -/
def Serves (h : List (Nat × Happening α)) (space : SpaceId) (time : Nat) (ack : α) : Prop :=
  ∃ h₁ t₁ h₂ t₂ acks h₃ h₄,
    h = h₁ ++ (t₁, .asked space ack) :: h₂ ++ (t₂, .started space acks) :: h₃ ++
      (time, .ended space acks) :: h₄ ∧
    t₁ ≤ t₂ ∧ t₂ ≤ time ∧ ack ∈ acks ∧ (∀ e ∈ h₂, e.2.closes = false) ∧
    ∀ e ∈ h₃, ∀ c, e.2.carried c = c

/-- What becomes of the requests of a space. The account is of all of them in their order, and
where they are told apart by their acknowledgements it says where each of them is. -/
structure Conserves (work : SpaceId → Nat → Nat) (s : Reindexing α) (space : SpaceId) :
    Prop where
  /-- Requests are taken before the cancellation, and refused after it. -/
  taken : ∀ ack, takenIn ((s.ask space ack).historyOf space) =
    takenIn (s.historyOf space) ++ if s.debouncer.cancelled then [] else [ack]
  cancelled : s.debouncer.cancelled = true ↔ Cancelled (s.historyOf space)
  waits : s.debouncer.waiting space = takenIn (current (s.historyOf space))
  carries : s.runningOf space = (carriedIn (s.historyOf space)).toList
  acks : s.ackedOf space = ackedIn (s.historyOf space)
  ledger : takenIn (s.historyOf space) =
    s.ackedOf space ++ (s.runningOf space).flatten ++ s.debouncer.waiting space ++
      lostIn (s.historyOf space)
  place : (madeIn (s.historyOf space)).Nodup → ∀ ack ∈ takenIn (s.historyOf space),
    ∃! p : Place, ack ∈ p.requests s space
  once : (madeIn (s.historyOf space)).Nodup → (s.ackedOf space).Nodup
  unanswered : (madeIn (s.historyOf space)).Nodup → ∀ ack ∈ refusedIn (s.historyOf space),
    ∀ p : Place, ack ∉ p.requests s space
  /-- So a reindex starts with all that waits, which is not nothing, and ends with the same. -/
  lawful : Throughout Lawful (s.historyOf space)
  served : ∀ time ack, (time, space, .acked ack) ∈ s.log →
    Serves (s.historyOf space) space time ack
  /-- A reindex that runs at the cancellation is not lost. -/
  survives : ∀ before time behind acks,
    s.historyOf space = before ++ (time, .cancelled) :: behind → carriedIn before = some acks →
      (∃ ended, (ended, .ended space acks) ∈ behind) ∨ s.runningOf space = [acks]
  shutdown : (s.cancel.wait work).agenda.entries = [] ∧
    (s.cancel.wait work).ackedOf space = s.ackedOf space ++ (s.runningOf space).flatten ∧
    lostIn ((s.cancel.wait work).historyOf space) =
      lostIn (s.historyOf space) ++ s.debouncer.waiting space

theorem Follows.waiting {c : Course α} (h : s.Follows after maxWait space c) :
    s.debouncer.waiting space = c.waiting := by
  rw [Debouncer.waiting, h.burst?, Course.waiting]
  cases c.burst <;> rfl

theorem historyOf_ask (s : Reindexing α) (space : SpaceId) (ack : α) :
    (s.ask space ack).historyOf space =
      s.historyOf space ++ [(s.now, s.debouncer.reception space ack)] := by
  rw [Reindexing.ask, historyOf_apply (ask_within s.now ack), happenings_ask, List.map_singleton]

theorem takenIn_historyOf_ask (s : Reindexing α) (space : SpaceId) (ack : α) :
    takenIn ((s.ask space ack).historyOf space) =
      takenIn (s.historyOf space) ++ if s.debouncer.cancelled then [] else [ack] := by
  rw [historyOf_ask, takenIn_append, takenIn_singleton, reception]
  split <;> rfl

section

variable {h before behind : List (Nat × Happening α)} {acks : List α} {ack : α} {time : Nat}

/-- What a reindex carries stays with it until it ends. -/
theorem ended_or_carried (hh : Throughout Lawful (before ++ behind))
    (hc : carriedIn before = some acks) :
    (∃ ended other, (ended, .ended other acks) ∈ behind) ∨
      carriedIn (before ++ behind) = some acks := by
  induction behind generalizing before with
  | nil => exact .inr (by rwa [List.append_nil])
  | cons e behind ih =>
    have hp := (hh before e behind rfl).2
    have hlater : carriedIn (before ++ [e]) = some acks →
        (∃ ended other, (ended, .ended other acks) ∈ e :: behind) ∨
          carriedIn (before ++ e :: behind) = some acks := by
      intro hstill
      have hh' : Throughout Lawful (before ++ [e] ++ behind) := by
        rwa [List.append_assoc, List.singleton_append]
      rcases ih hh' hstill with ⟨ended, other, hmem⟩ | hend
      · exact .inl ⟨ended, other, List.mem_cons_of_mem e hmem⟩
      · rw [List.append_assoc, List.singleton_append] at hend
        exact .inr hend
    obtain ⟨t, happening⟩ := e
    cases happening with
    | ended other carried =>
      obtain rfl : carried = acks := Option.some.inj (hp.symm.trans hc)
      exact .inl ⟨t, other, List.mem_cons_self⟩
    | started other carried => exact absurd (hp.2.2.symm.trans hc) nofun
    | _ => exact hlater (by rw [carriedIn_concat]; exact hc)

theorem exists_asked (h : List (Nat × Happening α)) (hw : ack ∈ takenIn (current h)) :
    ∃ h₁ t other h₂, h = h₁ ++ (t, .asked other ack) :: h₂ ∧ ∀ e ∈ h₂, e.2.closes = false := by
  obtain ⟨h₀, hsuffix, hopen⟩ := current_suffix h
  obtain ⟨⟨t, happening⟩, hmem, htaken⟩ := List.mem_flatMap.mp hw
  cases happening with
  | asked other a =>
    obtain rfl := List.mem_singleton.mp htaken
    obtain ⟨h₁, h₂, hsplit⟩ := List.append_of_mem hmem
    refine ⟨h₀ ++ h₁, t, other, h₂, ?_, ?_⟩
    · rw [List.append_assoc, ← hsplit]
      exact hsuffix
    · intro e he
      exact hopen e (hsplit ▸ List.mem_append_right h₁ (List.mem_cons_of_mem _ he))
  | _ => exact absurd htaken List.not_mem_nil

/-- A reindex that ends with a request has started with it, after the request was made. -/
theorem served_of_lawful (hh : Throughout Lawful (before ++ (time, .ended space acks) :: behind))
    (hspace : ∀ e ∈ before, e.2.concerns space = true) (hack : ack ∈ acks) :
    ∃ h₁ t₁ h₂ t₂ h₃,
      before = h₁ ++ (t₁, .asked space ack) :: h₂ ++ (t₂, .started space acks) :: h₃ ∧
      t₁ ≤ t₂ ∧ t₂ ≤ time ∧ (∀ e ∈ h₂, e.2.closes = false) ∧ ∀ e ∈ h₃, ∀ c, e.2.carried c = c := by
  obtain ⟨htimes, hcarried⟩ := hh before _ behind rfl
  obtain ⟨h₀, t₂, other, h₃, rfl, hquiet⟩ := exists_started before hcarried
  obtain ⟨htimes₂, hne, hacks, hidle⟩ := hh h₀ (t₂, .started other acks)
    (h₃ ++ (time, .ended space acks) :: behind) (by simp)
  obtain ⟨h₁, t₁, asker, h₂, rfl, hopen⟩ := exists_asked h₀ (hacks ▸ hack)
  have hstart := hspace (t₂, .started other acks) (by simp)
  have hask := hspace (t₁, .asked asker ack) (by simp)
  obtain rfl : other = space := by simpa [Happening.concerns, Happening.space?] using hstart
  obtain rfl : asker = other := by simpa [Happening.concerns, Happening.space?] using hask
  refine ⟨h₁, t₁, h₂, t₂, h₃, rfl, ?_, ?_, hopen, hquiet⟩
  · exact htimes₂ (t₁, .asked asker ack) (by simp)
  · exact htimes (t₂, .started asker acks) (by simp)

theorem serves_of_lawful (hh : Throughout Lawful h) (hspace : ∀ e ∈ h, e.2.concerns space = true)
    (hended : (time, .ended space acks) ∈ h) (hack : ack ∈ acks) : Serves h space time ack := by
  obtain ⟨before, h₄, rfl⟩ := List.append_of_mem hended
  obtain ⟨h₁, t₁, h₂, t₂, h₃, hbefore, hserved⟩ :=
    served_of_lawful hh (fun e he => hspace e (List.mem_append_left _ he)) hack
  obtain ⟨ht₁, ht₂, hopen, hquiet⟩ := hserved
  exact ⟨h₁, t₁, h₂, t₂, acks, h₃, h₄, by rw [hbefore], ht₁, ht₂, hack, hopen, hquiet⟩

end

theorem Place.subset_taken (hledger : takenIn (s.historyOf space) =
    s.ackedOf space ++ (s.runningOf space).flatten ++ s.debouncer.waiting space ++
      lostIn (s.historyOf space)) {ack : α} {p : Place} (hp : ack ∈ p.requests s space) :
    ack ∈ takenIn (s.historyOf space) := by
  rw [hledger]
  simp only [List.mem_append]
  cases p with
  | waiting => exact .inl (.inr hp)
  | carried => exact .inl (.inl (.inr hp))
  | acked => exact .inl (.inl (.inl hp))
  | dropped => exact .inr hp

theorem Place.existsUnique (hledger : takenIn (s.historyOf space) =
    s.ackedOf space ++ (s.runningOf space).flatten ++ s.debouncer.waiting space ++
      lostIn (s.historyOf space)) (hnodup : (takenIn (s.historyOf space)).Nodup) {ack : α}
    (hack : ack ∈ takenIn (s.historyOf space)) : ∃! p : Place, ack ∈ p.requests s space := by
  rw [hledger] at hnodup hack
  simp only [List.nodup_append, List.mem_append] at hnodup hack
  obtain ⟨⟨⟨-, -, hcarried⟩, -, hwaiting⟩, -, hdropped⟩ := hnodup
  have hsome : ∃ p : Place, ack ∈ p.requests s space := by
    rcases hack with ((hack | hack) | hack) | hack
    · exact ⟨.acked, hack⟩
    · exact ⟨.carried, hack⟩
    · exact ⟨.waiting, hack⟩
    · exact ⟨.dropped, hack⟩
  obtain ⟨p, hp⟩ := hsome
  refine ⟨p, hp, ?_⟩
  intro q hq
  cases p <;> cases q <;> grind [Place.requests]

theorem historyOf_wait_cancel (s : Reindexing α) (space : SpaceId) :
    (s.cancel.wait work).historyOf space = s.historyOf space ++ (s.now, .cancelled) ::
      ((s.debouncer.only space).bursts.map fun p => (s.now, .dropped p.1 p.2.acks)) ++
        (s.agenda.entries.filterMap ending?).filter fun e => e.2.concerns space := by
  rw [← historyOf_cancel, historyOf, (wait_cancel s).2, List.filter_append]
  rfl

theorem ackedIn_drops (now : Nat) (bursts : List (SpaceId × Burst α)) :
    ackedIn ((now, .cancelled) :: bursts.map fun p => (now, .dropped p.1 p.2.acks)) = [] := by
  induction bursts with
  | nil => rfl
  | cons p bursts ih => exact ih

theorem lostIn_drops (now : Nat) (bursts : List (SpaceId × Burst α)) :
    lostIn ((now, .cancelled) :: bursts.map fun p => (now, .dropped p.1 p.2.acks)) =
      bursts.flatMap fun p => p.2.acks := by
  induction bursts with
  | nil => rfl
  | cons p bursts ih => exact congrArg (p.2.acks ++ ·) ih

theorem ackedIn_endings (entries : List (Nat × Duty α)) (space : SpaceId) :
    ackedIn ((entries.filterMap ending?).filter fun e => e.2.concerns space) =
      (entries.filterMap (Duty.carriedOf? space)).flatten := by
  induction entries with
  | nil => rfl
  | cons e entries ih =>
    obtain ⟨time, duty⟩ := e
    cases duty with
    | timer other => exact ih
    | reindex other acks =>
      by_cases hs : other = space
      · subst hs
        simp [ending?, Duty.carriedOf?, Happening.concerns, Happening.space?, ackedIn] at ih ⊢
        exact ih
      · simp [ending?, Duty.carriedOf?, Happening.concerns, Happening.space?, hs] at ih ⊢
        exact ih

theorem lostIn_endings (entries : List (Nat × Duty α)) (space : SpaceId) :
    lostIn ((entries.filterMap ending?).filter fun e => e.2.concerns space) = [] := by
  apply List.flatMap_eq_nil_iff.mpr
  intro e he
  obtain ⟨⟨time, duty⟩, -, hending⟩ := List.mem_filterMap.mp (List.mem_filter.mp he).1
  cases duty with
  | timer other => cases hending
  | reindex other acks =>
    cases hending
    rfl

/-- A shutdown acknowledges what the running reindex carries. -/
theorem ackedOf_wait_cancel (s : Reindexing α) (space : SpaceId) :
    (s.cancel.wait work).ackedOf space = s.ackedOf space ++ (s.runningOf space).flatten := by
  rw [ackedOf_eq_ackedIn, ackedOf_eq_ackedIn, historyOf_wait_cancel, ackedIn_append,
    ackedIn_endings, ackedIn_append, ackedIn_drops, List.append_nil]
  rfl

/-- A shutdown drops what waits. -/
theorem Follows.lostIn_wait_cancel {c : Course α} (h : s.Follows after maxWait space c) :
    lostIn ((s.cancel.wait work).historyOf space) =
      lostIn (s.historyOf space) ++ s.debouncer.waiting space := by
  have hdropped : (s.debouncer.only space).bursts.flatMap (fun p => p.2.acks) =
      s.debouncer.waiting space := by
    rw [h.bursts, h.waiting]
    unfold Course.waiting
    cases c.burst <;> simp
  rw [historyOf_wait_cancel, lostIn_append, lostIn_endings, lostIn_append, lostIn_drops,
    hdropped, List.append_nil]

section

variable {c : Course α}

theorem Follows.cancelled_iff (h : s.Follows after maxWait space c) (hc : c.Accounted) :
    s.debouncer.cancelled = true ↔ Cancelled (s.historyOf space) := by
  rw [h.cancelled, h.history, hc.cancelled]

theorem Follows.waiting_eq (h : s.Follows after maxWait space c) (hc : c.Accounted) :
    s.debouncer.waiting space = takenIn (current (s.historyOf space)) := by
  rw [h.waiting, h.history, hc.waits]

theorem Follows.running_eq (h : s.Follows after maxWait space c) (hc : c.Accounted) :
    s.runningOf space = (carriedIn (s.historyOf space)).toList := by
  rw [h.running, h.history, hc.carries]

theorem Follows.lawful (h : s.Follows after maxWait space c) (hc : c.Accounted) :
    Throughout Lawful (s.historyOf space) := by
  rw [h.history]
  exact hc.lawful

theorem Follows.ledger (h : s.Follows after maxWait space c) (hc : c.Accounted) :
    takenIn (s.historyOf space) = s.ackedOf space ++ (s.runningOf space).flatten ++
      s.debouncer.waiting space ++ lostIn (s.historyOf space) := by
  have hflatten : (s.runningOf space).flatten = (carriedIn (s.historyOf space)).getD [] := by
    rw [h.running_eq hc]
    cases carriedIn (s.historyOf space) <;> simp
  rw [hflatten, h.waiting_eq hc, ackedOf_eq_ackedIn]
  exact ledger_of_lawful (h.lawful hc)

/-- A reindex that runs at a cancellation ends later on, if it is not running still. -/
theorem Follows.ended_or_running (h : s.Follows after maxWait space c) (hc : c.Accounted)
    {before behind : List (Nat × Happening α)} {time : Nat} {acks : List α}
    (hsplit : s.historyOf space = before ++ (time, .cancelled) :: behind)
    (hrunning : carriedIn before = some acks) :
    (∃ ended, (ended, .ended space acks) ∈ behind) ∨ s.runningOf space = [acks] := by
  have hstill : carriedIn (before ++ [(time, .cancelled)]) = some acks := by
    rw [carriedIn_concat]
    exact hrunning
  have hall : Throughout Lawful (before ++ [(time, .cancelled)] ++ behind) := by
    rw [List.append_assoc, List.singleton_append, ← hsplit]
    exact h.lawful hc
  rcases ended_or_carried hall hstill with ⟨ended, other, hmem⟩ | hend
  · have hin : (ended, .ended other acks) ∈ s.historyOf space := by
      rw [hsplit]
      exact List.mem_append_right _ (List.mem_cons_of_mem _ hmem)
    have hspace := concerns_of_mem_historyOf hin
    obtain rfl : other = space := by
      simpa [Happening.concerns, Happening.space?] using hspace
    exact .inl ⟨ended, hmem⟩
  · refine .inr ?_
    rw [h.running_eq hc, hsplit, List.append_cons, hend]
    rfl

end

theorem requests_conserved (hs : s.Reached punctual work after maxWait) (space : SpaceId) :
    s.Conserves work space := by
  obtain ⟨c, hleads, h⟩ := hs.course space
  have hc := hleads.accounted
  have hledger := h.ledger hc
  have hmade : (madeIn (s.historyOf space)).Nodup →
      (takenIn (s.historyOf space) ++ refusedIn (s.historyOf space)).Nodup :=
    (madeIn_perm (s.historyOf space)).nodup_iff.mp
  exact {
    taken := takenIn_historyOf_ask s space
    cancelled := h.cancelled_iff hc
    waits := h.waiting_eq hc
    carries := h.running_eq hc
    acks := ackedOf_eq_ackedIn s space
    ledger := hledger
    place := fun hnodup ack hack =>
      Place.existsUnique hledger (List.nodup_append.mp (hmade hnodup)).1 hack
    once := by
      intro hnodup
      have htaken := (List.nodup_append.mp (hmade hnodup)).1
      rw [hledger, List.append_assoc, List.append_assoc] at htaken
      exact (List.nodup_append.mp htaken).1
    unanswered := by
      intro hnodup ack hack p hp
      have hapart := (List.nodup_append.mp (hmade hnodup)).2.2
      exact hapart ack (Place.subset_taken hledger hp) ack hack rfl
    lawful := h.lawful hc
    served := by
      intro time ack hlog
      obtain ⟨acks, hack, hended⟩ := ended_of_mem_log hlog
      exact serves_of_lawful (h.lawful hc) (fun _ => concerns_of_mem_historyOf) hended hack
    survives := fun before time behind acks hsplit => h.ended_or_running hc hsplit
    shutdown := ⟨(wait_cancel s).1, ackedOf_wait_cancel s space, h.lostIn_wait_cancel⟩ }

theorem requests_conserved_beside_running_reindex :
    let space : SpaceId := ⟨"", "a"⟩
    let work : SpaceId → Nat → Nat := fun _ _ => 10
    let s : Reindexing Nat := (((ofTimes 2 5).ask space 0).sleep work 3).ask space 1
    s.Reached True work 2 5 ∧ s.runningOf space = [[0]] ∧ s.debouncer.waiting space = [1] ∧
      s.Conserves work space := by
  intro space work s
  have hs : s.Reached True work 2 5 := (((executed_start.ask space 0).sleep 3).ask space 1).reached
  have hrun : ((ofTimes 2 5).ask space 0).runUntil work 3 =
      (((ofTimes 2 5).ask space 0).perform work .empty 0 (.timer space)).perform work .empty 2
        (.timer space) := by
    rw [runUntil_of_some rfl, runUntil_of_some rfl, runUntil_of_none rfl]
    rfl
  have hstate : s = ({ ((ofTimes 2 5).ask space 0).runUntil work 3 with now := 3 }
    : Reindexing Nat).ask space 1 := rfl
  rw [hrun] at hstate
  refine ⟨hs, ?_, ?_, requests_conserved hs space⟩
  · rw [hstate]
    rfl
  · rw [hstate]
    rfl

end Reindexing
end ResourceIndex
