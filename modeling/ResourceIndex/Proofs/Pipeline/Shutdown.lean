import ResourceIndex.Proofs.Pipeline.Discipline
/-
What a close leaves to be done. No event is taken after it, a burst that is not due waits or is
dropped by its timer, and what a running reindex carries is acknowledged when the reindex ends.
-/
namespace ResourceIndex

open Debouncer

namespace Course

variable {α : Type} {c c' : Course α} {punctual : Prop} {after maxWait armed : Nat}
  {space : SpaceId} {b : Burst α}

/-- A step takes nothing back. -/
structure Grows (c c' : Course α) : Prop where
  now : c.now ≤ c'.now
  cancelled : c.cancelled = true → c'.cancelled = true
  history : c.history <+: c'.history

theorem Grows.refl (c : Course α) : c.Grows c := ⟨Nat.le_refl _, id, List.prefix_refl _⟩

theorem Grows.trans {c'' : Course α} (h : c.Grows c') (h' : c'.Grows c'') : c.Grows c'' :=
  ⟨Nat.le_trans h.now h'.now, h'.cancelled ∘ h.cancelled, h.history.trans h'.history⟩

theorem grows_record (h : Happening α) (burst : Option (Burst α × Nat)) (running : Option (List α))
    {cancelled : Bool} (hc : c.cancelled = true → cancelled = true) :
    c.Grows ⟨c.now, cancelled, burst, running, c.history ++ [(c.now, h)]⟩ :=
  ⟨Nat.le_refl _, hc, List.prefix_append _ _⟩

theorem Step.grows (hst : Step punctual after maxWait space c c') : c.Grows c' := by
  cases hst with
  | pass h => exact ⟨h, id, List.prefix_refl _⟩
  | rearm => exact ⟨Nat.le_refl _, id, List.prefix_refl _⟩
  | stop => exact grows_record _ _ _ fun _ => rfl
  | _ => exact grows_record _ _ _ id

theorem Leads.grows (h : Leads punctual after maxWait space c c') : c.Grows c' := by
  induction h with
  | refl => exact .refl _
  | tail _ hst ih => exact ih.trans hst.grows

/-- After a cancellation a burst that is not due waits until it is dropped. -/
theorem Step.waits_or_dropped (hst : Step punctual after maxWait space c c')
    (hc : c.cancelled = true) (hb : c.burst = some (b, armed)) (hlt : c.now < b.deadline) :
    (∃ armed', c'.burst = some (b, armed')) ∨
      ∃ time, (time, .dropped space b.acks) ∈ c'.history := by
  cases hst with
  | begin ack ho => exact absurd (ho.symm.trans hc) Bool.false_ne_true
  | extend ack ho => exact absurd (ho.symm.trans hc) Bool.false_ne_true
  | rearm hb' =>
    cases hb.symm.trans hb'
    exact .inl ⟨_, rfl⟩
  | postpone hb' hr hle =>
    cases hb.symm.trans hb'
    exact absurd hle (Nat.not_le.mpr hlt)
  | fire hb' hr hle =>
    cases hb.symm.trans hb'
    exact absurd hle (Nat.not_le.mpr hlt)
  | drop _ hb' =>
    cases hb.symm.trans hb'
    exact .inr ⟨c.now, List.mem_append_right _ (List.mem_singleton.mpr rfl)⟩
  | _ => exact .inl ⟨armed, hb⟩

theorem Leads.waits_or_dropped (h : Leads punctual after maxWait space c c')
    (hc : c.cancelled = true) (hb : c.burst = some (b, armed)) (hlt : c'.now < b.deadline) :
    (∃ armed', c'.burst = some (b, armed')) ∨
      ∃ time, (time, .dropped space b.acks) ∈ c'.history := by
  induction h with
  | refl => exact .inl ⟨armed, hb⟩
  | tail hd hst ih =>
    have hbefore := Nat.lt_of_le_of_lt hst.grows.now hlt
    rcases ih hbefore with ⟨armed', hwaits⟩ | ⟨time, hdropped⟩
    · exact hst.waits_or_dropped ((Leads.grows hd).cancelled hc) hwaits hbefore
    · exact .inr ⟨time, hst.grows.history.subset hdropped⟩

end Course

namespace Pipeline

variable {w : Workload} {p q r : Pipeline} {hs : List Happening} {n : Nat} {space : SpaceId}
  {b : Burst Nat} {punctual : Prop} {events : Nat → ChangeEvent} {s : EventSettings}
  {capacity : Nat}

/-- What is added by a step. A closed pipeline stays closed, and no event is taken then. -/
structure Proceeds (p q : Pipeline) (new : List (Nat × Happening)) : Prop where
  history : q.history = p.history ++ new
  closed : p.closed = true → q.closed = true
  untaken : p.closed = true → ∀ x ∈ new, ∀ n, x.2.takes n = false

theorem Adds.proceeds (h : Adds p hs q) (hn : ∀ x ∈ hs, ∀ n, x.takes n = false) :
    Proceeds p q (hs.map fun h => (p.now, h)) where
  history := h.history
  closed := fun hc => h.closed.trans hc
  untaken := by
    intro _ x hx
    obtain ⟨y, hy, rfl⟩ := List.mem_map.mp hx
    exact hn y hy

theorem proceeds_nil (hh : q.history = p.history) (hc : p.closed = true → q.closed = true) :
    Proceeds p q [] :=
  ⟨hh.trans (List.append_nil _).symm, hc, fun _ _ hx => absurd hx List.not_mem_nil⟩

theorem takes_closing (p : Pipeline) (taken : Taken) (n : Nat) :
    (p.closing taken).takes n = false :=
  (closes_closing p taken).takes n

theorem Hears.takes {happenings : List (Debouncer.Happening Nat)} (h : Hears hs happenings) :
    ∀ x ∈ hs, ∀ n, x.takes n = false := by
  intro x hx n
  cases x with
  | taken worker place =>
    obtain ⟨space, result, heq⟩ := h.others _ hx rfl
    cases heq
  | _ => rfl

theorem Step.proceeds (hst : Step punctual w events p q) : ∃ new, Proceeds p q new := by
  cases hst with
  | @take worker place event rest ho =>
    obtain ⟨hs, hadds, -⟩ := adds_process w (p.withQueue rest) worker ⟨place, event⟩
    have hopen : p.closed ≠ true := ho ▸ Bool.false_ne_true
    exact ⟨_, hadds.history, fun hc => absurd hc hopen, fun hc => absurd hc hopen⟩
  | @endCall time worker taken call rest =>
    have hadds := adds_release (w := w) (p.withAgenda rest) worker taken call
    obtain ⟨hhistory, hclosed, huntaken⟩ := hadds.proceeds (List.forall_mem_cons.mpr
      ⟨fun _ => rfl, List.forall_mem_singleton.mpr (takes_closing _ _)⟩)
    exact ⟨_, hhistory, hclosed, huntaken⟩
  | @carryOut time duty rest =>
    obtain ⟨hs, hadds, hhears⟩ := adds_carryOut w (p.withAgenda rest) duty
    obtain ⟨hhistory, hclosed, huntaken⟩ := hadds.proceeds hhears.takes
    exact ⟨_, hhistory, hclosed, huntaken⟩
  | stop => exact ⟨_, rfl, fun _ => rfl, fun _ => List.forall_mem_singleton.mpr fun _ => rfl⟩
  | drop => exact ⟨_, rfl, id, fun _ => List.forall_mem_singleton.mpr fun _ => rfl⟩
  | _ => exact ⟨[], proceeds_nil rfl id⟩

theorem Proceeds.trans {new new' : List (Nat × Happening)} (h : Proceeds p q new)
    (h' : Proceeds q r new') : Proceeds p r (new ++ new') where
  history := by rw [h'.history, h.history, List.append_assoc]
  closed := h'.closed ∘ h.closed
  untaken := fun hc x hx =>
    (List.mem_append.mp hx).elim (h.untaken hc x) (h'.untaken (h.closed hc) x)

theorem Leads.proceeds (h : Leads punctual w events p q) : ∃ new, Proceeds p q new := by
  induction h with
  | refl => exact ⟨[], proceeds_nil rfl id⟩
  | tail _ hst ih =>
    obtain ⟨new, h⟩ := ih
    obtain ⟨new', h'⟩ := hst.proceeds
    exact ⟨new ++ new', h.trans h'⟩

theorem Reached.leads (h : Reached punctual w events s capacity p)
    (hq : Leads punctual w events p q) : Reached punctual w events s capacity q :=
  Relation.ReflTransGen.trans h hq

/-- What happens to a space is found in the history of the pipeline. -/
theorem mem_history_of_historyOf {time : Nat} {x : Debouncer.Happening Nat}
    (h : (time, x) ∈ p.reindexing.historyOf space) : (time, .deferred x) ∈ p.history :=
  mem_history_reindexing.mp (List.mem_filter.mp h).1

/-- While a burst is not due, a closed pipeline leaves it as it is or drops it. -/
theorem Leads.waits_or_dropped (h : Reached punctual w events s capacity p)
    (hq : Leads punctual w events p q) (hc : p.closed = true)
    (hb : p.debouncer.burst? space = some b) (hlt : q.now < b.deadline) :
    q.debouncer.burst? space = some b ∨
      ∃ time, (time, .deferred (.dropped space b.acks)) ∈ q.history := by
  obtain ⟨c, -, hfollows⟩ := h.reindexing.course space
  obtain ⟨armed, hcb⟩ := hfollows.exists_burst hb
  obtain ⟨c', hleads, hfollows'⟩ := hfollows.steps (hq.reindexing h.sorted h.closed_eq)
  have hcancelled : c.cancelled = true := hfollows.cancelled.symm.trans (h.closed_eq.symm.trans hc)
  have hnow : q.now = c'.now := hfollows'.now
  rcases hleads.waits_or_dropped hcancelled hcb (hnow ▸ hlt) with
    ⟨armed', hwaits⟩ | ⟨time, hdropped⟩
  · exact .inl (hfollows'.burst?_eq_some hwaits)
  · rw [← hfollows'.history] at hdropped
    exact .inr ⟨time, mem_history_of_historyOf hdropped⟩

/-- What a running reindex carries is acknowledged when it ends, and it ends if it does not run. -/
theorem Reached.ended_or_running (h : Reached punctual w events s capacity p)
    (hq : Leads punctual w events p q) {places : List Nat} {new : List (Nat × Happening)}
    (hrunning : places ∈ p.reindexing.runningOf space) (hnew : q.history = p.history ++ new) :
    (∃ time, (time, .deferred (.ended space places)) ∈ new) ∨
      places ∈ q.reindexing.runningOf space := by
  have hp := h.account space
  have hq := (h.leads hq).account space
  have hcarried : carriedIn (p.reindexing.historyOf space) = some places := by
    rw [hp.running] at hrunning
    exact Option.mem_toList.mp hrunning
  have hlawful := hq.lawful
  have hrun := hq.running
  rw [historyOf_reindexing] at hcarried
  rw [historyOf_reindexing, hnew, List.filterMap_append] at hlawful hrun
  rcases Reindexing.ended_or_carried hlawful hcarried with ⟨time, other, hended⟩ | hstill
  · obtain ⟨x, hx, hconcerns⟩ := List.mem_filterMap.mp hended
    obtain ⟨rfl, hspace⟩ := concerning?_eq_some.mp hconcerns
    obtain rfl : other = space := by
      simpa [Debouncer.Happening.concerns, Debouncer.Happening.space?] using hspace
    exact .inl ⟨time, hx⟩
  · rw [hrun, hstill]
    exact .inr (List.mem_singleton.mpr rfl)

end Pipeline

end ResourceIndex
