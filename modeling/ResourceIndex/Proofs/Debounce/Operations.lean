import ResourceIndex.Proofs.Debounce.Course
/-
The operations of a debouncer are runs of its steps with punctual timers: the clock stops at every
entry of the agenda, and a cancellation reaches all the timers before anything else happens.
-/
namespace ResourceIndex

namespace Debouncer

variable {α : Type} {d : Debouncer α}

theorem le_of_mem_ask {now : Nat} {space : SpaceId} {ack : α} {p : Nat × Duty α}
    (h : p ∈ (d.ask now space ack).duties) : now ≤ p.1 := by
  unfold ask at h
  split at h
  · exact Nat.le_of_eq (congrArg Prod.fst (List.mem_singleton.mp h)).symm
  · exact absurd h List.not_mem_nil

theorem le_of_mem_perform {work now : Nat} {duty : Duty α} {p : Nat × Duty α}
    (h : p ∈ (d.perform work now duty).duties) : now ≤ p.1 := by
  cases duty with
  | reindex => exact absurd h List.not_mem_nil
  | timer space =>
    unfold perform at h
    dsimp only at h
    split at h
    · exact absurd h List.not_mem_nil
    · rename_i t d' hwake
      rw [List.mem_singleton.mp h]
      exact Nat.le_of_lt (lt_of_wake hwake)
    · rw [List.mem_singleton.mp h]
      exact Nat.le_trans (Nat.le_succ now) (Nat.le_max_right ..)
    · split at h
      · exact absurd h List.not_mem_nil
      · rw [List.mem_singleton.mp h]
        exact Nat.le_add_right now work

theorem cancel_eq_self (hb : d.bursts = []) (hc : d.cancelled = true) : d.cancel = d := by
  cases d
  simp_all [cancel]

end Debouncer

namespace Reindexing

open Debouncer

variable {α : Type} {s t : Reindexing α} {punctual : Prop} {work : SpaceId → Nat → Nat}
  {after maxWait time limit : Nat} {duty : Duty α} {rest : List (Nat × Duty α)}

/-- The entries of the agenda are in order, and none of them is past. -/
structure InOrder (s : Reindexing α) : Prop where
  sorted : Agenda.Sorted s.agenda.entries
  ahead : ∀ e ∈ s.agenda.entries, s.now ≤ e.1

theorem InOrder.apply (h : s.InOrder) {e : Effect α} (he : ∀ p ∈ e.duties, s.now ≤ p.1) :
    (s.apply e).InOrder where
  sorted := Agenda.sorted_addAll h.sorted
  ahead := fun p hp => (Agenda.mem_addAll.mp hp).elim (he p) (h.ahead p)

theorem InOrder.ask (h : s.InOrder) (space : SpaceId) (ack : α) : (s.ask space ack).InOrder :=
  h.apply fun _ => le_of_mem_ask

theorem InOrder.next (h : s.InOrder) (hnext : s.agenda.entries = (time, duty) :: rest) :
    ({ s with now := time, agenda := ⟨rest⟩ } : Reindexing α).InOrder := by
  have hsorted := h.sorted
  rw [hnext] at hsorted
  obtain ⟨hhead, htail⟩ := List.pairwise_cons.mp hsorted
  exact ⟨htail, hhead⟩

theorem InOrder.perform (h : s.InOrder) (hnext : s.agenda.entries = (time, duty) :: rest) :
    (s.perform work ⟨rest⟩ time duty).InOrder :=
  (h.next hnext).apply fun _ => le_of_mem_perform

theorem InOrder.le_next (h : s.InOrder) (hnext : s.agenda.entries = (time, duty) :: rest) :
    s.now ≤ time :=
  h.ahead (time, duty) (hnext ▸ List.mem_cons_self)

theorem InOrder.cancel (h : s.InOrder) : s.cancel.InOrder where
  sorted := Agenda.sorted_filter _ h.sorted
  ahead := fun p hp => h.ahead p (List.mem_filter.mp hp).1

theorem mayReach_of_le (hahead : ∀ e ∈ s.agenda.entries, time ≤ e.1) (hle : s.now ≤ time) :
    s.MayReach punctual time :=
  ⟨hle, fun _ _ _ harmed =>
    let ⟨_, hg⟩ := exists_timer harmed
    hahead _ hg.mem⟩

theorem runUntil_of_none (h : s.agenda.due? limit = none) : s.runUntil work limit = s := by
  rw [runUntil]
  split
  · rfl
  · rename_i hsome
    rw [h] at hsome
    cases hsome

theorem runUntil_of_some {rest : Agenda (Duty α)}
    (h : s.agenda.due? limit = some ((time, duty), rest)) :
    s.runUntil work limit = (s.perform work rest time duty).runUntil work limit := by
  rw [runUntil]
  split
  · rename_i hnone
    rw [h] at hnone
    cases hnone
  · rename_i hsome
    rw [h] at hsome
    cases hsome
    rfl

/-- The clock has run until a time: what was due is done, and the rest comes later. -/
structure RunsTo (limit : Nat) (s t : Reindexing α) : Prop where
  order : t.InOrder
  started : s.now ≤ t.now
  stopped : t.now ≤ limit
  later : ∀ e ∈ t.agenda.entries, limit < e.1

theorem InOrder.runUntil (h : s.InOrder) (hle : s.now ≤ limit) :
    RunsTo limit s (s.runUntil work limit) := by
  fun_induction Reindexing.runUntil work limit s with
  | case1 s hdue => exact ⟨h, Nat.le_refl _, hle, Agenda.lt_of_due?_eq_none h.sorted hdue⟩
  | case2 s time duty rest hdue ih =>
    obtain ⟨hnext, htime⟩ := Agenda.due?_eq_some hdue
    have hrun := ih (h.perform hnext) htime
    exact { hrun with started := Nat.le_trans (h.le_next hnext) hrun.started }

theorem InOrder.settle (h : s.InOrder) : (s.settle work).InOrder :=
  (h.runUntil (Nat.le_refl s.now)).order

theorem InOrder.now_settle (h : s.InOrder) : (s.settle work).now = s.now :=
  let hrun := h.runUntil (Nat.le_refl s.now)
  Nat.le_antisymm hrun.stopped hrun.started

theorem InOrder.sleep (h : s.InOrder) (ms : Nat) : (s.sleep work ms).InOrder :=
  let hrun := h.runUntil (Nat.le_add_right s.now ms)
  ⟨hrun.order.sorted, fun e he => Nat.le_of_lt (hrun.later e he)⟩

/-- A state that the operations lead to. -/
structure Executed (work : SpaceId → Nat → Nat) (after maxWait : Nat) (s : Reindexing α) :
    Prop where
  reached : s.Reached True work after maxWait
  order : s.InOrder

theorem inOrder_start : (ofTimes (α := α) after maxWait).InOrder :=
  ⟨.nil, fun _ he => absurd he List.not_mem_nil⟩

theorem executed_start : (ofTimes (α := α) after maxWait).Executed work after maxWait :=
  ⟨reached_start, inOrder_start⟩

theorem Executed.ask (hs : s.Executed work after maxWait) (space : SpaceId) (ack : α) :
    (s.ask space ack).Executed work after maxWait :=
  ⟨hs.reached.ask space ack, hs.order.ask space ack⟩

theorem Executed.perform (hs : s.Executed work after maxWait)
    (hnext : s.agenda.entries = (time, duty) :: rest) :
    (s.perform work ⟨rest⟩ time duty).Executed work after maxWait := by
  have hahead : ∀ e ∈ s.agenda.entries, time ≤ e.1 := by
    rw [hnext]
    exact List.forall_mem_cons.mpr ⟨Nat.le_refl time, (hs.order.next hnext).ahead⟩
  have hpass := hs.reached.pass (mayReach_of_le hahead (hs.order.le_next hnext))
  exact ⟨hpass.carryOut ⟨[], rest, hnext, rfl⟩, hs.order.perform hnext⟩

theorem Executed.runUntil (hs : s.Executed work after maxWait) (limit : Nat) :
    (s.runUntil work limit).Executed work after maxWait := by
  fun_induction Reindexing.runUntil work limit s with
  | case1 => exact hs
  | case2 s time duty rest hdue ih => exact ih (hs.perform (Agenda.due?_eq_some hdue).1)

theorem Executed.settle (hs : s.Executed work after maxWait) :
    (s.settle work).Executed work after maxWait :=
  hs.runUntil s.now

theorem Executed.sleep (hs : s.Executed work after maxWait) (ms : Nat) :
    (s.sleep work ms).Executed work after maxWait := by
  have hsleep : (s.sleep work ms).InOrder := hs.order.sleep ms
  have hrun : RunsTo _ s (s.runUntil work (s.now + ms)) :=
    hs.order.runUntil (Nat.le_add_right s.now ms)
  exact ⟨(hs.runUntil _).reached.pass (mayReach_of_le hsleep.ahead hrun.stopped), hsleep⟩

theorem Executed.drain (hs : s.Executed work after maxWait) (fuel : Nat) :
    (drain work fuel s).Executed work after maxWait := by
  induction fuel generalizing s with
  | zero => exact hs
  | succ fuel ih =>
    unfold Reindexing.drain
    split
    · exact hs
    · rename_i time duty rest hnext
      exact ih (hs.perform hnext)

theorem Executed.wait (hs : s.Executed work after maxWait) :
    (s.wait work).Executed work after maxWait :=
  hs.drain s.dutyBound

/-- Of a burst that is the first the timer is armed, and it is the only burst of its space. -/
theorem Follows.first_burst {c : Course α} {space : SpaceId} {b : Burst α}
    {bursts : List (SpaceId × Burst α)} (h : s.Follows after maxWait space c)
    (hb : s.debouncer.bursts = (space, b) :: bursts) :
    (∃ armed, armed ∈ s.timersOf space) ∧ (s.debouncer.without space).bursts = bursts := by
  obtain ⟨armed, hc⟩ := h.exists_burst (b := b) (by simp [Debouncer.burst?, hb])
  refine ⟨⟨armed, h.mem_timersOf hc⟩, ?_⟩
  have honly := h.bursts
  rw [hc] at honly
  simp only [Debouncer.only, hb, List.filter_cons, decide_true, if_true] at honly
  have hne : ∀ p ∈ bursts, (p.1 != space) = true := by
    intro p hp
    have hfalse := List.filter_eq_nil_iff.mp (List.cons.inj honly).2 p hp
    simpa using hfalse
  simp only [Debouncer.without, hb, List.filter_cons, bne_self_eq_false, Bool.false_eq_true,
    if_false, List.filter_eq_self.mpr hne]

/-- What is left when all timers have dropped their bursts. -/
def dropAll (s : Reindexing α) : Reindexing α := { s with
  debouncer := s.debouncer.cancel
  agenda := s.agenda.filter Duty.isReindex
  history := s.history ++ s.debouncer.bursts.map fun (space, b) => (s.now, .dropped space b.acks) }

theorem cancel_eq_dropAll (s : Reindexing α) : s.cancel = s.stop.dropAll := by
  simp [cancel, stop, dropAll, Debouncer.stop, Debouncer.cancel]

theorem dropAll_drop {space : SpaceId} {b : Burst α} {bursts : List (SpaceId × Burst α)}
    {armed : Nat} {rest : Agenda (Duty α)} (hg : s.agenda.Gives (armed, .timer space) rest)
    (hb : s.debouncer.bursts = (space, b) :: bursts)
    (hrest : (s.debouncer.without space).bursts = bursts) :
    (s.drop rest space).dropAll = s.dropAll := by
  have hwaits : s.debouncer.waiting space = b.acks := by
    simp [waiting, Debouncer.burst?, hb]
  have hagenda : rest.filter Duty.isReindex = s.agenda.filter Duty.isReindex := by
    obtain ⟨before, behind, hbefore, hafter⟩ := hg
    simp [Agenda.filter, hbefore, hafter, Duty.isReindex]
  have hcancel : (s.debouncer.without space).cancel = s.debouncer.cancel := rfl
  simp only [dropAll, drop, hwaits, hagenda, hcancel, hrest, hb, List.map_cons, List.append_assoc,
    List.singleton_append]

/-- Every armed timer belongs to a burst. -/
theorem dropAll_of_nil (hs : ∀ space, ∃ c, s.Follows after maxWait space c)
    (hc : s.debouncer.cancelled = true) (hb : s.debouncer.bursts = []) : s.dropAll = s := by
  have hreindex : s.agenda.filter Duty.isReindex = s.agenda := by
    apply congrArg Agenda.mk
    apply List.filter_eq_self.mpr
    rintro ⟨time, duty⟩ hmem
    cases duty with
    | reindex => rfl
    | timer space =>
      obtain ⟨c, h⟩ := hs space
      have hnone : c.burst = none := by
        have hburst := h.burst?
        rw [Debouncer.burst?, hb] at hburst
        exact Option.map_eq_none_iff.mp hburst.symm
      have htimer : time ∈ s.timersOf space :=
        List.mem_filterMap.mpr ⟨_, hmem, timerOf?_timer time⟩
      rw [h.timers, hnone] at htimer
      exact absurd htimer List.not_mem_nil
  rw [dropAll, hreindex, cancel_eq_self hb hc, hb, List.map_nil, List.append_nil]

/-- One timer after the other drops its burst, until no timer is left. -/
theorem runs_dropAll (hs : ∀ space, ∃ c, s.Follows after maxWait space c)
    (hc : s.debouncer.cancelled = true) :
    Relation.ReflTransGen (Step punctual work) s s.dropAll := by
  -- The first burst has its timer and no other burst has its space, so that the others stay as
  -- they are and still follow their courses when it is dropped.
  generalize hbursts : s.debouncer.bursts = bursts
  induction bursts generalizing s with
  | nil => rw [dropAll_of_nil hs hc hbursts]
  | cons p bursts ih =>
    obtain ⟨space, b⟩ := p
    obtain ⟨c, h⟩ := hs space
    obtain ⟨⟨armed, harmed⟩, hrest⟩ := h.first_burst hbursts
    obtain ⟨rest, hg⟩ := exists_timer harmed
    have htracked : ∀ other, ∃ c, (s.drop rest space).Follows after maxWait other c := by
      intro other
      obtain ⟨c, h⟩ := hs other
      obtain ⟨c', hleads, h'⟩ : ∃ c', Course.Leads punctual after maxWait other c c' ∧ _ :=
        h.drop hc hg
      exact ⟨c', h'⟩
    have hruns := ih htracked hc hrest
    rw [dropAll_drop hg hbursts hrest] at hruns
    exact .head (.drop hc hg) hruns

theorem Reached.cancel (hs : s.Reached punctual work after maxWait) :
    s.cancel.Reached punctual work after maxWait := by
  have htracked : ∀ space, ∃ c, s.stop.Follows after (max maxWait after) space c := by
    intro space
    obtain ⟨c, -, h⟩ := hs.stop.course space
    exact ⟨c, h⟩
  rw [cancel_eq_dropAll]
  exact hs.stop.trans (runs_dropAll htracked rfl)

theorem Executed.cancel (hs : s.Executed work after maxWait) :
    s.cancel.Executed work after maxWait :=
  ⟨hs.reached.cancel, hs.order.cancel⟩

/-- A space loses its own burst by a cancellation. -/
theorem historyOf_cancel (s : Reindexing α) (space : SpaceId) :
    s.cancel.historyOf space = s.historyOf space ++ (s.now, .cancelled) ::
      (s.debouncer.only space).bursts.map fun p => (s.now, .dropped p.1 p.2.acks) := by
  have hdrops : (s.debouncer.bursts.map fun p => (s.now, Happening.dropped p.1 p.2.acks)).filter
      (fun e => e.2.concerns space) =
        (s.debouncer.only space).bursts.map fun p => (s.now, .dropped p.1 p.2.acks) :=
    List.filter_map
  unfold historyOf
  rw [← hdrops, cancel, List.filter_append, List.filter_cons, if_pos (by rfl)]

/-- What is to happen when a running reindex ends. -/
def ending? : Nat × Duty α → Option (Nat × Happening α)
  | (_, .timer _) => none
  | (time, .reindex space acks) => some (time, .ended space acks)

theorem drain_of_reindexes {fuel : Nat} (hall : ∀ e ∈ s.agenda.entries, e.2.isReindex = true)
    (hfuel : s.agenda.entries.length ≤ fuel) :
    (drain work fuel s).agenda.entries = [] ∧
      (drain work fuel s).history = s.history ++ s.agenda.entries.filterMap ending? := by
  induction fuel generalizing s with
  | zero =>
    have hnil := List.eq_nil_of_length_eq_zero (Nat.le_zero.mp hfuel)
    exact ⟨hnil, by rw [hnil]; exact (List.append_nil _).symm⟩
  | succ fuel ih =>
    unfold drain
    split
    · rename_i hnil
      exact ⟨hnil, by rw [hnil]; exact (List.append_nil _).symm⟩
    · rename_i time duty rest hnext
      rw [hnext] at hall hfuel ⊢
      obtain ⟨hduty, hrest⟩ := List.forall_mem_cons.mp hall
      cases duty with
      | timer => cases hduty
      | reindex space acks =>
        obtain ⟨hnil, hhistory⟩ := ih (s := s.perform work ⟨rest⟩ time (.reindex space acks)) hrest
          (Nat.le_of_succ_le_succ hfuel)
        refine ⟨hnil, hhistory.trans ?_⟩
        exact (List.append_cons s.history (time, .ended space acks) _).symm

theorem length_le_dutyBound (s : Reindexing α) : s.agenda.entries.length ≤ s.dutyBound :=
  Nat.le_mul_of_pos_right _ (Nat.succ_pos _)

/-- A shutdown drops what waits and lets the running reindexes end. -/
theorem wait_cancel (s : Reindexing α) :
    (s.cancel.wait work).agenda.entries = [] ∧
      (s.cancel.wait work).history = s.cancel.history ++ s.agenda.entries.filterMap ending? := by
  have hreindexes : ∀ e ∈ s.cancel.agenda.entries, e.2.isReindex = true :=
    fun e he => (List.mem_filter.mp he).2
  obtain ⟨hnil, hhistory⟩ : (s.cancel.wait work).agenda.entries = [] ∧ _ :=
    drain_of_reindexes hreindexes (length_le_dutyBound s.cancel)
  refine ⟨hnil, hhistory.trans ?_⟩
  have hentries : (s.agenda.entries.filter fun e => e.2.isReindex).filterMap ending? =
      s.agenda.entries.filterMap ending? := by
    rw [List.filterMap_filter]
    congr 1
    funext ⟨time, duty⟩
    cases duty <;> rfl
  exact congrArg (s.cancel.history ++ ·) hentries

/-- What is done with a debouncer. -/
inductive Command (α : Type) where
  | ask (space : SpaceId) (ack : α) : Command α
  /-- The timers and reindexes that are due have their turn. -/
  | settle : Command α
  | sleep (ms : Nat) : Command α
  | cancel : Command α
deriving DecidableEq, Repr

def Command.run (work : SpaceId → Nat → Nat) (s : Reindexing α) : Command α → Reindexing α
  | .ask space ack => s.ask space ack
  | .settle => s.settle work
  | .sleep ms => s.sleep work ms
  | .cancel => s.cancel

/-- The operations have their turns one by one, so that all timers that are due by the end of a
sleep come before a cancellation for the same instant, and none after it. -/
def run (work : SpaceId → Nat → Nat) (script : List (Command α)) (s : Reindexing α) :
    Reindexing α :=
  script.foldl (Command.run work) s

theorem Executed.run (hs : s.Executed work after maxWait) (script : List (Command α)) :
    (s.run work script).Executed work after maxWait := by
  induction script generalizing s with
  | nil => exact hs
  | cons command script ih =>
    cases command with
    | ask space ack => exact ih (hs.ask space ack)
    | settle => exact ih hs.settle
    | sleep ms => exact ih (hs.sleep ms)
    | cancel => exact ih hs.cancel

end Reindexing
end ResourceIndex
