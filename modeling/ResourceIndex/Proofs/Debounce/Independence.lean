import ResourceIndex.Proofs.Debounce.Ledger
/-
Spaces do not influence each other. What a script does to a space is what it does without the
requests for all other spaces: each operation keeps this up, and the clock runs on for the others in
between.
-/
namespace ResourceIndex.Reindexing

open Debouncer

variable {α : Type} {s t : Reindexing α} {space other : SpaceId}
  {work work' : SpaceId → Nat → Nat} {time limit : Nat} {duty : Duty α}

/-- A debouncer on its clock as far as it concerns a space. -/
def only (space : SpaceId) (s : Reindexing α) : Reindexing α where
  debouncer := s.debouncer.only space
  agenda := s.agenda.filter fun duty => duty.space = space
  now := s.now
  history := s.historyOf space

theorem startCount_only : (s.only space).startCount space = s.startCount space :=
  countP_historyOf fun _ => Happening.concerns_of_isStartOf

theorem InOrder.only (h : s.InOrder) : (s.only space).InOrder where
  sorted := Agenda.sorted_filter _ h.sorted
  ahead := fun e he => h.ahead e (List.mem_filter.mp he).1

theorem only_apply (h : Agenda.Sorted s.agenda.entries) {e : Effect α} (he : e.Within space) :
    (s.apply e).only space =
      (s.only space).apply { e with debouncer := e.debouncer.only space } := by
  have hduties : e.duties.filter (fun p => p.2.space = space) = e.duties :=
    List.filter_eq_self.mpr fun p hp => decide_eq_true (he.duties p hp)
  have hentries : (s.agenda.addAll e.duties).filter (fun duty => duty.space = space) =
      (s.agenda.filter fun duty => duty.space = space).addAll e.duties := by
    have hfilter := Agenda.filter_addAll (fun p => p.2.space = space) e.duties h
    rw [hduties] at hfilter
    exact congrArg Agenda.mk hfilter
  unfold only
  rw [historyOf_apply he]
  unfold apply
  dsimp only
  rw [hentries]

theorem only_apply_of_ne (h : Agenda.Sorted s.agenda.entries) {e : Effect α} (he : e.Within other)
    (hne : other ≠ space) (hd : e.debouncer.only space = s.debouncer.only space) :
    (s.apply e).only space = s.only space := by
  have hduties : e.duties.filter (fun p => p.2.space = space) = [] :=
    List.filter_eq_nil_iff.mpr fun p hp => by simpa [he.duties p hp] using hne
  have hentries : (s.agenda.addAll e.duties).filter (fun duty => duty.space = space) =
      s.agenda.filter fun duty => duty.space = space := by
    have hfilter := Agenda.filter_addAll (fun p => p.2.space = space) e.duties h
    rw [hduties] at hfilter
    exact congrArg Agenda.mk hfilter
  unfold only
  rw [historyOf_apply_of_ne he hne]
  unfold apply
  dsimp only
  rw [hentries, hd]

theorem only_ask (h : s.InOrder) (ack : α) :
    (s.ask space ack).only space = (s.only space).ask space ack := by
  unfold ask
  rw [only_apply h.sorted (ask_within s.now ack)]
  exact congrArg (s.only space).apply (ask_only s.now ack).symm

theorem only_ask_of_ne (h : s.InOrder) (hne : other ≠ space) (ack : α) :
    (s.ask other ack).only space = s.only space :=
  only_apply_of_ne h.sorted (ask_within s.now ack) hne (ask_only_of_ne hne s.now ack)

/-- A duty of the space is carried out as without other spaces. -/
theorem only_perform (hwork : ∀ n, work space n = work' space n) {rest : Agenda (Duty α)}
    (hsorted : Agenda.Sorted rest.entries) (hduty : duty.space = space) :
    (s.perform work rest time duty).only space =
      (s.only space).perform work' (rest.filter fun duty => duty.space = space) time duty := by
  subst hduty
  let moved : Reindexing α := { s with now := time, agenda := rest }
  have hcount : (moved.only duty.space).startCount duty.space = moved.startCount duty.space :=
    startCount_only
  have happly := only_apply (s := moved) hsorted (perform_within (d := moved.debouncer)
    (work duty.space (moved.startCount duty.space)) time duty)
  rw [← perform_only _ time rfl, hwork, ← hcount] at happly
  change (moved.apply (moved.debouncer.perform
    (work duty.space (moved.startCount duty.space)) time duty)).only duty.space = _
  rw [hwork, ← hcount, happly]
  rfl

/-- A duty of another space only lets the clock move on. -/
theorem only_perform_of_ne {rest : Agenda (Duty α)} (hsorted : Agenda.Sorted rest.entries)
    (hnext : s.agenda.entries = (time, duty) :: rest.entries) (hne : duty.space ≠ space) :
    (s.perform work rest time duty).only space =
      ({ s.only space with now := time } : Reindexing α) := by
  let moved : Reindexing α := { s with now := time, agenda := rest }
  have happly : (s.perform work rest time duty).only space = moved.only space :=
    only_apply_of_ne (s := moved) hsorted (perform_within ..) hne (perform_only_of_ne _ _ hne)
  have hagenda : rest.filter (fun duty => duty.space = space) =
      s.agenda.filter fun duty => duty.space = space := by
    unfold Agenda.filter
    rw [hnext, List.filter_cons, if_neg (by simpa using hne)]
  rw [happly]
  unfold only
  dsimp only [moved]
  rw [hagenda]
  rfl

/-- Where the clock stands does not matter for what is due, except after the last of it. -/
theorem runUntil_setNow (s : Reindexing α) (limit start stop : Nat) :
    ({ ({ s with now := start } : Reindexing α).runUntil work limit with now := stop }
      : Reindexing α) = { s.runUntil work limit with now := stop } := by
  cases hdue : s.agenda.due? limit with
  | none =>
    have hdue' : ({ s with now := start } : Reindexing α).agenda.due? limit = none := hdue
    rw [runUntil_of_none hdue, runUntil_of_none hdue']
  | some p =>
    obtain ⟨⟨time, duty⟩, rest⟩ := p
    have hdue' : ({ s with now := start } : Reindexing α).agenda.due? limit =
        some ((time, duty), rest) := hdue
    rw [runUntil_of_some hdue, runUntil_of_some hdue']
    rfl

/-- Up to the time on the clock, what is due is carried out as without other spaces. -/
theorem only_runUntil (h : s.InOrder) (hwork : ∀ n, work space n = work' space n) (stop : Nat) :
    ({ s.runUntil work limit with now := stop } : Reindexing α).only space =
      { (s.only space).runUntil work' limit with now := stop } := by
  fun_induction Reindexing.runUntil work limit s with
  | case1 s hdue =>
    have hlater := Agenda.lt_of_due?_eq_none h.sorted hdue
    have hnone : (s.only space).agenda.due? limit = none :=
      Agenda.due?_of_lt fun f hf => hlater f (List.mem_filter.mp hf).1
    rw [runUntil_of_none hnone]
    rfl
  | case2 s time duty rest hdue ih =>
    obtain ⟨hnext, htime⟩ := Agenda.due?_eq_some hdue
    have hsorted : Agenda.Sorted rest.entries := (h.next hnext).sorted
    rw [ih (h.perform hnext)]
    -- The duty is the first of the space too, or it is carried out in between.
    by_cases hduty : duty.space = space
    · have hfirst : (s.only space).agenda.entries =
          (time, duty) :: (rest.filter fun duty => duty.space = space).entries := by
        change s.agenda.entries.filter _ = _
        rw [hnext, List.filter_cons, if_pos (decide_eq_true hduty)]
        rfl
      rw [only_perform hwork hsorted hduty, runUntil_of_some (Agenda.due?_of_le hfirst htime)]
    · rw [only_perform_of_ne hsorted hnext hduty, runUntil_setNow]

theorem only_sleep (h : s.InOrder) (hwork : ∀ n, work space n = work' space n) (ms : Nat) :
    (s.sleep work ms).only space = (s.only space).sleep work' ms :=
  only_runUntil h hwork (s.now + ms)

theorem setNow_now (ht : t.now = time) : ({ t with now := time } : Reindexing α) = t := by
  subst ht
  rfl

theorem only_settle (h : s.InOrder) (hwork : ∀ n, work space n = work' space n) :
    (s.settle work).only space = (s.only space).settle work' := by
  have hrun : ({ s.runUntil work s.now with now := s.now } : Reindexing α).only space = _ :=
    only_runUntil h hwork s.now
  have hstill : ({ s.settle work with now := s.now } : Reindexing α) = s.settle work :=
    setNow_now h.now_settle
  have hstill' : ({ (s.only space).settle work' with now := s.now } : Reindexing α) =
      (s.only space).settle work' := setNow_now h.only.now_settle
  rw [← hstill, ← hstill']
  exact hrun

theorem only_cancel (s : Reindexing α) (space : SpaceId) :
    s.cancel.only space = (s.only space).cancel := by
  have hagenda : (s.agenda.filter Duty.isReindex).filter (fun duty => duty.space = space) =
      (s.agenda.filter fun duty => duty.space = space).filter Duty.isReindex := by
    unfold Agenda.filter
    rw [List.filter_filter, List.filter_filter]
    simp only [Bool.and_comm]
  unfold only
  rw [historyOf_cancel]
  unfold cancel
  dsimp only
  rw [hagenda]
  rfl

def Command.concerns (space : SpaceId) : Command α → Bool
  | .ask other _ => other = space
  | _ => true

/-- A script does to a space what it does without the requests for other spaces. -/
theorem only_run (h : s.InOrder) (hwork : ∀ n, work space n = work' space n)
    (script : List (Command α)) :
    (s.run work script).only space =
      (s.only space).run work' (script.filter (Command.concerns space)) := by
  induction script generalizing s with
  | nil => rfl
  | cons command script ih =>
    cases command with
    | ask other ack =>
      have hrest := ih (h.ask other ack)
      by_cases hs : other = space
      · subst hs
        have hconcerns : Command.concerns other (.ask other ack) = true := decide_eq_true rfl
        rw [only_ask h] at hrest
        rw [List.filter_cons, if_pos hconcerns]
        exact hrest
      · rw [only_ask_of_ne h hs] at hrest
        rw [List.filter_cons, if_neg (by simpa [Command.concerns] using hs)]
        exact hrest
    | settle =>
      have horder : (s.settle work).InOrder := h.settle
      have hrest := ih horder
      rw [only_settle h hwork] at hrest
      exact hrest
    | sleep ms =>
      have horder : (s.sleep work ms).InOrder := h.sleep ms
      have hrest := ih horder
      rw [only_sleep h hwork] at hrest
      exact hrest
    | cancel =>
      have hrest := ih h.cancel
      rw [only_cancel] at hrest
      exact hrest

theorem space?_of_mem_notes {h : Happening α} {n : SpaceId × Note α} (hn : n ∈ h.notes) :
    h.space? = some n.1 := by
  cases h with
  | started other acks =>
    obtain rfl := List.mem_singleton.mp hn
    rfl
  | ended other acks =>
    rcases List.mem_cons.mp hn with rfl | hn
    · rfl
    · obtain ⟨ack, -, rfl⟩ := List.mem_map.mp hn
      rfl
  | _ => exact absurd hn List.not_mem_nil

theorem filter_notes (time : Nat) (h : Happening α) (space : SpaceId) :
    (h.notes.map fun n => (time, n.1, n.2)).filter (fun e => e.2.1 = space) =
      if h.concerns space then h.notes.map fun n => (time, n.1, n.2) else [] := by
  have hspace : ∀ n ∈ h.notes, h.concerns space = decide (n.1 = space) := by
    intro n hn
    rw [Happening.concerns, space?_of_mem_notes hn]
    rfl
  split
  · rename_i hs
    apply List.filter_eq_self.mpr
    intro p hp
    obtain ⟨n, hn, rfl⟩ := List.mem_map.mp hp
    exact (hspace n hn).symm.trans hs
  · rename_i hs
    apply List.filter_eq_nil_iff.mpr
    intro p hp
    obtain ⟨n, hn, rfl⟩ := List.mem_map.mp hp
    rwa [hspace n hn] at hs

/-- Others see of the space alone what they see of it among the others. -/
theorem log_only (s : Reindexing α) (space : SpaceId) :
    (s.only space).log = s.log.filter fun e => e.2.1 = space := by
  unfold only log historyOf
  dsimp only
  induction s.history with
  | nil => rfl
  | cons e history ih =>
    rw [List.flatMap_cons, List.filter_append, ← ih, List.filter_cons, filter_notes]
    split <;> rfl

/-- What others see of a space, and what it loses, does not depend on the requests for other
spaces. The order of a script is that of its operations: what is due by the end of a sleep has its
turn before the operation that follows, and a timer that is left when a cancellation comes, even for
the same instant, learns of it and does not fire. -/
theorem spaces_do_not_interfere (hwork : ∀ n, work space n = work' space n) (after maxWait : Nat)
    (script : List (Command α)) :
    let s := (ofTimes after maxWait).run work script
    let alone := (ofTimes after maxWait).run work' (script.filter (Command.concerns space))
    s.log.filter (fun e => e.2.1 = space) = alone.log ∧
      s.historyOf space = alone.history ∧
      lostIn (s.historyOf space) = lostIn alone.history := by
  intro s alone
  have honly : s.only space = alone := only_run inOrder_start hwork script
  have hhistory : s.historyOf space = alone.history := congrArg history honly
  exact ⟨(log_only s space).symm.trans (congrArg log honly), hhistory, congrArg lostIn hhistory⟩

theorem spaces_do_not_interfere_with_slow_neighbour :
    let space : SpaceId := ⟨"", "a"⟩
    let work : SpaceId → Nat → Nat := fun other _ => if other = space then 3 else 7
    let work' : SpaceId → Nat → Nat := fun _ _ => 3
    let script : List (Command Nat) := [.ask ⟨"", "b"⟩ 0, .ask space 1, .sleep 2]
    let s := (ofTimes 2 2).run work script
    let alone := (ofTimes 2 2).run work' [.ask space 1, .sleep 2]
    (∀ n, work space n = work' space n) ∧
      alone.history = [(0, .asked space 1), (2, .started space [1])] ∧
      s.log.filter (fun e => e.2.1 = space) = alone.log ∧ s.historyOf space = alone.history ∧
      lostIn (s.historyOf space) = lostIn alone.history := by
  intro space work work' script s alone
  have hwork : ∀ n, work space n = work' space n := fun _ => if_pos rfl
  refine ⟨hwork, ?_, spaces_do_not_interfere hwork 2 2 script⟩
  change (((ofTimes 2 2).ask space 1).runUntil work' 2).history = _
  rw [runUntil_of_some rfl, runUntil_of_some rfl, runUntil_of_none rfl]
  rfl

end ResourceIndex.Reindexing
