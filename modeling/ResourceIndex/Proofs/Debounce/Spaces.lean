import ResourceIndex.Debounce.Schedule
/-
A debouncer as one of its spaces sees it. A request or a duty changes nothing for another space,
and for its own space it does what it does to a debouncer that knows of no other.
-/
namespace ResourceIndex

namespace Debouncer

variable {α : Type}

/-- The space to which it happens; a cancellation happens to all of them. -/
def Happening.space? : Happening α → Option SpaceId
  | .asked space _ | .refused space _ | .postponed space | .started space _ | .ended space _
  | .dropped space _ => some space
  | .cancelled => none

def Happening.concerns (space : SpaceId) (h : Happening α) : Bool := h.space?.all (· = space)

theorem Happening.concerns_of_isStartOf {space : SpaceId} {h : Happening α}
    (hs : h.isStartOf space = true) : h.concerns space = true := by
  cases h <;> simp_all [isStartOf, concerns, space?]

/-- The debouncer as far as it concerns a space. -/
def only (space : SpaceId) (d : Debouncer α) : Debouncer α := { d with
  bursts := d.bursts.filter fun p => p.1 = space
  inProgress := d.inProgress.filter fun s => s = space }

variable {d : Debouncer α} {space other : SpaceId}

theorem lookup_filter {β : Type} (l : List (SpaceId × β)) :
    (l.filter fun p => p.1 = space).lookup space = l.lookup space := by
  induction l with
  | nil => rfl
  | cons p l ih =>
    obtain ⟨s, x⟩ := p
    by_cases h : s = space
    · simp [h]
    · have hne : (space == s) = false := beq_eq_false_iff_ne.mpr (Ne.symm h)
      simp [h, List.lookup_cons, hne, ih]

theorem waiting_of_burst? {b : Burst α} (h : d.burst? space = some b) :
    d.waiting space = b.acks := by
  rw [waiting, h]
  rfl

@[simp] theorem burst?_only : (d.only space).burst? space = d.burst? space :=
  lookup_filter d.bursts

@[simp] theorem isBusy_only : (d.only space).isBusy space = d.isBusy space := by
  simp [isBusy, only]

theorem only_replace (b : Burst α) :
    (d.replace space b).only space = (d.only space).replace space b := by
  unfold replace only
  congr 1
  rw [List.filter_map]
  congr 1
  apply List.filter_congr
  intro p _
  by_cases h : p.1 = space <;> simp [h]

theorem only_replace_of_ne (h : other ≠ space) (b : Burst α) :
    (d.replace other b).only space = d.only space := by
  have hl : ∀ l : List (SpaceId × Burst α),
      (l.map fun p => if p.1 = other then (other, b) else p).filter (fun p => p.1 = space) =
        l.filter fun p => p.1 = space := by
    intro l
    induction l with
    | nil => rfl
    | cons p l ih =>
      by_cases hp : p.1 = other
      · simp [hp, h, ih]
      · simp [hp, List.filter_cons, ih]
  unfold replace only
  congr 1
  exact hl d.bursts

theorem only_without : (d.without space).only space = (d.only space).without space := by
  unfold without only
  congr 1
  rw [List.filter_filter, List.filter_filter]
  simp only [Bool.and_comm]

theorem only_without_of_ne (h : other ≠ space) : (d.without other).only space = d.only space := by
  unfold without only
  congr 1
  rw [List.filter_filter]
  apply List.filter_congr
  intro p _
  by_cases hp : p.1 = space <;> simp [hp, Ne.symm h]

theorem only_finish : (d.finish space).only space = (d.only space).finish space := by
  unfold finish only
  congr 1
  rw [List.filter_filter, List.filter_filter]
  simp only [Bool.and_comm]

theorem only_finish_of_ne (h : other ≠ space) : (d.finish other).only space = d.only space := by
  unfold finish only
  congr 1
  rw [List.filter_filter]
  apply List.filter_congr
  intro s _
  by_cases hs : s = space <;> simp [hs, Ne.symm h]

theorem only_start : (d.start space).only space = (d.only space).start space := by
  have hb : ((d.without space).only space).bursts = ((d.only space).without space).bursts :=
    congrArg bursts only_without
  unfold start only at *
  congr 1
  simp

theorem only_start_of_ne (h : other ≠ space) : (d.start other).only space = d.only space := by
  have hb := congrArg bursts (only_without_of_ne (d := d) h)
  unfold start only at *
  congr 1
  simp [h]

theorem only_arm (now : Nat) (ack : α) :
    (d.arm now space ack).only space = (d.only space).arm now space ack := by
  simp [arm, only]

theorem only_arm_of_ne (h : other ≠ space) (now : Nat) (ack : α) :
    (d.arm now other ack).only space = d.only space := by
  simp [arm, only, h]

theorem request_only (now : Nat) (ack : α) :
    (d.only space).request now space ack =
      ((d.request now space ack).1, (d.request now space ack).2.only space) := by
  unfold request
  rw [burst?_only]
  change (if d.cancelled = true then _ else _) = _
  split
  · rfl
  · cases d.burst? space with
    | none => exact congrArg (Prod.mk true) (only_arm now ack).symm
    | some b => exact congrArg (Prod.mk false) (only_replace _).symm

theorem request_only_of_ne (h : other ≠ space) (now : Nat) (ack : α) :
    (d.request now other ack).2.only space = d.only space := by
  unfold request
  split
  · rfl
  · cases d.burst? other with
    | none => exact only_arm_of_ne h now ack
    | some b => exact only_replace_of_ne h _

theorem wake_only (now : Nat) :
    (d.only space).wake now space = ((d.wake now space).1, (d.wake now space).2.only space) := by
  unfold wake
  rw [burst?_only, isBusy_only]
  cases d.burst? space with
  | none => rfl
  | some b =>
    dsimp only
    split
    · rfl
    · split
      · exact congrArg (Prod.mk _) (only_replace _).symm
      · exact congrArg (Prod.mk _) only_start.symm

theorem wake_only_of_ne (h : other ≠ space) (now : Nat) :
    (d.wake now other).2.only space = d.only space := by
  unfold wake
  cases d.burst? other with
  | none => rfl
  | some b =>
    dsimp only
    split
    · rfl
    · split
      · exact only_replace_of_ne h _
      · exact only_start_of_ne h

theorem bursts_only_without : ((d.without space).only space).bursts = [] := by
  apply List.filter_eq_nil_iff.mpr
  intro p hp
  have hne := (List.mem_filter.mp hp).2
  simpa using hne

theorem inProgress_only_finish : ((d.finish space).only space).inProgress = [] := by
  apply List.filter_eq_nil_iff.mpr
  intro x hx
  have hne := (List.mem_filter.mp hx).2
  simpa using hne

@[simp] theorem burst?_without : (d.without space).burst? space = none := by
  rw [← burst?_only, burst?, bursts_only_without]
  rfl

@[simp] theorem isBusy_finish : (d.finish space).isBusy space = false := by
  rw [← isBusy_only, isBusy, inProgress_only_finish]
  rfl

/-- A request is the same for the space it is made for, whatever other spaces there are. -/
theorem ask_only (now : Nat) (ack : α) :
    (d.only space).ask now space ack =
      { d.ask now space ack with debouncer := (d.ask now space ack).debouncer.only space } := by
  have hr : (d.only space).reception space ack = d.reception space ack := rfl
  unfold ask
  rw [request_only, hr]
  cases d.request now space ack with
  | mk first d' => cases first <;> rfl

theorem ask_only_of_ne (h : other ≠ space) (now : Nat) (ack : α) :
    (d.ask now other ack).debouncer.only space = d.only space := by
  have hr := request_only_of_ne (d := d) h now ack
  unfold ask
  revert hr
  cases d.request now other ack with
  | mk first d' => cases first <;> exact id

theorem perform_only (work now : Nat) {duty : Duty α} (h : duty.space = space) :
    (d.only space).perform work now duty =
      { d.perform work now duty with
        debouncer := (d.perform work now duty).debouncer.only space } := by
  subst h
  cases duty with
  | reindex s acks =>
    unfold perform
    dsimp only [Duty.space]
    rw [only_finish]
  | timer s =>
    unfold perform
    dsimp only [Duty.space]
    rw [wake_only]
    cases d.wake now s with
    | mk w d' =>
      cases w with
      | fire acks =>
        dsimp only
        split
        · rw [only_finish]
        · rfl
      | _ => rfl

theorem perform_only_of_ne (work now : Nat) {duty : Duty α} (h : duty.space ≠ space) :
    (d.perform work now duty).debouncer.only space = d.only space := by
  cases duty with
  | reindex s acks => exact only_finish_of_ne h
  | timer s =>
    have hw := wake_only_of_ne (d := d) h now
    unfold perform
    dsimp only [Duty.space] at hw ⊢
    revert hw
    cases d.wake now s with
    | mk w d' =>
      cases w with
      | fire acks =>
        dsimp only
        split
        · exact (only_finish_of_ne h).trans
        · exact id
      | _ => exact id

/-- All that comes of it concerns one space. -/
structure Effect.Within (e : Effect α) (space : SpaceId) : Prop where
  duties : ∀ p ∈ e.duties, p.2.space = space
  happenings : ∀ h ∈ e.happenings, h.space? = some space

theorem ask_within (now : Nat) (ack : α) : (d.ask now space ack).Within space := by
  have hr : (d.reception space ack).space? = some space := by
    unfold reception
    split <;> rfl
  unfold ask
  cases d.request now space ack with
  | mk first d' => cases first <;> exact ⟨by simp [Duty.space], by simp [hr]⟩

theorem perform_within (work now : Nat) (duty : Duty α) :
    (d.perform work now duty).Within duty.space := by
  cases duty with
  | reindex s acks => exact ⟨by simp [perform], by simp [perform, Happening.space?, Duty.space]⟩
  | timer s =>
    unfold perform
    dsimp only [Duty.space]
    cases d.wake now s with
    | mk w d' =>
      cases w with
      | fire acks =>
        dsimp only
        split <;> exact ⟨by simp [Duty.space], by simp [Happening.space?]⟩
      | _ => exact ⟨by simp [Duty.space], by simp [Happening.space?]⟩

end Debouncer
end ResourceIndex
