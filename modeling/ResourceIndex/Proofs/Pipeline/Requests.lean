import Mathlib.Data.List.Flatten
import Mathlib.Data.List.Nodup
import ResourceIndex.Proofs.Debounce.Ledger
import ResourceIndex.Proofs.Pipeline.Events
/-
What workers ask of the debouncer. An event is asked for at most once, after its call, and so the
account of the requests of a space says where each of its events is.
-/
namespace ResourceIndex.Pipeline

open Debouncer (takenIn refusedIn madeIn ackedIn lostIn)

variable {w : Workload} {p q : Pipeline} {hs : List Happening} {n : Nat} {e : ChangeEvent}
  {punctual : Prop} {events : Nat → ChangeEvent} {asyncUploads gone : Bool} {space : SpaceId}
  {history new : List (Nat × Happening)}

/-- What is read off the history of the debouncer. -/
theorem flatMap_reindexing {β : Type} (f : Debouncer.Happening Nat → List β) (p : Pipeline) :
    p.reindexing.history.flatMap (fun e => f e.2) =
      p.history.flatMap fun e => e.2.deferred?.elim [] f := by
  unfold reindexing
  induction p.history with
  | nil => rfl
  | cons e history ih =>
    obtain ⟨time, h⟩ := e
    cases h with
    | deferred h => exact congrArg (f h ++ ·) ih
    | _ => exact ih

theorem count_made (h : Happening) (n : Nat) :
    (h.deferred?.elim [] Debouncer.Happening.made).count n =
      if h.place? = some n ∧ h.deferred?.isSome = true then 1 else 0 := by
  cases h with
  | deferred h => cases h <;> simp [Happening.place?, Happening.deferred?, List.count_cons]
  | _ => simp [Happening.deferred?]

/-- A request is made by the worker that is at the event. -/
theorem count_requests (p : Pipeline) (n : Nat) :
    (madeIn p.reindexing.history).count n =
      (p.doings n).countP fun e => e.2.deferred?.isSome := by
  rw [madeIn, flatMap_reindexing]
  unfold doings
  induction p.history with
  | nil => rfl
  | cons e history ih =>
    rw [List.flatMap_cons, List.count_append, count_made, ih, List.filter_cons]
    by_cases hn : e.2.place? = some n
    · by_cases hd : e.2.deferred?.isSome = true
      · simp [hn, hd, Nat.add_comm]
      · simp [hn, hd]
    · simp [hn]

def Happening.isAck : Happening → Bool
  | .acked _ => true
  | _ => false

/-- Of what a worker does with an event at most the last is an acknowledgement or a request. -/
theorem Handled.closes_le {doings : List (Nat × Happening)}
    (h : Handled w asyncUploads n e doings) :
    doings.countP (fun e => e.2.isAck || e.2.deferred?.isSome) ≤ 1 := by
  have hlast : ∀ x : Nat × Happening,
      [x].countP (fun e => e.2.isAck || e.2.deferred?.isSome) ≤ 1 :=
    fun _ => List.countP_le_length
  cases h with
  | skipped => exact Nat.le_refl 1
  | uncalled => exact hlast _
  | called => exact hlast _

theorem Stage.closes_le {v : View} (h : Stage w asyncUploads gone n e v) :
    v.doings.countP (fun e => e.2.isAck || e.2.deferred?.isSome) ≤ 1 := by
  cases h with
  | handled h => exact h.closes_le
  | _ => exact Nat.zero_le 1

/-- An event is asked for when all else is done with it. -/
structure AskedLast (w : Workload) (asyncUploads : Bool) (n : Nat) (e : ChangeEvent)
    (space : SpaceId) (front : List (Nat × Happening)) : Prop where
  space : space = e.space
  subscribed : e.isSubscribed asyncUploads = true
  isPurge : e.isPurge = false
  quiet : ∀ x ∈ front, x.2.deferred? = none
  returned : ∀ call, e.call? = some call →
    ∃ time, (time, .returned n call (w.callResult n call)) ∈ front

theorem Closes.asked_inv {last : Happening} (h : Closes n e last)
    (ha : last = .deferred (.asked space n)) : space = e.space ∧ e.isPurge = false := by
  cases h with
  | purged => cases ha
  | asked hp =>
    cases ha
    exact ⟨rfl, hp⟩
  | refused => cases ha

theorem Handled.asked {doings : List (Nat × Happening)} {time : Nat}
    (h : Handled w asyncUploads n e doings)
    (ha : (time, .deferred (.asked space n)) ∈ doings) :
    ∃ front, doings = front ++ [(time, .deferred (.asked space n))] ∧
      AskedLast w asyncUploads n e space front := by
  cases h with
  | skipped => simp at ha
  | uncalled worker since hs hc hl =>
    obtain ⟨rfl, hlast⟩ : time = since ∧ _ = _ := by simpa using ha
    obtain ⟨hspace, hpurge⟩ := hl.asked_inv hlast.symm
    exact ⟨[(time, .taken worker n)], by rw [hlast]; rfl, hspace, hs, hpurge,
      by simp [Happening.deferred?], by simp [hc]⟩
  | called worker since later hs hc hl =>
    obtain ⟨rfl, hlast⟩ : time = later ∧ _ = _ := by simpa using ha
    obtain ⟨hspace, hpurge⟩ := hl.asked_inv hlast.symm
    refine ⟨[(since, .taken worker n), (since, .called n _), (time, .returned n _ _)],
      by rw [hlast]; rfl, hspace, hs, hpurge, by simp [Happening.deferred?], ?_⟩
    intro call hcall
    cases hc.symm.trans hcall
    exact ⟨time, by simp⟩

theorem Stage.asked {v : View} {time : Nat} (h : Stage w asyncUploads gone n e v)
    (ha : (time, .deferred (.asked space n)) ∈ v.doings) :
    ∃ front, v.doings = front ++ [(time, .deferred (.asked space n))] ∧
      AskedLast w asyncUploads n e space front := by
  cases h with
  | handled h => exact h.asked ha
  | _ => simp at ha

theorem mem_history_reindexing {time : Nat} {h : Debouncer.Happening Nat} :
    (time, h) ∈ p.reindexing.history ↔ (time, .deferred h) ∈ p.history := by
  constructor
  · intro hmem
    obtain ⟨⟨t, x⟩, hx, hsome⟩ := List.mem_filterMap.mp hmem
    cases x with
    | deferred y =>
      cases hsome
      exact hx
    | _ => cases hsome
  · exact fun hmem => List.mem_filterMap.mpr ⟨_, hmem, rfl⟩

theorem mem_doings {time : Nat} {h : Happening} :
    (time, h) ∈ p.doings n ↔ (time, h) ∈ p.history ∧ h.place? = some n := by
  unfold doings
  rw [List.mem_filter, decide_eq_true_iff]

/-- The requests that are taken for a space are the events that it was asked for. -/
theorem mem_takenIn : n ∈ takenIn (p.reindexing.historyOf space) ↔
    ∃ time, (time, .deferred (.asked space n)) ∈ p.doings n := by
  constructor
  · intro hmem
    obtain ⟨⟨time, h⟩, hin, htaken⟩ := List.mem_flatMap.mp hmem
    obtain ⟨hhistory, hspace⟩ := List.mem_filter.mp hin
    cases h with
    | asked other m =>
      obtain rfl := List.mem_singleton.mp htaken
      obtain rfl : other = space := by
        simpa [Debouncer.Happening.concerns, Debouncer.Happening.space?] using hspace
      exact ⟨time, mem_doings.mpr ⟨mem_history_reindexing.mp hhistory, rfl⟩⟩
    | _ => exact absurd htaken List.not_mem_nil
  · rintro ⟨time, hmem⟩
    refine List.mem_flatMap.mpr ⟨(time, .asked space n), ?_, List.mem_singleton.mpr rfl⟩
    refine List.mem_filter.mpr ⟨mem_history_reindexing.mpr (mem_doings.mp hmem).1, ?_⟩
    simp [Debouncer.Happening.concerns, Debouncer.Happening.space?]

section

variable {s : EventSettings} {capacity : Nat}

theorem Reached.madeIn_nodup (h : Reached punctual w events s capacity p) (space : SpaceId) :
    (madeIn (p.reindexing.historyOf space)).Nodup := by
  have hall : (madeIn p.reindexing.history).Nodup := by
    apply List.nodup_iff_count_le_one.mpr
    intro n
    rw [count_requests]
    refine Nat.le_trans (List.countP_mono_left fun e _ hd => ?_) (h.stage n).closes_le
    rw [hd, Bool.or_true]
  have hsub : (p.reindexing.historyOf space).Sublist p.reindexing.history := List.filter_sublist
  exact hall.sublist (hsub.flatMap _)

/-- What is known of the requests of a space. -/
structure Account (p : Pipeline) (space : SpaceId) : Prop where
  cancelled : p.closed = true ↔ Debouncer.Cancelled (p.reindexing.historyOf space)
  waiting : p.debouncer.waiting space = takenIn (Debouncer.current (p.reindexing.historyOf space))
  running : p.reindexing.runningOf space =
    (Debouncer.carriedIn (p.reindexing.historyOf space)).toList
  lawful : Debouncer.Throughout Debouncer.Lawful (p.reindexing.historyOf space)
  ledger : takenIn (p.reindexing.historyOf space) =
    ackedIn (p.reindexing.historyOf space) ++ (p.reindexing.runningOf space).flatten ++
      p.debouncer.waiting space ++ lostIn (p.reindexing.historyOf space)
  nodup : (takenIn (p.reindexing.historyOf space)).Nodup

theorem Reached.account (h : Reached punctual w events s capacity p) (space : SpaceId) :
    p.Account space := by
  obtain ⟨c, hleads, hc⟩ := h.reindexing.course space
  have hmade := (Debouncer.madeIn_perm _).nodup_iff.mp (h.madeIn_nodup space)
  exact {
    cancelled := h.closed_eq ▸ hc.cancelled_iff hleads.accounted
    waiting := hc.waiting_eq hleads.accounted
    running := hc.running_eq hleads.accounted
    lawful := hc.lawful hleads.accounted
    ledger := Reindexing.ackedOf_eq_ackedIn p.reindexing space ▸ hc.ledger hleads.accounted
    nodup := (List.nodup_append.mp hmade).1 }

theorem Account.acked_sub (h : p.Account space) (hn : n ∈ ackedIn (p.reindexing.historyOf space)) :
    n ∈ takenIn (p.reindexing.historyOf space) := by
  rw [h.ledger, List.append_assoc, List.append_assoc]
  exact List.mem_append_left _ hn

/-- What the debouncer sees of a history for a space. -/
def Happening.concerning? (space : SpaceId) (e : Nat × Happening) :
    Option (Nat × Debouncer.Happening Nat) :=
  (e.2.deferred?.map fun h => (e.1, h)).filter fun x => x.2.concerns space

theorem historyOf_reindexing (p : Pipeline) (space : SpaceId) :
    p.reindexing.historyOf space = p.history.filterMap (Happening.concerning? space) :=
  List.filter_filterMap

theorem concerning?_eq_some {x : Nat × Happening} {time : Nat} {h : Debouncer.Happening Nat} :
    Happening.concerning? space x = some (time, h) ↔
      x = (time, .deferred h) ∧ h.concerns space = true := by
  obtain ⟨t, x⟩ := x
  cases x with
  | deferred y =>
    simp only [Happening.concerning?, Happening.deferred?, Option.map_some,
      Option.filter_eq_some_iff]
    constructor
    · rintro ⟨hsome, hc⟩
      cases hsome
      exact ⟨rfl, hc⟩
    · rintro ⟨heq, hc⟩
      cases heq
      exact ⟨rfl, hc⟩
  | _ => exact iff_of_false nofun nofun

theorem exists_split {α β : Type} {f : α → Option β} {l : List α} {before behind : List β} {y : β}
    (h : l.filterMap f = before ++ y :: behind) : ∃ l₁ x l₂, l = l₁ ++ x :: l₂ ∧ f x = some y ∧
      l₁.filterMap f = before ∧ l₂.filterMap f = behind := by
  obtain ⟨l₁, l', rfl, hbefore, hl'⟩ := List.filterMap_eq_append_iff.mp h
  obtain ⟨l₁', x, l₂, rfl, hnone, hx, hbehind⟩ := List.filterMap_eq_cons_iff.mp hl'
  refine ⟨l₁ ++ l₁', x, l₂, by simp, hx, ?_, hbehind⟩
  rw [List.filterMap_append, List.filterMap_eq_nil_iff.mpr hnone, hbefore, List.append_nil]

/-- What stands before the only request. -/
theorem eq_of_append_cons {α : Type} {before behind front : List α} {x : α}
    (h : before ++ x :: behind = front ++ [x]) (hx : x ∉ front) : before = front := by
  rcases List.append_eq_append_iff.mp h with ⟨l, rfl, hl⟩ | ⟨l, rfl, hl⟩
  · cases l with
    | nil => exact (List.append_nil _).symm
    | cons y l =>
      obtain rfl : x = y := (List.cons.inj hl).1
      exact absurd (List.mem_append_right _ List.mem_cons_self) hx
  · cases l with
    | nil => exact List.append_nil _
    | cons y l => exact absurd (congrArg List.length hl) (by simp)

def Happening.isEnd : Happening → Bool
  | .deferred (.ended ..) => true
  | _ => false

/-- Whenever a reindex ends, it has just come back. -/
def Returns (history : List (Nat × Happening)) : Prop :=
  ∀ before time space places behind,
    history = before ++ (time, .deferred (.ended space places)) :: behind →
      ∃ since result, before = since ++ [(time, .reindexed space result)]

theorem Returns.append (h : Returns history) (hn : ∀ x ∈ new, x.2.isEnd = false) :
    Returns (history ++ new) := by
  intro before time space places behind hsplit
  have hnot : (time, Happening.deferred (.ended space places)) ∉ new := fun hmem =>
    absurd (hn _ hmem) nofun
  rcases List.append_eq_append_iff.mp hsplit with ⟨l, rfl, hl⟩ | ⟨l, hl, hnew⟩
  · exact absurd (hl ▸ List.mem_append_right l List.mem_cons_self) hnot
  · cases l with
    | nil =>
      rw [List.nil_append] at hnew
      exact absurd (hnew ▸ List.mem_cons_self) hnot
    | cons x l =>
      obtain ⟨rfl, -⟩ := List.cons.inj hnew
      exact h before time space places l hl

theorem Returns.hear (h : Returns p.history) (x : Debouncer.Happening Nat) :
    Returns (p.hear w x).history := by
  cases x with
  | ended space places =>
    have hback : Returns (p.history ++ [(p.now, .reindexed space
        (w.reindexResult space (p.startCount space - 1)))]) :=
      h.append (List.forall_mem_singleton.mpr rfl)
    intro before time other others behind hsplit
    rcases List.eq_nil_or_concat behind with rfl | ⟨behind, y, rfl⟩
    · obtain ⟨rfl, hlast⟩ := List.append_inj' hsplit rfl
      cases hlast
      exact ⟨p.history, _, rfl⟩
    · rw [List.concat_eq_append, ← List.cons_append, ← List.append_assoc] at hsplit
      exact hback before time other others behind (List.append_inj' hsplit rfl).1
  | _ => exact h.append (List.forall_mem_singleton.mpr rfl)

theorem Returns.adds (h : Returns p.history) (ha : Adds p hs q)
    (hn : ∀ x ∈ hs, x.isEnd = false) : Returns q.history := by
  rw [ha.history]
  refine h.append fun x hx => ?_
  obtain ⟨y, hy, rfl⟩ := List.mem_map.mp hx
  exact hn y hy

theorem Returns.apply (h : Returns p.history) (e : Debouncer.Effect Nat) :
    Returns (p.apply w e).history := by
  have hall : ∀ (happenings : List (Debouncer.Happening Nat)) (p : Pipeline),
      Returns p.history → Returns (happenings.foldl (Pipeline.hear w) p).history := by
    intro happenings
    induction happenings with
    | nil => exact fun _ h => h
    | cons x rest ih => exact fun p h => ih _ (h.hear x)
  exact hall e.happenings _ h

theorem isEnd_of_place? {x : Happening} (h : x.place? = some n) : x.isEnd = false := by
  cases x with
  | deferred y =>
    cases y with
    | ended => cases h
    | _ => rfl
  | _ => rfl

theorem Returns.step (h : Returns p.history) (hst : Step punctual w events p q) :
    Returns q.history := by
  cases hst with
  | @take worker place event rest =>
    obtain ⟨hs, hadds, hplace⟩ := adds_process w (p.withQueue rest) worker ⟨place, event⟩
    exact Returns.adds (p := p.withQueue rest) h hadds fun x hx => isEnd_of_place? (hplace x hx)
  | @endCall time worker taken call rest =>
    refine Returns.adds (p := p.withAgenda rest) h (adds_release _ worker taken call) ?_
    exact List.forall_mem_cons.mpr ⟨rfl, List.forall_mem_singleton.mpr
      (isEnd_of_place? (place?_closing _ taken))⟩
  | carryOut => exact Returns.apply (by exact h) _
  | stop => exact h.append (List.forall_mem_singleton.mpr rfl)
  | drop => exact h.append (List.forall_mem_singleton.mpr rfl)
  | _ => exact h

theorem Reached.returns {s : EventSettings} {capacity : Nat}
    (h : Reached punctual w events s capacity p) : Returns p.history := by
  induction h with
  | refl => exact fun before _ _ _ _ hsplit => absurd hsplit.symm (by simp [Pipeline.ofSettings])
  | tail _ hst ih => exact ih.step hst

theorem exists_concat {α : Type} {before behind front : List α} {x y : α}
    (h : before ++ x :: behind = front ++ [y]) (hne : x ≠ y) : ∃ l, behind = l ++ [y] := by
  rcases List.eq_nil_or_concat behind with rfl | ⟨l, z, rfl⟩
  · exact absurd (List.cons.inj (List.append_inj' h rfl).2).1 hne
  · rw [List.concat_eq_append, ← List.cons_append, ← List.append_assoc] at h
    obtain ⟨rfl, -⟩ := List.cons.inj (List.append_inj' h rfl).2
    exact ⟨l, List.concat_eq_append⟩

/-- A reindex ends that the event was asked for before. It has started after the request, which was
made after the call of the event was back, and is back itself. -/
def Served (w : Workload) (before : List (Nat × Happening)) (places : List Nat) (n : Nat)
    (e : ChangeEvent) (time : Nat) : Prop :=
  ∃ h₁ t₁ h₂ t₂ h₃ result,
    before = h₁ ++ (t₁, .deferred (.asked e.space n)) :: h₂ ++
      (t₂, .deferred (.started e.space places)) :: h₃ ++ [(time, .reindexed e.space result)] ∧
    t₁ ≤ t₂ ∧ t₂ ≤ time ∧
    (∀ call, e.call? = some call → ∃ t, (t, .returned n call (w.callResult n call)) ∈ h₁) ∧
    ∀ t places', (t, .deferred (.started e.space places')) ∉ h₃ ∧
      (t, .deferred (.ended e.space places')) ∉ h₃

theorem concerning?_of_mem {time : Nat} {h : Debouncer.Happening Nat}
    (hm : (time, .deferred h) ∈ history) (hc : h.space? = some space) :
    (time, h) ∈ history.filterMap (Happening.concerning? space) := by
  have hconcerns : h.concerns space = true := by simp [Debouncer.Happening.concerns, hc]
  exact List.mem_filterMap.mpr ⟨_, hm, concerning?_eq_some.mpr ⟨rfl, hconcerns⟩⟩

/-- What a worker has done with an event that is asked for, it has done before. -/
theorem Reached.asked_last (h : Reached punctual w events s capacity p)
    {before behind : List (Nat × Happening)} {time : Nat}
    (hsplit : p.history = before ++ (time, .deferred (.asked space n)) :: behind) :
    AskedLast w p.asyncUploads n (events n) space
      (before.filter fun e => e.2.place? = some n) := by
  have hasked : (time, .deferred (.asked space n)) ∈ p.doings n := by
    refine mem_doings.mpr ⟨?_, rfl⟩
    rw [hsplit]
    exact List.mem_append_right _ List.mem_cons_self
  obtain ⟨front, hdoings, hlast⟩ := (h.stage n).asked hasked
  have hnot : (time, .deferred (.asked space n)) ∉ front := by
    intro hm
    exact absurd (hlast.quiet _ hm) nofun
  change p.doings n = _ at hdoings
  rw [doings, hsplit, List.filter_append, List.filter_cons_of_pos (by simp [Happening.place?])]
    at hdoings
  rwa [eq_of_append_cons hdoings hnot]

theorem Reached.served (h : Reached punctual w events s capacity p)
    {before behind : List (Nat × Happening)} {time : Nat} {places : List Nat}
    (hsplit : p.history = before ++ (time, .deferred (.ended space places)) :: behind)
    (hn : n ∈ places) :
    space = (events n).space ∧ Served w before places n (events n) time := by
  have hconcerns : (Debouncer.Happening.ended space places).concerns space = true := by
    simp [Debouncer.Happening.concerns, Debouncer.Happening.space?]
  have hends : Happening.concerning? space (time, .deferred (.ended space places)) =
      some (time, .ended space places) := concerning?_eq_some.mpr ⟨rfl, hconcerns⟩
  have hlawful := (h.account space).lawful
  rw [historyOf_reindexing, hsplit, List.filterMap_append, List.filterMap_cons_some hends]
    at hlawful
  have hconcerns : ∀ e ∈ before.filterMap (Happening.concerning? space),
      e.2.concerns space = true := by
    intro e he
    obtain ⟨x, -, hx⟩ := List.mem_filterMap.mp he
    exact (concerning?_eq_some.mp hx).2
  obtain ⟨h₁, t₁, h₂, t₂, h₃, hbefore, ht₁, ht₂, -, hquiet⟩ :=
    Reindexing.served_of_lawful hlawful hconcerns hn
  -- The account of the space is found again in the history of the pipeline.
  obtain ⟨f, x₂, f₃, rfl, hx₂, hfront, hf₃⟩ := exists_split hbefore
  obtain ⟨f₁, x₁, f₂, rfl, hx₁, -, -⟩ := exists_split hfront
  obtain ⟨rfl, -⟩ := concerning?_eq_some.mp hx₂
  obtain ⟨rfl, -⟩ := concerning?_eq_some.mp hx₁
  have hlast := h.asked_last (by simpa using hsplit)
  obtain ⟨since, result, hback⟩ := h.returns _ _ _ _ _ hsplit
  obtain ⟨f₃, rfl⟩ := exists_concat hback (by simp)
  obtain rfl := hlast.space
  refine ⟨rfl, f₁, t₁, f₂, t₂, f₃, result, by simp, ht₁, ht₂, ?_, ?_⟩
  · intro call hcall
    obtain ⟨t, ht⟩ := hlast.returned call hcall
    exact ⟨t, (List.mem_filter.mp ht).1⟩
  · have hnone : ∀ t y, y.space? = some (events n).space →
        (t, .deferred y) ∈ f₃ → ∀ c, y.carried c = c := fun t y hy hm =>
      hquiet (t, y) (hf₃ ▸ concerning?_of_mem (List.mem_append_left _ hm) hy)
    intro t places'
    exact ⟨fun hm => Option.some_ne_none _ (hnone t _ rfl hm none),
      fun hm => Option.some_ne_none _ (hnone t _ rfl hm (some [])).symm⟩

end

end ResourceIndex.Pipeline
