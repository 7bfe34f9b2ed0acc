import ResourceIndex.Proofs.Pipeline.Conclusion
/-
How the events of an open pipeline are acknowledged: by their worker, or by the end of a reindex
that has started after their calls were back, and in the end all of them.
-/
namespace ResourceIndex.Pipeline

open Debouncer (takenIn ackedIn lostIn)

variable {w : Workload} {p : Pipeline} {n : Nat} {e : ChangeEvent} {space : SpaceId}
  {punctual : Prop} {events : Nat → ChangeEvent} {asyncUploads gone : Bool}

theorem Closes.takes {last : Happening} (h : Closes n e last) (m : Nat) :
    last.takes m = false := by
  cases h <;> rfl

theorem Handled.takes {doings : List (Nat × Happening)} (h : Handled w asyncUploads n e doings) :
    doings.countP (fun x => x.2.takes n) = 1 ∧ ∃ x ∈ doings.head?, x.2.takes n = true := by
  cases h with
  | skipped worker time => simp
  | uncalled worker time hs hc hl => simp [hl.takes]
  | called worker time later hs hc hl => simp [hl.takes]

/-- The first thing that happens to an event is that a worker takes it. -/
theorem Stage.takes {v : View} (h : Stage w asyncUploads gone n e v) :
    v.doings.countP (fun x => x.2.takes n) = (if v.doings = [] then 0 else 1) ∧
      ∀ x ∈ v.doings.head?, x.2.takes n = true := by
  cases h with
  | calling worker time => simp
  | @handled doings h =>
    obtain ⟨hone, x, hx, htakes⟩ := h.takes
    cases doings with
    | nil => cases hx
    | cons y doings => exact ⟨hone, fun z hz => by simp_all⟩
  | _ => simp

theorem place?_of_takes {x : Happening} (h : x.takes n = true) : x.place? = some n := by
  cases x with
  | taken worker place => exact congrArg some (of_decide_eq_true h)
  | _ => cases h

theorem countP_takes (p : Pipeline) (n : Nat) :
    p.history.countP (fun x => x.2.takes n) = (p.doings n).countP fun x => x.2.takes n := by
  rw [doings, List.countP_filter]
  apply List.countP_congr
  intro x _
  simp only [Bool.and_eq_true, decide_eq_true_eq, iff_self_and]
  exact place?_of_takes

/-- The last thing that a worker does with an event. -/
theorem Handled.last {doings : List (Nat × Happening)} (h : Handled w asyncUploads n e doings) :
    ∃ time last, (time, last) ∈ doings ∧ (last = .acked n ∨ last = .deferred (.asked e.space n) ∨
      last = .deferred (.refused e.space n)) := by
  have hcloses : ∀ {x : Happening}, Closes n e x → x = .acked n ∨
      x = .deferred (.asked e.space n) ∨ x = .deferred (.refused e.space n) := by
    intro x hx
    cases hx with
    | purged => exact .inl rfl
    | asked => exact .inr (.inl rfl)
    | refused => exact .inr (.inr rfl)
  cases h with
  | skipped worker time => exact ⟨time, .acked n, by simp, .inl rfl⟩
  | uncalled worker time hs hc hl => exact ⟨time, _, by simp, hcloses hl⟩
  | called worker time later hs hc hl => exact ⟨later, _, by simp, hcloses hl⟩

/-- A worker acknowledges what is not for it and what is purged. -/
theorem Handled.acked {doings : List (Nat × Happening)} {time : Nat}
    (h : Handled w asyncUploads n e doings) (ha : (time, .acked n) ∈ doings) :
    e.isSubscribed asyncUploads = false ∨ e.isPurge = true := by
  have hpurge : ∀ {x : Happening}, Closes n e x → x = .acked n → e.isPurge = true := by
    intro x hx hacked
    cases hx with
    | purged hp => exact hp
    | _ => cases hacked
  cases h with
  | skipped worker since hs => exact .inl hs
  | uncalled worker since hs hc hl =>
    obtain ⟨-, hlast⟩ : time = since ∧ _ = _ := by simpa using ha
    exact .inr (hpurge hl hlast.symm)
  | called worker since later hs hc hl =>
    obtain ⟨-, hlast⟩ : time = later ∧ _ = _ := by simpa using ha
    exact .inr (hpurge hl hlast.symm)

section

variable {s : EventSettings} {capacity : Nat}

/-- An event is taken before anything else happens to it. -/
theorem Reached.taken_first (h : Reached punctual w events s capacity p)
    {before behind : List (Nat × Happening)} {x : Nat × Happening}
    (hsplit : p.history = before ++ behind) (hx : x ∈ before) (hn : x.2.place? = some n) :
    ∃ y ∈ before, y.2.takes n = true := by
  have hdoings : p.doings n = before.filter (fun e => e.2.place? = some n) ++
      behind.filter fun e => e.2.place? = some n := by
    rw [doings, hsplit, List.filter_append]
  have hmem : x ∈ before.filter fun e => e.2.place? = some n :=
    List.mem_filter.mpr ⟨hx, decide_eq_true hn⟩
  obtain ⟨y, l, hfilter⟩ := List.exists_cons_of_ne_nil (List.ne_nil_of_mem hmem)
  refine ⟨y, (List.mem_filter.mp (hfilter ▸ List.mem_cons_self)).1, ?_⟩
  refine (h.stage n).takes.2 y ?_
  change y ∈ (p.doings n).head?
  rw [hdoings, hfilter]
  rfl

/-- A request is refused by a closed pipeline only. -/
theorem Reached.closed_of_refused (h : Reached punctual w events s capacity p) {time : Nat}
    (hr : (time, .deferred (.refused space n)) ∈ p.history) : p.closed = true := by
  have haccount := h.account space
  have hmem : (time, .refused space n) ∈ p.reindexing.historyOf space :=
    historyOf_reindexing p space ▸ concerning?_of_mem hr rfl
  obtain ⟨before, behind, hsplit⟩ := List.append_of_mem hmem
  obtain ⟨-, since, hcancelled⟩ := haccount.lawful before _ behind hsplit
  refine haccount.cancelled.mpr ⟨since, ?_⟩
  rw [hsplit]
  exact List.mem_append_left _ hcancelled

theorem Reached.mem_acked (h : Reached punctual w events s capacity p)
    (hn : n ∈ ackedIn (p.reindexing.historyOf (events n).space)) : n ∈ p.acked := by
  have hpos := List.count_pos_iff.mpr hn
  apply List.count_pos_iff.mp
  rw [h.count_acked n]
  omega

/-- Of an open pipeline nothing is lost. -/
theorem Account.lost_of_open (h : p.Account space) (ho : p.closed = false) :
    lostIn (p.reindexing.historyOf space) = [] := by
  by_contra hlost
  obtain ⟨hcancelled, -⟩ := Debouncer.lost_of_lawful h.lawful hlost
  exact Bool.false_ne_true (ho.symm.trans (h.cancelled.mpr hcancelled))

theorem Over.runningOf (h : p.Over) (space : SpaceId) : p.reindexing.runningOf space = [] := by
  simp [Reindexing.runningOf, Agenda.pick, reindexing, Agenda.select, h.agenda]

theorem Reached.waiting_of_over (h : Reached punctual w events s capacity p) (hover : p.Over)
    (space : SpaceId) : p.debouncer.waiting space = [] := by
  simp [Debouncer.waiting, Debouncer.burst?, (h.idle hover).1]

/-- When the stream has ended, every event has been acknowledged at the end. -/
theorem Reached.all_acked (h : Reached punctual w events s capacity p) (ho : p.closed = false)
    (hover : p.Over) (hn : n < p.channel.deliveries.length) : n ∈ p.acked := by
  obtain ⟨time, last, hmem, hlast⟩ := (h.handled hover (h.taken_of_open hover ho hn)).last
  obtain ⟨hhistory, -⟩ := mem_doings.mp hmem
  rcases hlast with rfl | rfl | rfl
  · exact List.mem_flatMap.mpr ⟨_, hhistory, List.mem_singleton.mpr rfl⟩
  · have htaken := mem_takenIn.mpr ⟨time, hmem⟩
    rw [(h.account _).ledger, hover.runningOf, h.waiting_of_over hover,
      (h.account _).lost_of_open ho] at htaken
    exact h.mem_acked (by simpa using htaken)
  · exact absurd (h.closed_of_refused hhistory) (ho ▸ Bool.false_ne_true)

/-- How an event of an open pipeline comes to be acknowledged. -/
structure Disciplined (w : Workload) (asyncUploads : Bool) (p : Pipeline) (n : Nat)
    (e : ChangeEvent) : Prop where
  stage : Stage w asyncUploads false n e (p.view n)
  /-- Progress is reported once for an event that is taken. -/
  told : p.channel.deliveries[n]? =
    some ⟨if p.doings n = [] then 0 else 1, decide (n ∈ p.acked)⟩
  takenFirst : ∀ before x behind, p.history = before ++ x :: behind →
    x.2.place? = some n ∨ n ∈ x.2.acks → x.2.takes n = true ∨ ∃ y ∈ before, y.2.takes n = true
  unrefused : ∀ time space, (time, .deferred (.refused space n)) ∉ p.history
  /-- Whoever acknowledges the event, this or the next field tells why. -/
  byWorker : ∀ time, (time, .acked n) ∈ p.history →
    e.isSubscribed asyncUploads = false ∨ e.isPurge = true
  byReindex : ∀ before time space places behind,
    p.history = before ++ (time, .deferred (.ended space places)) :: behind → n ∈ places →
      e.isSubscribed asyncUploads = true ∧ e.isPurge = false ∧ space = e.space ∧
        Served w before places n e time
  once : p.acked.count n ≤ 1
  complete : p.finished = true → p.acked.count n = 1

theorem Reached.told_doings (h : Reached punctual w events s capacity p)
    (hn : n < p.channel.deliveries.length) : p.channel.deliveries[n]? =
      some ⟨if p.doings n = [] then 0 else 1, decide (n ∈ p.acked)⟩ := by
  have htold := h.told n hn
  have htakes : (p.doings n).countP (fun x => x.2.takes n) = if p.doings n = [] then 0 else 1 :=
    (h.stage n).takes.1
  rw [countP_takes, htakes] at htold
  exact htold

theorem Served.asked {before : List (Nat × Happening)} {places : List Nat} {time : Nat}
    (h : Served w before places n e time) :
    ∃ h₁ t₁ h₂, before = h₁ ++ (t₁, .deferred (.asked e.space n)) :: h₂ := by
  obtain ⟨h₁, t₁, h₂, t₂, h₃, result, hbefore, -⟩ := h
  refine ⟨h₁, t₁, h₂ ++ (t₂, .deferred (.started e.space places)) :: h₃ ++
    [(time, .reindexed e.space result)], ?_⟩
  rw [hbefore]
  simp only [List.append_assoc, List.cons_append]

theorem Reached.byReindex (h : Reached punctual w events s capacity p)
    {before behind : List (Nat × Happening)} {time : Nat} {places : List Nat}
    (hsplit : p.history = before ++ (time, .deferred (.ended space places)) :: behind)
    (hn : n ∈ places) :
    (events n).isSubscribed p.asyncUploads = true ∧ (events n).isPurge = false ∧
      space = (events n).space ∧ Served w before places n (events n) time := by
  obtain ⟨hspace, hserved⟩ := h.served hsplit hn
  obtain ⟨h₁, t₁, h₂, rfl⟩ := hserved.asked
  have hlast := h.asked_last (hsplit.trans (List.append_assoc ..))
  exact ⟨hlast.subscribed, hlast.isPurge, hspace, hserved⟩

theorem Reached.takenFirst (h : Reached punctual w events s capacity p)
    {before behind : List (Nat × Happening)} {x : Nat × Happening}
    (hsplit : p.history = before ++ x :: behind) (hx : x.2.place? = some n ∨ n ∈ x.2.acks) :
    x.2.takes n = true ∨ ∃ y ∈ before, y.2.takes n = true := by
  have hplace : x.2.place? = some n → x.2.takes n = true ∨ ∃ y ∈ before, y.2.takes n = true := by
    intro hn
    have hsplit' : p.history = (before ++ [x]) ++ behind := hsplit.trans (List.append_cons ..)
    obtain ⟨y, hy, htakes⟩ := h.taken_first hsplit'
      (List.mem_append_right _ (List.mem_singleton.mpr rfl)) hn
    rcases List.mem_append.mp hy with hy | hy
    · exact .inr ⟨y, hy, htakes⟩
    · exact .inl (List.mem_singleton.mp hy ▸ htakes)
  refine hx.elim hplace fun hacks => ?_
  obtain ⟨time, happening⟩ := x
  cases happening with
  | acked place => exact hplace (congrArg some (List.mem_singleton.mp hacks).symm)
  | deferred y =>
    cases y with
    | ended space places =>
      -- What a reindex acknowledges was asked for before, and so it was taken before that.
      obtain ⟨h₁, t₁, h₂, hbefore⟩ := (h.served hsplit hacks).2.asked
      have hasked : (t₁, .deferred (.asked (events n).space n)) ∈ before := by
        rw [hbefore]
        exact List.mem_append_right _ List.mem_cons_self
      exact .inr (h.taken_first hsplit hasked rfl)
    | _ => exact absurd hacks List.not_mem_nil
  | _ => exact absurd hacks List.not_mem_nil

/-- Every event of an open pipeline is taken by one worker and acknowledged once it is served. -/
theorem acknowledged_when_served (h : Reached punctual w events s capacity p)
    (ho : p.closed = false) (n : Nat) (hn : n < p.channel.deliveries.length) :
    Disciplined w s.asyncUploads p n (events n) := by
  have hstage := h.stage n
  have hopen : p.abandoned = false := by simp [abandoned, ho]
  rw [hopen] at hstage
  rw [← h.asyncUploads_eq]
  exact {
    stage := hstage
    told := h.told_doings hn
    takenFirst := fun before x behind => h.takenFirst
    unrefused := fun time space hr => Bool.false_ne_true (ho.symm.trans (h.closed_of_refused hr))
    byWorker := by
      intro time hacked
      have hmem : (time, .acked n) ∈ (p.view n).doings := mem_doings.mpr ⟨hacked, rfl⟩
      generalize p.view n = v at hstage hmem
      cases hstage with
      | handled hdoings => exact hdoings.acked hmem
      | _ => simp at hmem
    byReindex := fun before time space places behind => h.byReindex
    once := h.acked_once n
    complete := fun hf => Nat.le_antisymm (h.acked_once n)
      (List.count_pos_iff.mpr (h.all_acked ho (h.over hf) hn)) }

end

theorem acknowledged_when_served_after_restore :
    let w : Workload := ⟨fun _ _ => 5, fun _ _ => .ok (), fun _ _ => 7, fun _ _ => .ok ()⟩
    let item : Reference := ⟨⟨"", "a", "b"⟩, "."⟩
    let space : SpaceId := ⟨"", "a"⟩
    let s : EventSettings := ⟨1, 0, 0, false, ""⟩
    let published : Pipeline := (ofSettings s (.ofCapacity 1)).withEvent (.itemRestored item)
    let called : Pipeline := (published.withQueue []).process w 0 ⟨0, .itemRestored item⟩
    let asked : Pipeline :=
      (called.withAgenda .empty).release w 0 ⟨0, .itemRestored item⟩ (.restore item)
    let started : Pipeline := (asked.withAgenda .empty).carryOut w (.timer space)
    let acked : Pipeline := (started.withAgenda .empty).carryOut w (.reindex space [0])
    let ended : Pipeline := { acked with ended := true }
    let left : Pipeline := { ended with workers := ended.workers.set 0 .gone }
    let p : Pipeline := { left with channel := left.channel.leave, finished := true }
    Reached True w (fun _ => .itemRestored item) s 1 p ∧ p.closed = false ∧
      0 < p.channel.deliveries.length ∧ p.finished = true ∧ p.acked = [0] ∧
        Disciplined w s.asyncUploads p 0 (.itemRestored item) := by
  intro w item space s published called asked started acked ended left p
  have hpublished : Reached True w (fun _ => .itemRestored item) s 1 published :=
    .single (.publish rfl rfl)
  have hcalled : Reached True w (fun _ => .itemRestored item) s 1 called :=
    .tail hpublished (.take rfl rfl rfl)
  have hentries : called.agenda.entries =
      [(5, .call 0 ⟨0, .itemRestored item⟩ (.restore item))] := by
    decide +kernel
  have hasked : Reached True w (fun _ => .itemRestored item) s 1 asked :=
    .tail hcalled (.endCall ⟨[], [], hentries, rfl⟩)
  have hentries : asked.agenda.entries = [(0, .reindexing (.timer space))] := by decide +kernel
  have hstarted : Reached True w (fun _ => .itemRestored item) s 1 started :=
    .tail hasked (.carryOut ⟨[], [], hentries, rfl⟩)
  have hentries : started.agenda.entries = [(7, .reindexing (.reindex space [0]))] := by
    decide +kernel
  have hacked : Reached True w (fun _ => .itemRestored item) s 1 acked :=
    .tail hstarted (.carryOut ⟨[], [], hentries, rfl⟩)
  have hended : Reached True w (fun _ => .itemRestored item) s 1 ended :=
    .tail hacked (.endStream acked)
  have hqueue : ended.channel.queue = [] := by decide +kernel
  have hleft : Reached True w (fun _ => .itemRestored item) s 1 left :=
    .tail hended (.leave (.inr ⟨rfl, hqueue⟩) (by decide +kernel))
  have hgone : left.workers = [.gone] := by decide +kernel
  have hp : Reached True w (fun _ => .itemRestored item) s 1 p :=
    .tail hleft (.conclude (fun x hx => List.mem_singleton.mp (hgone ▸ hx)) (by decide +kernel))
  have hopen : p.closed = false := by decide +kernel
  have hin : 0 < p.channel.deliveries.length := by decide +kernel
  exact ⟨hp, hopen, hin, rfl, by decide +kernel, acknowledged_when_served hp hopen 0 hin⟩

end ResourceIndex.Pipeline
