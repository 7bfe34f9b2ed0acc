import ResourceIndex.Proofs.Pipeline.Requests
/-
What a stream learns of its events. An event is acknowledged by its worker or by the end of a
reindex that it was asked for, never by both, and the stream knows how often it was taken and
whether it was acknowledged.
-/
namespace ResourceIndex.Pipeline

open Debouncer (takenIn ackedIn lostIn)

/-- The events that have been acknowledged, one after the other. -/
def acked (p : Pipeline) : List Nat := p.history.flatMap fun e => e.2.acks

def Happening.takes (n : Nat) : Happening → Bool
  | .taken _ place => place = n
  | _ => false

@[simp] theorem takes_taken (worker place n : Nat) :
    (Happening.taken worker place).takes n = decide (place = n) := rfl

@[simp] theorem takes_called (place n : Nat) (call : IndexCall) :
    (Happening.called place call).takes n = false := rfl

@[simp] theorem takes_returned (place n : Nat) (call : IndexCall)
    (result : Except IndexError Unit) :
    (Happening.returned place call result).takes n = false := rfl

@[simp] theorem takes_acked (place n : Nat) : (Happening.acked place).takes n = false := rfl

variable {w : Workload} {p q : Pipeline} {hs : List Happening} {n : Nat} {space : SpaceId}
  {punctual : Prop} {events : Nat → ChangeEvent} {c : Channel}
  {history : List (Nat × Happening)}

theorem count_acks (h : Happening) (n : Nat) : h.acks.count n =
    (if h.place? = some n ∧ h.isAck = true then 1 else 0) +
      (h.deferred?.elim [] Debouncer.Happening.acked).count n := by
  cases h with
  | deferred h => cases h <;> simp [Happening.acks, Happening.isAck, Happening.deferred?]
  | acked place =>
    simp [Happening.acks, Happening.isAck, Happening.deferred?, Happening.place?, List.count_cons]
  | _ => simp [Happening.acks, Happening.isAck, Happening.deferred?]

/-- An event is acknowledged by its worker or by the end of a reindex. -/
theorem count_acked (p : Pipeline) (n : Nat) : p.acked.count n =
    (p.doings n).countP (fun e => e.2.isAck) + (ackedIn p.reindexing.history).count n := by
  rw [ackedIn, flatMap_reindexing]
  unfold acked doings
  induction p.history with
  | nil => rfl
  | cons e history ih =>
    rw [List.flatMap_cons, List.flatMap_cons, List.count_append, List.count_append, ih, count_acks,
      List.filter_cons]
    by_cases hn : e.2.place? = some n
    · by_cases ha : e.2.isAck = true
      · simp [hn, ha]
        omega
      · simp [hn, ha]
        omega
    · simp [hn]
      omega

theorem count_ackedIn_filter {h : List (Nat × Debouncer.Happening Nat)}
    (hn : ∀ e ∈ h, n ∈ e.2.acked → e.2.concerns space = true) :
    (ackedIn h).count n = (ackedIn (h.filter fun e => e.2.concerns space)).count n := by
  induction h with
  | nil => rfl
  | cons e h ih =>
    obtain ⟨he, hh⟩ := List.forall_mem_cons.mp hn
    have hrest := ih hh
    simp only [ackedIn, List.flatMap_cons, List.count_append] at hrest ⊢
    rw [hrest, List.filter_cons]
    split
    · rw [List.flatMap_cons, List.count_append]
    · rename_i hc
      have hnot : n ∉ e.2.acked := fun hmem => hc (he hmem)
      rw [List.count_eq_zero_of_not_mem hnot, Nat.zero_add]

section

variable {s : EventSettings} {capacity : Nat}

theorem ended_of_mem_acked {e : Nat × Debouncer.Happening Nat} (h : n ∈ e.2.acked) :
    ∃ space places, e.2 = .ended space places ∧ n ∈ places := by
  obtain ⟨time, x⟩ := e
  cases x with
  | ended space places => exact ⟨space, places, rfl, h⟩
  | _ => exact absurd h List.not_mem_nil

theorem Reached.count_acked (h : Reached punctual w events s capacity p) (n : Nat) :
    p.acked.count n = (p.doings n).countP (fun e => e.2.isAck) +
      (ackedIn (p.reindexing.historyOf (events n).space)).count n := by
  rw [Pipeline.count_acked]
  congr 1
  apply count_ackedIn_filter
  rintro ⟨time, x⟩ hmem hn
  obtain ⟨space, places, hx, hplaces⟩ := ended_of_mem_acked hn
  obtain rfl : x = .ended space places := hx
  obtain ⟨before, behind, hsplit⟩ := List.append_of_mem (mem_history_reindexing.mp hmem)
  obtain ⟨rfl, -⟩ := h.served hsplit hplaces
  simp [Debouncer.Happening.concerns, Debouncer.Happening.space?]

/-- What is acknowledged by the end of a reindex was asked for. -/
theorem Reached.asked_of_ackedIn (h : Reached punctual w events s capacity p)
    (hn : n ∈ ackedIn (p.reindexing.historyOf space)) :
    ∃ time front, p.doings n = front ++ [(time, .deferred (.asked space n))] ∧
      AskedLast w p.asyncUploads n (events n) space front := by
  obtain ⟨time, hasked⟩ := mem_takenIn.mp ((h.account space).acked_sub hn)
  obtain ⟨front, hfront⟩ := (h.stage n).asked hasked
  exact ⟨time, front, hfront⟩

theorem Account.nodup_acked (h : p.Account space) :
    (ackedIn (p.reindexing.historyOf space)).Nodup := by
  have hnodup := h.nodup
  rw [h.ledger, List.append_assoc, List.append_assoc] at hnodup
  exact (List.nodup_append.mp hnodup).1

/-- A worker that makes a request does not acknowledge the event. -/
theorem Stage.unacked {asyncUploads gone : Bool} {e : ChangeEvent} {v : View} {time : Nat}
    {x : Debouncer.Happening Nat} (h : Stage w asyncUploads gone n e v)
    (hx : (time, .deferred x) ∈ v.doings) : v.doings.countP (fun e => e.2.isAck) = 0 := by
  cases h with
  | @handled doings h =>
    cases h with
    | skipped => simp at hx
    | @uncalled worker since hs hc last hl =>
      obtain ⟨-, rfl⟩ : time = since ∧ .deferred x = last := by simpa using hx
      rfl
    | @called worker since later hs call hc last hl =>
      obtain ⟨-, rfl⟩ : time = later ∧ .deferred x = last := by simpa using hx
      rfl
  | _ => simp at hx

/-- No event is acknowledged twice. -/
theorem Reached.acked_once (h : Reached punctual w events s capacity p) (n : Nat) :
    p.acked.count n ≤ 1 := by
  rw [h.count_acked n]
  by_cases hn : n ∈ ackedIn (p.reindexing.historyOf (events n).space)
  · obtain ⟨time, front, hdoings, -⟩ := h.asked_of_ackedIn hn
    have hasked : (time, .deferred (.asked (events n).space n)) ∈ p.doings n := by
      rw [hdoings]
      exact List.mem_append_right front (List.mem_singleton.mpr rfl)
    have hunacked : (p.doings n).countP (fun e => e.2.isAck) = 0 := (h.stage n).unacked hasked
    rw [hunacked, Nat.zero_add]
    exact List.nodup_iff_count_le_one.mp (h.account (events n).space).nodup_acked n
  · have hcloses : (p.doings n).countP (fun e => e.2.isAck || e.2.deferred?.isSome) ≤ 1 :=
      (h.stage n).closes_le
    have hacks : (p.doings n).countP (fun e => e.2.isAck) ≤
        (p.doings n).countP fun e => e.2.isAck || e.2.deferred?.isSome :=
      List.countP_mono_left fun e _ ha => by rw [ha, Bool.true_or]
    rw [List.count_eq_zero_of_not_mem hn]
    exact Nat.le_trans hacks hcloses

/-- What waits or is lost has not been acknowledged. -/
theorem Account.apart (h : p.Account space)
    (hn : n ∈ p.debouncer.waiting space ∨ n ∈ lostIn (p.reindexing.historyOf space)) :
    n ∈ takenIn (p.reindexing.historyOf space) ∧ n ∉ ackedIn (p.reindexing.historyOf space) := by
  have hnodup := h.nodup
  rw [h.ledger, List.append_assoc, List.append_assoc] at hnodup ⊢
  have hrest : n ∈ (p.reindexing.runningOf space).flatten ++
      (p.debouncer.waiting space ++ lostIn (p.reindexing.historyOf space)) :=
    List.mem_append_right _ (List.mem_append.mpr hn)
  refine ⟨List.mem_append_right _ hrest, fun hacked => ?_⟩
  exact (List.nodup_append.mp hnodup).2.2 n hacked n hrest rfl

end

/-- The stream knows of its events what has happened. -/
def Told (c : Channel) (history : List (Nat × Happening)) : Prop :=
  ∀ n < c.deliveries.length, c.deliveries[n]? =
    some ⟨history.countP fun e => e.2.takes n, decide (n ∈ history.flatMap fun e => e.2.acks)⟩

theorem deliveries_foldl_ack (places : List Nat) (c : Channel) (n : Nat) :
    (places.foldl Channel.ack c).deliveries[n]? =
      c.deliveries[n]?.map fun d => { d with acked := d.acked || decide (n ∈ places) } := by
  induction places generalizing c with
  | nil => simp
  | cons place places ih =>
    rw [List.foldl_cons, ih, Channel.ack, List.getElem?_modify]
    cases c.deliveries[n]? with
    | none => rfl
    | some d =>
      by_cases hn : place = n
      · simp [hn]
      · simp [hn, Ne.symm hn]

theorem Told.tell (h : Told c history) (x : Happening) (time : Nat) :
    Told (x.tell c) (history ++ [(time, x)]) := by
  intro n hn
  rw [(tell_keeps x c).2.1] at hn
  have hbefore := h n hn
  have hcount : ((history ++ [(time, x)]).countP fun e => e.2.takes n) =
      (history.countP fun e => e.2.takes n) + if x.takes n then 1 else 0 := by
    rw [List.countP_append, List.countP_singleton]
  have hflat : (history ++ [(time, x)]).flatMap (fun e => e.2.acks) =
      history.flatMap (fun e => e.2.acks) ++ x.acks := by
    rw [List.flatMap_append, List.flatMap_singleton]
  rw [hcount, hflat]
  have hacks : x.takes n = false → x.tell c = x.acks.foldl Channel.ack c →
      (x.tell c).deliveries[n]? = some ⟨(history.countP fun e => e.2.takes n) +
        if x.takes n then 1 else 0,
        decide (n ∈ history.flatMap (fun e => e.2.acks) ++ x.acks)⟩ := by
    intro htakes htell
    rw [htell, deliveries_foldl_ack, hbefore, htakes]
    simp only [Option.map_some, List.mem_append, Bool.decide_or]
    rfl
  cases x with
  | taken worker place =>
    have hnone : (Happening.taken worker place).acks = [] := rfl
    rw [Happening.tell, Channel.reportProgress, List.getElem?_modify, hbefore, hnone,
      List.append_nil]
    by_cases hplace : place = n
    · simp [Happening.takes, hplace]
    · simp [Happening.takes, hplace]
  | _ => exact hacks rfl rfl

theorem Told.adds (h : Told p.channel p.history) (ha : Adds p hs q) :
    Told q.channel q.history := by
  have hall : ∀ (hs : List Happening) (c : Channel) (history : List (Nat × Happening)),
      Told c history →
        Told (hs.foldl Happening.tell c) (history ++ hs.map fun h => (p.now, h)) := by
    intro hs
    induction hs with
    | nil => exact fun c history h => (List.append_nil history).symm ▸ h
    | cons x hs ih =>
      intro c history h
      have hrest := ih _ _ (h.tell x p.now)
      rwa [List.append_assoc] at hrest
  rw [ha.channel, ha.history]
  exact hall hs p.channel p.history h

section

variable {s : EventSettings} {capacity : Nat}

/-- An event that no worker has been at is not acknowledged either. -/
theorem Reached.untouched (h : Reached punctual w events s capacity p) (hn : p.doings n = []) :
    (p.history.countP fun e => e.2.takes n) = 0 ∧ n ∉ p.acked := by
  constructor
  · apply List.countP_eq_zero.mpr
    rintro ⟨time, x⟩ hx htakes
    cases x with
    | taken worker place =>
      obtain rfl : place = n := of_decide_eq_true htakes
      have hmem : (time, .taken worker place) ∈ p.doings place := mem_doings.mpr ⟨hx, rfl⟩
      rw [hn] at hmem
      exact List.not_mem_nil hmem
    | _ => cases htakes
  · apply List.count_eq_zero.mp
    rw [h.count_acked n, hn]
    refine (Nat.zero_add _).trans (List.count_eq_zero.mpr fun hacked => ?_)
    obtain ⟨time, front, hfront, -⟩ := h.asked_of_ackedIn hacked
    rw [hn] at hfront
    exact absurd (congrArg List.length hfront) (by simp)

theorem Reached.doings_of_unpublished (h : Reached punctual w events s capacity p)
    (hn : p.channel.deliveries.length ≤ n) : p.doings n = [] := by
  have hstage := h.stage n
  have hpublished : (p.view n).published = false := decide_eq_false (Nat.not_lt.mpr hn)
  change (p.view n).doings = []
  generalize p.view n = v at hstage hpublished
  cases hstage with
  | unpublished => rfl
  | _ => cases hpublished

theorem Reached.told_withEvent (h : Reached punctual w events s capacity p)
    (ht : Told p.channel p.history) (event : ChangeEvent) :
    Told (p.withEvent event).channel p.history := by
  intro n hn
  have hdeliveries : (p.withEvent event).channel.deliveries =
      p.channel.deliveries ++ [⟨0, false⟩] := rfl
  rw [hdeliveries] at hn ⊢
  rw [List.length_append, List.length_singleton] at hn
  rcases Nat.lt_succ_iff_lt_or_eq.mp hn with hlt | rfl
  · rw [List.getElem?_append_left hlt]
    exact ht n hlt
  · have hlast := Nat.le_refl p.channel.deliveries.length
    obtain ⟨htakes, hacked⟩ := h.untouched (h.doings_of_unpublished hlast)
    rw [List.getElem?_append_right (Nat.le_refl _), Nat.sub_self, htakes,
      decide_eq_false (by exact hacked)]
    rfl

theorem Reached.told (h : Reached punctual w events s capacity p) : Told p.channel p.history := by
  induction h with
  | refl => exact fun n hn => absurd hn (Nat.not_lt_zero n)
  | @tail p q hp hst ih =>
    cases hst with
    | publish ho hc =>
      have hnew := Reached.told_withEvent hp ih (events p.channel.deliveries.length)
      rw [← eq_withEvent hc] at hnew
      exact hnew
    | @take worker place event rest =>
      obtain ⟨hs, hadds, -⟩ := adds_process w (p.withQueue rest) worker ⟨place, event⟩
      exact Told.adds (p := p.withQueue rest) ih hadds
    | @endCall time worker taken call rest =>
      exact Told.adds (p := p.withAgenda rest) ih (adds_release _ worker taken call)
    | @carryOut time duty rest =>
      obtain ⟨hs, hadds, -⟩ := adds_carryOut w (p.withAgenda rest) duty
      exact Told.adds (p := p.withAgenda rest) ih hadds
    | stop =>
      exact Told.adds (p := { p with closed := true, debouncer := p.debouncer.stop }) ih
        (adds_record _ _)
    | @drop time space rest =>
      exact Told.adds (p := { p with debouncer := p.debouncer.without space, agenda := rest }) ih
        (adds_record _ _)
    | conclude =>
      unfold Channel.leave
      split <;> exact ih
    | _ => exact ih

end

end ResourceIndex.Pipeline
