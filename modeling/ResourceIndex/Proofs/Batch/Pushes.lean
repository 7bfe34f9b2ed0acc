import ResourceIndex.Proofs.Batch.Record
import ResourceIndex.Proofs.Batch.Session
/-
What a batch does with one request, and with any number of requests that are served one after
another whether they fail or not. Only a request that asks for a push or fills the batch makes
calls, and these are the grouping of what is staged.
-/
namespace ResourceIndex

theorem Executor.stageable_eq_error_iff {σ ω : Type} {x : Executor σ ω} {m : Mutation}
    {e : IndexError} :
    x.stageable m = .error e ↔
      ∃ id resource, m = .upsert id resource ∧ x.prepare id resource = .error e := by
  constructor
  · intro h
    cases m with
    | cascade c => cases h
    | upsert id resource =>
      refine ⟨id, resource, rfl, ?_⟩
      rw [stageable] at h
      cases hp : x.prepare id resource with
      | ok w =>
        rw [hp] at h
        cases h
      | error e' =>
        rw [hp] at h
        cases h
        rfl
  · rintro ⟨id, resource, rfl, hp⟩
    rw [stageable, hp]
    rfl

namespace StagedBatch

variable {σ ω : Type} {x : Executor σ ω} {b : StagedBatch ω} {r : Request} {m : Mutation}
  {op : Staged ω} {ops : List (Staged ω)} {s : σ} {log : List (Answered ω)}

/-- A request has operations carried out: all that are staged, when it asks for a push, and these
with its own, when that fills the batch. -/
inductive Pushes (x : Executor σ ω) (b : StagedBatch ω) : Request → List (Staged ω) → Prop
  | asked : Pushes x b .push b.staged
  | filled {m : Mutation} {op : Staged ω} : x.stageable m = .ok op →
      b.size ≤ b.staged.length + 1 → Pushes x b (.change m) (b.staged ++ [op])

/-- The batch with one more operation. -/
def holding (b : StagedBatch ω) (op : Staged ω) : StagedBatch ω :=
  { b with staged := b.staged ++ [op] }

theorem Pushes.recorded (h : b.Pushes x r ops) : b.Pushes x.recorded r ops := by
  cases h with
  | asked => exact .asked
  | filled hop hfull => exact .filled hop hfull

theorem pushes_change_iff (hb : b.staged.length < b.size) :
    b.Pushes x (.change m) ops ↔ ∃ op, x.stageable m = .ok op ∧ b.staged.length + 1 = b.size ∧
      ops = b.staged ++ [op] := by
  constructor
  · intro h
    cases h with
    | filled hop hfull => exact ⟨_, hop, by omega, rfl⟩
  · rintro ⟨op, hop, hfull, rfl⟩
    exact .filled hop (Nat.le_of_eq hfull.symm)

theorem Pushes.unique {ops' : List (Staged ω)} (h : b.Pushes x r ops) (h' : b.Pushes x r ops') :
    ops = ops' := by
  cases h with
  | asked =>
    cases h'
    rfl
  | filled hop hfull =>
    cases h' with
    | filled hop' hfull' =>
      cases hop.symm.trans hop'
      rfl

theorem not_pushes_of_waits (hb : b.staged.length + 1 < b.size) :
    ¬ b.Pushes x (.change m) ops := by
  intro h
  cases h with
  | filled hop hfull => omega

theorem not_pushes_of_unprepared {e : IndexError} (hm : x.stageable m = .error e) :
    ¬ b.Pushes x (.change m) ops := by
  intro h
  cases h with
  | filled hop hfull =>
    rw [hm] at hop
    cases hop

theorem serve_of_pushes (h : b.Pushes x r ops) (s : σ) :
    b.serve x r s = ⟨((x.run (Call.group ops)).run s).1, b.cleared,
      ((x.run (Call.group ops)).run s).2⟩ := by
  cases h with
  | asked => rfl
  | @filled m op hop hfull =>
    have hlen : b.size ≤ (b.staged ++ [op]).length := by
      rwa [List.length_append, List.length_singleton]
    rw [serve, submit, hop]
    exact if_pos hlen

theorem serve_of_waits (hop : x.stageable m = .ok op) (hb : b.staged.length + 1 < b.size) (s : σ) :
    b.serve x (.change m) s = ⟨.ok (), b.holding op, s⟩ := by
  have hlen : ¬ b.size ≤ (b.staged ++ [op]).length := by
    rw [List.length_append, List.length_singleton]
    exact Nat.not_le.mpr hb
  rw [serve, submit, hop]
  exact if_neg hlen

theorem serve_of_unprepared {e : IndexError} (h : x.stageable m = .error e) (s : σ) :
    b.serve x (.change m) s = ⟨.error e, b, s⟩ := by
  rw [serve, submit, h]

/-- A request pushes, or its operation waits in the batch, or it cannot be prepared. -/
theorem pushes_or_waits_or_unprepared (x : Executor σ ω) (b : StagedBatch ω) (r : Request) :
    (∃ ops, b.Pushes x r ops) ∨
      (∃ m op, r = .change m ∧ x.stageable m = .ok op ∧ b.staged.length + 1 < b.size) ∨
      ∃ m e, r = .change m ∧ x.stageable m = .error e := by
  cases r with
  | push => exact .inl ⟨_, .asked⟩
  | change m =>
    cases hop : x.stageable m with
    | error e => exact .inr (.inr ⟨m, e, rfl, hop⟩)
    | ok op =>
      rcases Nat.lt_or_ge (b.staged.length + 1) b.size with hwaits | hfull
      · exact .inr (.inl ⟨m, op, rfl, hop, hwaits⟩)
      · exact .inl ⟨_, .filled hop hfull⟩

/-- The account of a push is that of the calls of its grouping. -/
theorem serve_recorded_of_pushes (h : b.Pushes x r ops) :
    b.serve x.recorded r (s, log) = ⟨(b.serve x r s).result, b.cleared,
      (b.serve x r s).state, log ++ x.answers (Call.group ops) s⟩ := by
  rw [serve_of_pushes h.recorded, serve_of_pushes h, Executor.run_recorded]

/-- The account changes nothing for those who ask. -/
theorem serve_recorded (x : Executor σ ω) (b : StagedBatch ω) (r : Request) (s : σ)
    (log : List (Answered ω)) :
    (b.serve x.recorded r (s, log)).result = (b.serve x r s).result ∧
      (b.serve x.recorded r (s, log)).batch = (b.serve x r s).batch ∧
      (b.serve x.recorded r (s, log)).state.1 = (b.serve x r s).state := by
  rcases pushes_or_waits_or_unprepared x b r with
    ⟨ops, h⟩ | ⟨m, op, rfl, hop, hwaits⟩ | ⟨m, e, rfl, he⟩
  · rw [serve_recorded_of_pushes h]
    exact ⟨rfl, by rw [serve_of_pushes h], rfl⟩
  · rw [serve_of_waits hop hwaits, serve_of_waits (x := x.recorded) hop hwaits]
    exact ⟨rfl, rfl, rfl⟩
  · rw [serve_of_unprepared he, serve_of_unprepared (x := x.recorded) he]
    exact ⟨rfl, rfl, rfl⟩

theorem ofSize_size (b : StagedBatch ω) : ofSize b.size = .ok b.cleared :=
  dif_pos b.size_pos

/-- What was answered to requests one after another, and what they have led to. -/
structure Session (σ ω : Type) where
  results : List (Except IndexError Unit)
  batch : StagedBatch ω
  state : σ

/-- The session with one more request. -/
def Session.serve (x : Executor σ ω) (h : Session σ ω) (r : Request) : Session σ ω :=
  let o := h.batch.serve x r h.state
  ⟨h.results ++ [o.result], o.batch, o.state⟩

/-- Serves requests one after another, whether they fail or not. -/
def serveEach (b : StagedBatch ω) (x : Executor σ ω) (rs : List Request) (s : σ) : Session σ ω :=
  rs.foldl (Session.serve x) ⟨[], b, s⟩

theorem serveEach_concat (b : StagedBatch ω) (x : Executor σ ω) (rs : List Request) (r : Request)
    (s : σ) : b.serveEach x (rs ++ [r]) s = (b.serveEach x rs s).serve x r :=
  List.foldl_concat _ _ _ _

/-- What requests ask to be staged, in their order. -/
def accepted (x : Executor σ ω) (rs : List Request) : List (Staged ω) :=
  (changes rs).filterMap fun m => (x.stageable m).toOption

/-- Between two requests there is room for one more operation. -/
def HasRoom (n : Nat) (b : StagedBatch ω) : Prop := b.size = n ∧ b.staged.length < n

theorem hasRoom_of_ofSize {n : Nat} (hb : ofSize n = .ok b) : b.HasRoom n := by
  unfold ofSize at hb
  split at hb
  · rename_i hn
    cases hb
    exact ⟨rfl, hn⟩
  · cases hb

theorem HasRoom.serve {n : Nat} (hb : b.HasRoom n) (x : Executor σ ω) (r : Request) (s : σ) :
    (b.serve x r s).batch.HasRoom n := by
  obtain ⟨rfl, hroom⟩ := hb
  rcases pushes_or_waits_or_unprepared x b r with
    ⟨ops, hpush⟩ | ⟨m, op, rfl, hop, hwaits⟩ | ⟨m, e, rfl, hm⟩
  · rw [serve_of_pushes hpush]
    exact ⟨rfl, b.size_pos⟩
  · rw [serve_of_waits hop hwaits]
    refine ⟨rfl, ?_⟩
    rwa [holding, List.length_append, List.length_singleton]
  · rw [serve_of_unprepared hm]
    exact ⟨rfl, hroom⟩

theorem HasRoom.serveEach {n : Nat} (hb : b.HasRoom n) (x : Executor σ ω) (rs : List Request)
    (s : σ) : (b.serveEach x rs s).batch.HasRoom n := by
  induction rs using List.reverseRecOn with
  | nil => exact hb
  | append_singleton rs r ih =>
    rw [serveEach_concat]
    exact ih.serve x r _

theorem accepted_change (x : Executor σ ω) (m : Mutation) :
    accepted x [.change m] = (x.stageable m).toOption.toList := by
  simp only [accepted, changes, Request.change?, List.filterMap_cons, List.filterMap_nil]
  cases (x.stageable m).toOption with
  | none => rfl
  | some op => rfl

/-- As long as no call fails, what a request adds to what was called for and to what is staged is
its own operation. -/
theorem operations_append_staged_serve (x : Executor σ ω) (b : StagedBatch ω) (r : Request) (s : σ)
    (log : List (Answered ω))
    (h : ∀ a ∈ (b.serve x.recorded r (s, log)).state.2, a.result = .ok ()) :
    (b.serve x.recorded r (s, log)).state.2.flatMap (·.call.operations) ++
        (b.serve x.recorded r (s, log)).batch.staged =
      log.flatMap (·.call.operations) ++ b.staged ++ accepted x [r] := by
  rcases pushes_or_waits_or_unprepared x b r with
    ⟨ops, hpush⟩ | ⟨m, op, rfl, hop, hwaits⟩ | ⟨m, e, rfl, hm⟩
  · have hops : ops = b.staged ++ accepted x [r] := by
      cases hpush with
      | asked => exact (List.append_nil _).symm
      | filled hop hfull => simp [accepted, changes, Request.change?, hop, Except.toOption]
    rw [serve_recorded_of_pushes hpush] at h ⊢
    rcases x.takes_or_failsAt (Call.group ops) s with
      ⟨t, ht⟩ | ⟨done, failed, rest, e, u, t, hcalls, hfails⟩
    · rw [Executor.answers_of_takes ht, List.flatMap_append, Answered.flatMap_succeeded,
        (Call.isGrouping_group ops).inOrder, hops]
      simp only [cleared, List.append_nil, List.append_assoc]
    · rw [hcalls, hfails.answers_append] at h
      have hfailed := h ⟨failed, .error e⟩ (by simp)
      cases hfailed
  · rw [serve_of_waits (x := x.recorded) hop hwaits]
    simp [accepted, changes, Request.change?, hop, Except.toOption, holding]
  · rw [serve_of_unprepared (x := x.recorded) hm]
    simp [accepted, changes, Request.change?, hm, Except.toOption]

theorem accepted_append (x : Executor σ ω) (rs rs' : List Request) :
    accepted x (rs ++ rs') = accepted x rs ++ accepted x rs' := by
  rw [accepted, changes, List.filterMap_append, List.filterMap_append]
  rfl

/-- The account only grows. -/
theorem prefix_serve_recorded (x : Executor σ ω) (b : StagedBatch ω) (r : Request) (s : σ)
    (log : List (Answered ω)) : log <+: (b.serve x.recorded r (s, log)).state.2 := by
  rcases pushes_or_waits_or_unprepared x b r with
    ⟨ops, hpush⟩ | ⟨m, op, rfl, hop, hwaits⟩ | ⟨m, e, rfl, hm⟩
  · rw [serve_recorded_of_pushes hpush]
    exact List.prefix_append log _
  · simp only [serve_of_waits (x := x.recorded) hop hwaits, List.prefix_refl]
  · simp only [serve_of_unprepared (x := x.recorded) hm, List.prefix_refl]

/-- As long as no call fails, nothing is lost, doubled or moved: each operation was called for, or
it is still staged. -/
theorem operations_append_staged (hb : b.staged = []) (x : Executor σ ω) (rs : List Request)
    (s : σ) (h : ∀ a ∈ (b.serveEach x.recorded rs (s, [])).state.2, a.result = .ok ()) :
    (b.serveEach x.recorded rs (s, [])).state.2.flatMap (·.call.operations) ++
      (b.serveEach x.recorded rs (s, [])).batch.staged = accepted x rs := by
  induction rs using List.reverseRecOn with
  | nil => exact hb
  | append_singleton rs r ih =>
    rw [serveEach_concat] at h ⊢
    have hbefore := ih fun a ha => h a ((prefix_serve_recorded x _ r _ _).mem ha)
    rw [accepted_append, ← hbefore]
    exact operations_append_staged_serve x _ r _ _ h

/-- What a request does to a batch, and the calls that it sets off. -/
structure Served (x : Executor σ ω) (before : StagedBatch ω) (r : Request)
    (made : List (Answered ω)) (result : Except IndexError Unit) (after : StagedBatch ω) :
    Prop where
  /-- A change makes calls exactly if it fills the batch. -/
  filling : ∀ m, r = .change m →
    (made ≠ [] ↔ ∃ op, x.stageable m = .ok op ∧ before.staged.length + 1 = before.size)
  /-- A change that makes none is staged, if it can be prepared. -/
  waiting : ∀ m, r = .change m → made = [] → after.staged = before.staged ++ accepted x [r]
  /-- A push makes the calls of the grouping, up to the first that fails, and empties the batch. -/
  pushing : ∀ ops, before.Pushes x r ops → after.staged = [] ∧ ∃ calls,
    Call.IsGrouping ops calls ∧ made.map (·.call) <+: calls ∧
      (result = .ok () → made.map (·.call) = calls)
  idle : r = .push → before.staged = [] → made = []

theorem HasRoom.served {n : Nat} (hb : b.HasRoom n) (x : Executor σ ω) (r : Request) (s : σ)
    (log : List (Answered ω)) :
    let o := b.serve x.recorded r (s, log)
    ∃ made, o.state.2 = log ++ made ∧ Served x b r made o.result o.batch := by
  obtain ⟨rfl, hroom⟩ := hb
  rcases pushes_or_waits_or_unprepared x b r with
    ⟨ops, hpush⟩ | ⟨m, op, rfl, hop, hwaits⟩ | ⟨m, e, rfl, hm⟩
  · rw [serve_recorded_of_pushes hpush]
    refine ⟨x.answers (Call.group ops) s, rfl, ⟨?_, ?_, ?_, ?_⟩⟩
    · rintro m rfl
      obtain ⟨op, hop, hfull, rfl⟩ := (pushes_change_iff hroom).mp hpush
      rw [ne_eq, Executor.answers_eq_nil_iff, Call.group_eq_nil_iff]
      exact ⟨fun _ => ⟨op, hop, hfull⟩, fun _ => List.concat_ne_nil op b.staged⟩
    · rintro m rfl hnone
      obtain ⟨op, -, -, rfl⟩ := (pushes_change_iff hroom).mp hpush
      have hops := Call.group_eq_nil_iff.mp (Executor.answers_eq_nil_iff.mp hnone)
      exact absurd hops (List.concat_ne_nil op b.staged)
    · intro ops' hpush'
      rw [hpush'.unique hpush]
      refine ⟨rfl, Call.group ops, Call.isGrouping_group ops, x.map_call_answers_prefix _ s, ?_⟩
      intro hok
      rw [serve_of_pushes hpush] at hok
      have htakes : (x.run (Call.group ops)).Takes s ((x.run (Call.group ops)).run s).2 :=
        Prod.ext hok rfl
      rw [Executor.answers_of_takes htakes, Answered.map_call_succeeded]
    · rintro rfl hnone
      cases hpush
      rw [hnone]
      rfl
  · rw [serve_of_waits (x := x.recorded) hop hwaits]
    refine ⟨[], (List.append_nil log).symm, ⟨?_, ?_, ?_, fun _ _ => rfl⟩⟩
    · rintro m' ⟨⟩
      constructor
      · exact fun h => absurd rfl h
      · rintro ⟨-, -, hfull⟩
        omega
    · rintro m' ⟨⟩ -
      rw [accepted_change, hop]
      rfl
    · exact fun ops h => absurd h (not_pushes_of_waits hwaits)
  · rw [serve_of_unprepared (x := x.recorded) hm]
    refine ⟨[], (List.append_nil log).symm, ⟨?_, ?_, ?_, fun _ _ => rfl⟩⟩
    · rintro m' ⟨⟩
      constructor
      · exact fun h => absurd rfl h
      · rintro ⟨op, hop, -⟩
        rw [hm] at hop
        cases hop
    · rintro m' ⟨⟩ -
      rw [accepted_change, hm]
      exact (List.append_nil _).symm
    · exact fun ops h => absurd h (not_pushes_of_unprepared hm)

/-- After any requests, a batch of size `n` has fewer than `n` operations staged, and the next
request is served as `Served` says. As long as no call has failed, the calls stand for what was
asked for and is not staged any more, in its order. -/
theorem push_makes_grouped_calls (x : Executor σ ω) {n : Nat} {b : StagedBatch ω}
    (hb : ofSize n = .ok b) (rs : List Request) (s : σ) :
    let here := b.serveEach x.recorded rs (s, [])
    here.batch.size = n ∧ here.batch.staged.length < n ∧
      ((∀ a ∈ here.state.2, a.result = .ok ()) →
        here.state.2.flatMap (·.call.operations) ++ here.batch.staged = accepted x rs) ∧
      ∀ r, let next := here.batch.serve x.recorded r here.state
        ∃ made, next.state.2 = here.state.2 ++ made ∧
          Served x here.batch r made next.result next.batch := by
  intro here
  have hroom : here.batch.HasRoom n := (hasRoom_of_ofSize hb).serveEach x.recorded rs (s, [])
  refine ⟨hroom.1, hroom.2, ?_, fun r => hroom.served x r here.state.1 here.state.2⟩
  exact operations_append_staged (staged_of_ofSize hb) x rs s

/-- The fourth operation fills the batch: two writes, a deletion between, and a third write. -/
theorem fourth_operation_makes_three_calls :
    let x : Executor Unit String := ⟨fun id _ => .ok id, fun _ => pure (), fun _ => pure ()⟩
    let b : StagedBatch String := ⟨4, by decide, []⟩
    let rs : List Request := [.change (.upsert "a" default), .change (.upsert "b" default),
      .change (.delete "a")]
    let here := b.serveEach x.recorded rs ((), [])
    ofSize 4 = .ok b ∧ here.batch.staged.length = 3 ∧ here.state.2 = [] ∧
      ∃ made, Served x here.batch (.change (.upsert "c" default)) made (.ok ()) b ∧
        made.map (·.call) = [.flush ["a", "b"], .apply ⟨"a", .setDeleted true⟩, .flush ["c"]] := by
  intro x b rs here
  obtain ⟨-, -, -, hnext⟩ := push_makes_grouped_calls x (n := 4) (b := b) rfl rs ()
  obtain ⟨made, hmade, hserved⟩ := hnext (.change (.upsert "c" default))
  refine ⟨rfl, rfl, rfl, made, hserved, ?_⟩
  obtain ⟨-, calls, hcalls, -, hall⟩ := hserved.pushing _ (.filled rfl (by decide))
  rw [hall rfl, hcalls.eq_group]
  rfl

end StagedBatch
end ResourceIndex
