import ResourceIndex.Proofs.Batch.Pushes
/-
Requests that fail. What was called for before the failure stays done, what was staged behind it is
dropped, and the batch goes on as a new one.
-/
namespace ResourceIndex.StagedBatch

variable {σ ω : Type}

/-- Requests fail in two ways only. A change that cannot be prepared leaves the batch as it is and
makes no call. A push fails with its first call that fails; the calls before it stay done, none
comes after it, and the batch is a new one of its size. -/
theorem failed_push_keeps_prefix (x : Executor σ ω) (b : StagedBatch ω) (r : Request) (s : σ)
    (log : List (Answered ω)) :
    (∀ id resource e, r = .change (.upsert id resource) → x.prepare id resource = .error e →
      b.serve x.recorded r (s, log) = ⟨.error e, b, s, log⟩) ∧
    (∀ ops done failed rest e u t, b.Pushes x r ops → Call.group ops = done ++ failed :: rest →
      x.FailsAt done failed e s u t →
        done.flatMap Call.operations ++ failed.operations ++ rest.flatMap Call.operations = ops ∧
        (x.FlushSplits → (x.performAll (done.flatMap Call.operations)).Takes s u) ∧
        b.serve x.recorded r (s, log) = ⟨.error e, b.cleared, t,
          log ++ Answered.succeeded done ++ [⟨failed, .error e⟩]⟩ ∧
        b.cleared.staged = [] ∧
        ∀ fresh, ofSize b.size = .ok fresh → ∀ later v,
          b.cleared.serveEach x.recorded later v = fresh.serveEach x.recorded later v) ∧
    (∀ e, (b.serve x r s).result = .error e →
      (∃ id resource, r = .change (.upsert id resource) ∧ x.prepare id resource = .error e) ∨
      ∃ ops done failed rest u t, b.Pushes x r ops ∧ Call.group ops = done ++ failed :: rest ∧
        x.FailsAt done failed e s u t) ∧
    (b.serve x.recorded r (s, log)).result = (b.serve x r s).result ∧
    (b.serve x.recorded r (s, log)).batch = (b.serve x r s).batch ∧
    (b.serve x.recorded r (s, log)).state.1 = (b.serve x r s).state := by
  refine ⟨?_, ?_, ?_, serve_recorded x b r s log⟩
  · rintro id resource e rfl hp
    have hm : x.recorded.stageable (.upsert id resource) = .error e :=
      Executor.stageable_eq_error_iff.mpr ⟨id, resource, rfl, hp⟩
    exact serve_of_unprepared hm (s, log)
  · intro ops done failed rest e u t hpush hcalls hfails
    have hgroups : Call.IsGrouping ops (done ++ failed :: rest) :=
      hcalls ▸ Call.isGrouping_group ops
    refine ⟨?_, ?_, ?_, rfl, ?_⟩
    · rw [← hgroups.inOrder, List.flatMap_append, List.flatMap_cons, List.append_assoc]
    · intro hx
      rw [← Executor.run_of_isGrouping_append hx hgroups]
      exact hfails.succeed
    · rw [serve_recorded_of_pushes hpush, serve_of_pushes hpush, hcalls, hfails.run_append,
        hfails.answers_append, List.append_assoc]
    · intro fresh hfresh later v
      rw [ofSize_size] at hfresh
      cases hfresh
      rfl
  · intro e he
    rcases pushes_or_waits_or_unprepared x b r with
      ⟨ops, hpush⟩ | ⟨m, op, rfl, hop, hwaits⟩ | ⟨m, e', rfl, hm⟩
    · right
      rw [serve_of_pushes hpush] at he
      rcases x.takes_or_failsAt (Call.group ops) s with
        ⟨t, ht⟩ | ⟨done, failed, rest, e', u, t, hcalls, hfails⟩
      · exact absurd ((congrArg Prod.fst ht).symm.trans he) (by simp)
      · rw [hcalls, hfails.run_append] at he
        cases he
        exact ⟨ops, done, failed, rest, u, t, hpush, hcalls, hfails⟩
    · rw [serve_of_waits hop hwaits] at he
      cases he
    · rw [serve_of_unprepared hm] at he
      cases he
      obtain ⟨id, resource, rfl, hp⟩ := Executor.stageable_eq_error_iff.mp hm
      exact .inl ⟨id, resource, rfl, hp⟩

/-- A push gets to a folder that is not there, and a write cannot be prepared. -/
theorem failed_push_drops_later_write :
    let x : Executor Unit String := ⟨fun id _ => if id = "bad" then .error (.validation id)
      else .ok id, fun _ => pure (), fun c => throw (.notFound c.id)⟩
    let missing : Cascade := ⟨"missing", .setDeleted false⟩
    let b : StagedBatch String := ⟨10, by decide, [.write "a", .cascade missing, .write "b"]⟩
    x.prepare "bad" default = .error (.validation "bad") ∧
    b.serve x.recorded (.change (.upsert "bad" default)) ((), []) =
      ⟨.error (.validation "bad"), b, (), []⟩ ∧
    b.Pushes x .push b.staged ∧
    Call.group b.staged = [.flush ["a"]] ++ .apply missing :: [.flush ["b"]] ∧
    x.FailsAt [.flush ["a"]] (.apply missing) (.notFound "missing") () () () ∧
    b.serve x.recorded .push ((), []) = ⟨.error (.notFound "missing"), ⟨10, by decide, []⟩, (),
      [⟨.flush ["a"], .ok ()⟩, ⟨.apply missing, .error (.notFound "missing")⟩]⟩ := by
  intro x missing b
  have hpush : b.Pushes x .push b.staged := .asked
  have hfails : x.FailsAt [.flush ["a"]] (.apply missing) (.notFound "missing") () () () :=
    ⟨rfl, rfl⟩
  obtain ⟨hunprepared, -, -⟩ :=
    failed_push_keeps_prefix x b (.change (.upsert "bad" default)) () []
  obtain ⟨-, hfailed, -⟩ := failed_push_keeps_prefix x b .push () []
  obtain ⟨-, -, hserve, -, -⟩ := hfailed _ _ _ [.flush ["b"]] _ _ _ hpush rfl hfails
  exact ⟨rfl, hunprepared _ _ _ rfl rfl, hpush, rfl, hfails, hserve⟩

end ResourceIndex.StagedBatch
