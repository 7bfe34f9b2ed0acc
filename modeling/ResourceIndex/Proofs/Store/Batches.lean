import ResourceIndex.Proofs.Batch.Session
import ResourceIndex.Store.Search
/-
Batches on a store. Its writes may be grouped at will, so neither the size of a batch nor the
places of its pushes show in the store.
-/
namespace ResourceIndex

namespace Store

section

variable [RegexBuilder]

/-- Later writes win over earlier ones to the same id, in one group as in two. -/
theorem executor_flushSplits : executor.FlushSplits := by
  intro ws vs
  funext s
  change (Except.ok (), s.writeAll (ws ++ vs)) = (Except.ok (), (s.writeAll ws).writeAll vs)
  rw [writeAll, List.foldl_append]
  rfl

theorem run_perform_put (s : Store) (r : Resource) :
    (executor.perform (.write (.put r))).run s = (.ok (), s.put r) := rfl

theorem run_apply (s : Store) (c : Cascade) :
    (executor.apply c).run s =
      match s.cascade c with
      | .ok t => (.ok (), t)
      | .error e => (.error e, s) := by
  change (ExceptT.run (match s.cascade c with
    | .ok t => (set t : Action Store PUnit)
    | .error e => throw e)) s = _
  cases s.cascade c with
  | ok t => rfl
  | error e => rfl

theorem run_submit_upsert (s : Store) (id : String) (r : Resource) :
    (engine.submit (.upsert id r)).run s = (.ok (), s.put (prepared id r)) := by
  rw [Engine.submit_eq_direct rfl]
  rfl

theorem run_submit_cascade (s : Store) (c : Cascade) :
    (engine.submit (.cascade c)).run s =
      match s.cascade c with
      | .ok t => (.ok (), t)
      | .error e => (.error e, s) := by
  rw [Engine.submit_eq_direct rfl]
  exact run_apply s c

end

end Store

namespace StagedBatch

/-- Whatever the executor, if it may split groups, a session without failures does what its
changes do one by one. A store's executor may, so its sessions agree for all sizes and pushes. -/
theorem session_succeeds_iff_directAll :
    (∀ {σ ω : Type} (x : Executor σ ω), x.FlushSplits →
      ∀ size, 0 < size → ∃ b : StagedBatch ω, ofSize size = .ok b ∧
        ∀ (rs : List Request) (s t : σ),
          (b.serveAll x (rs ++ [.push]) s).Succeeds t ↔ (x.directAll (changes rs)).Takes s t) ∧
    ∀ [RegexBuilder], Store.executor.FlushSplits ∧
    ∀ (n n' : Nat) (b b' : StagedBatch StoreWrite), ofSize n = .ok b → ofSize n' = .ok b' →
      ∀ rs rs' : List Request, changes rs = changes rs' → ∀ s t : Store,
        (b.serveAll Store.executor (rs ++ [.push]) s).Succeeds t ↔
          (b'.serveAll Store.executor (rs' ++ [.push]) s).Succeeds t := by
  refine ⟨?_, fun [RegexBuilder] => ⟨Store.executor_flushSplits, ?_⟩⟩
  · intro σ ω x hx size hsize
    refine ⟨⟨size, hsize, []⟩, dif_pos hsize, ?_⟩
    exact fun rs s t => serveAll_push_succeeds hx rfl rs s t
  · intro n n' b b' hb hb' rs rs' hrs s t
    have hx := Store.executor_flushSplits
    rw [serveAll_push_succeeds hx (staged_of_ofSize hb) rs s t,
      serveAll_push_succeeds hx (staged_of_ofSize hb') rs' s t, hrs]

/-- An id is written twice and deleted: in groups of two with a push between, and all at once. -/
theorem session_of_two_eq_session_of_five :
    let rs : List Request :=
      [.change (.upsert "a" (.bare "" "r" "/x")), .change (.upsert "b" (.bare "" "r" "/z")),
        .change (.upsert "a" (.bare "" "r" "/y")), .change (.delete "a"), .push,
        .change (.purge "b" false)]
    let t : Store := ⟨[{ Resource.bare "a" "r" "./y" with deleted := true }]⟩
    ((⟨2, by decide, []⟩ : StagedBatch StoreWrite).serveAll Store.executor
        (rs ++ [.push]) .empty).Succeeds t ∧
      ((⟨5, by decide, []⟩ : StagedBatch StoreWrite).serveAll Store.executor
        (rs.filter (· ≠ .push) ++ [.push]) .empty).Succeeds t := by
  intro rs t
  obtain ⟨hexec, hstore⟩ := session_succeeds_iff_directAll
  obtain ⟨hflush, hsize⟩ := hstore
  obtain ⟨b, hb, hrun⟩ := hexec Store.executor hflush 2 (by decide)
  cases hb
  have htwo := (hrun rs .empty t).mpr rfl
  exact ⟨htwo, (hsize 2 5 _ _ rfl rfl rs _ rfl .empty t).mp htwo⟩

end StagedBatch
end ResourceIndex
