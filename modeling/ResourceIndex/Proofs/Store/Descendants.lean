import ResourceIndex.Proofs.Store.Reachable
/-
What the lookup of descendants finds in a reachable store. Whatever characters the paths hold, it
finds documents strictly below the path only, each of them once. It misses those that have a line
feed behind the path.
-/
namespace ResourceIndex.Store

variable {s : Store}

/-- The document is stored in the space and its path lies below the path, which it is not. -/
structure StrictlyBelow (s : Store) (rootId path : String) (d : Resource) : Prop where
  stored : d ∈ s.docs
  space : d.rootId = rootId
  within : Path.isWithin d.path path = true
  ne : d.path ≠ path

theorem mem_descendants_iff_strictlyBelow (hs : s.WellFormed) {rootId path : String}
    (hpath : Path.normalize path = path) {d : Resource} :
    d ∈ s.descendants rootId path ↔
      s.StrictlyBelow rootId path d ∧ '\n' ∉ d.path.toList.drop path.toList.length := by
  rw [mem_descendants_iff]
  constructor
  · rintro ⟨hd, hroot, u, hu, hline⟩
    obtain ⟨hwithin, hne⟩ := (Path.isWithin_and_ne_iff (hs.paths d hd) hpath).mpr ⟨u, hu⟩
    refine ⟨⟨hd, hroot, hwithin, hne⟩, ?_⟩
    rw [hu, List.drop_left, List.mem_cons, not_or]
    exact ⟨by decide, hline⟩
  · rintro ⟨⟨hd, hroot, hwithin, hne⟩, hline⟩
    obtain ⟨u, hu⟩ := (Path.isWithin_and_ne_iff (hs.paths d hd) hpath).mp ⟨hwithin, hne⟩
    rw [hu, List.drop_left, List.mem_cons, not_or] at hline
    exact ⟨hd, hroot, u, hu, hline.2⟩

/-- The lookup is exact unless a document strictly below has a line feed behind the path. -/
theorem descendants_exact_iff (hs : s.Reachable) {c : Resource} (hc : c ∈ s.docs)
    (rootId : String) :
    (s.descendants rootId c.path).Nodup ∧
      (∀ d, d ∈ s.descendants rootId c.path ↔
        s.StrictlyBelow rootId c.path d ∧ '\n' ∉ d.path.toList.drop c.path.toList.length) ∧
      ((∀ d, d ∈ s.descendants rootId c.path ↔ s.StrictlyBelow rootId c.path d) ↔
        ∀ d, s.StrictlyBelow rootId c.path d →
          '\n' ∉ d.path.toList.drop c.path.toList.length) := by
  have hwf := hs.wellFormed
  have hmem : ∀ d, d ∈ s.descendants rootId c.path ↔
      s.StrictlyBelow rootId c.path d ∧ '\n' ∉ d.path.toList.drop c.path.toList.length := fun d =>
    mem_descendants_iff_strictlyBelow hwf (hwf.paths c hc)
  refine ⟨hwf.ids.nodup.filter _, hmem, ?_⟩
  constructor
  · intro hexact d hd
    exact ((hmem d).mp ((hexact d).mpr hd)).2
  · intro hline d
    rw [hmem d]
    exact and_iff_left_of_imp (hline d)

/-- The path is full of operators, and a path of the space only looks like one below it. -/
theorem descendants_of_operators :
    let s : Store := ⟨[⟨"1", "r", "./a+(.*", "", .container, false, false, .empty⟩,
      .bare "2" "r" "./a+(.*/[x]", .bare "3" "r" "./a+(.*x/y", .bare "4" "q" "./a+(.*/z"]⟩
    s.Reachable ∧ (∀ d, d ∈ s.descendants "r" "./a+(.*" ↔ s.StrictlyBelow "r" "./a+(.*" d) ∧
      (s.descendants "r" "./a+(.*").map (·.id) = ["2"] := by
  intro s
  have hs : s.Reachable := (((Reachable.empty.put "1"
    ⟨"", "r", "/a+(.*", "", .container, false, false, .empty⟩).put "2"
    (.bare "" "r" "/a+(.*/[x]")).put "3" (.bare "" "r" "/a+(.*x/y")).put "4"
    (.bare "" "q" "/a+(.*/z")
  obtain ⟨-, -, hexact⟩ := descendants_exact_iff hs List.mem_cons_self "r"
  refine ⟨hs, hexact.mpr ?_, rfl⟩
  have hline : ∀ d ∈ s.docs, '\n' ∉ d.path.toList.drop 7 := by decide
  exact fun d hd => hline d hd.stored

/-- A file whose name holds a line feed is not found below its folder. -/
theorem line_feed_hides_descendant :
    let s : Store := ⟨[⟨"st$sp!a", "st$sp!sp", "./a", "", .container, false, false, .empty⟩,
      .bare "st$sp!b" "st$sp!sp" "./a/x\ny"]⟩
    s.Reachable ∧ (∃ c ∈ s.docs, c.isContainer = true ∧ c.path = "./a") ∧
      ¬ ∀ d, d ∈ s.descendants "st$sp!sp" "./a" ↔ s.StrictlyBelow "st$sp!sp" "./a" d := by
  intro s
  have hs : s.Reachable := (Reachable.empty.put "st$sp!a"
    ⟨"", "st$sp!sp", "/a", "", .container, false, false, .empty⟩).put "st$sp!b"
    (.bare "" "st$sp!sp" "/a/x\ny")
  have hbelow : s.StrictlyBelow "st$sp!sp" "./a" (.bare "st$sp!b" "st$sp!sp" "./a/x\ny") :=
    ⟨List.mem_cons_of_mem _ List.mem_cons_self, rfl, rfl, by decide⟩
  have hnone : s.descendants "st$sp!sp" "./a" = [] := rfl
  refine ⟨hs, ⟨_, List.mem_cons_self, rfl, rfl⟩, ?_⟩
  intro hexact
  have hfound := (hexact _).mpr hbelow
  rw [hnone] at hfound
  exact List.not_mem_nil hfound

end ResourceIndex.Store
