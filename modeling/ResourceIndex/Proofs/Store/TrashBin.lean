import ResourceIndex.Proofs.Store.Descendants
import ResourceIndex.Proofs.Store.Purge
/-
Emptying the trash bin of a space. The call purges what is soft-deleted in the subtree of the
space's root, so it finds what lies below the root's path. It spares all live documents and all
other spaces, and leaves nothing in the trash bin but what cannot be found from the root: other
documents at the root's own path, and documents with a line feed in their paths.
-/
namespace ResourceIndex.Store

variable {s : Store} {root d : Resource}

/-- The document is the root of its space, or is found when all below the root is looked up. -/
def InReach (root d : Resource) : Prop :=
  d = root ∨ d.path ≠ Path.root ∧ '\n' ∉ d.path.toList

/-- The subtree of a space's root is what is in reach of it in the space. -/
theorem mem_subtree_spaceRoot_iff (hs : s.WellFormed) (hcontainer : root.isContainer = true)
    (hpath : root.path = Path.root) (hd : d ∈ s.docs) :
    d ∈ s.subtree root ↔ d.rootId = root.rootId ∧ InReach root d := by
  have hbelow : d ∈ s.below root ↔
      d.rootId = root.rootId ∧ d.path ≠ Path.root ∧ '\n' ∉ d.path.toList := by
    rw [mem_below_iff_foundBelow]
    constructor
    · rintro ⟨-, -, hspace, u, hu, hline⟩
      rw [hpath] at hu
      refine ⟨hspace, ?_, ?_⟩
      · exact ((Path.isWithin_and_ne_iff (hs.paths d hd) Path.normalize_root).mpr ⟨u, hu⟩).2
      · rw [hu, List.mem_append, List.mem_cons]
        rintro (hdot | hslash | hmem)
        · exact absurd hdot (by decide)
        · exact absurd hslash (by decide)
        · exact hline hmem
    · rintro ⟨hspace, hne, hline⟩
      obtain ⟨u, hu⟩ := (Path.isWithin_and_ne_iff (hs.paths d hd) Path.normalize_root).mp
        ⟨Path.isWithin_root d.path, hne⟩
      refine ⟨hd, hcontainer, hspace, u, by rw [hpath, hu], fun hmem => hline ?_⟩
      rw [hu]
      exact List.mem_append_right _ (List.mem_cons_of_mem _ hmem)
  rw [subtree, List.mem_cons, hbelow, InReach]
  constructor
  · rintro (rfl | ⟨hspace, hfound⟩)
    · exact ⟨rfl, .inl rfl⟩
    · exact ⟨hspace, .inr hfound⟩
  · rintro ⟨hspace, hroot | hfound⟩
    · exact .inl hroot
    · exact .inr ⟨hspace, hfound⟩

theorem mem_cascaded_purge_deleted_iff (hs : s.WellFormed) (hcontainer : root.isContainer = true)
    (hpath : root.path = Path.root) :
    d ∈ (s.cascaded root (.purge true)).docs ↔
      d ∈ s.docs ∧ ¬ (d.deleted = true ∧ d.rootId = root.rootId ∧ InReach root d) := by
  rw [cascaded, without, List.mem_filter, decide_eq_true_eq, List.mem_filter]
  refine and_congr_right fun hd => not_congr ?_
  rw [mem_subtree_spaceRoot_iff hs hcontainer hpath hd, and_comm]
  rfl

/-- Emptying the trash bin of a space, whose root is stored as a container, removes the soft-deleted
documents of the space that are in reach of the root, and nothing else. So it is complete exactly if
every soft-deleted document of the space is in reach. It fails only if the builder refuses the
expression for what lies below the path of a root, which is the same for all spaces. -/
theorem purge_deleted_complete_iff [RegexBuilder] (hs : s.Reachable) {space : SpaceId}
    (hr : s.get? space.rootId.text = some root) (hcontainer : root.isContainer = true)
    (hspace : root.rootId = space.rootId.text) (hpath : root.path = Path.root) :
    (∀ reason, RegexBuilder.refusal? (belowRegex Path.root) = some reason →
      ∀ x : Indexer Store StoreWrite, x.engine = engine →
        (x.purgeDeleted space).run s = (.error (.store reason), s)) ∧
    (RegexBuilder.refusal? (belowRegex Path.root) = none →
      ∃ t, (∀ x : Indexer Store StoreWrite, x.engine = engine →
        (x.purgeDeleted space).run s = (.ok (), t)) ∧
      (∀ d, d ∈ t.docs ↔ d ∈ s.docs ∧
        ¬ (d.deleted = true ∧ d.rootId = space.rootId.text ∧ InReach root d)) ∧
      (∀ id d, s.get? id = some d → d.deleted = false ∨ d.rootId ≠ space.rootId.text →
        t.get? id = some d) ∧
      ((∀ d ∈ t.docs, d.rootId = space.rootId.text → d.deleted = false) ↔
        ∀ d ∈ s.docs, d.rootId = space.rootId.text → d.deleted = true → InReach root d)) := by
  have hlookup : lookupFault? root =
      (RegexBuilder.refusal? (belowRegex Path.root)).map .store := by
    rw [lookupFault?, if_pos hcontainer, hpath]
  have hwf := hs.wellFormed
  have hmem : ∀ d, d ∈ (s.cascaded root (.purge true)).docs ↔ d ∈ s.docs ∧
      ¬ (d.deleted = true ∧ d.rootId = space.rootId.text ∧ InReach root d) := by
    rw [← hspace]
    exact fun d => mem_cascaded_purge_deleted_iff hwf hcontainer hpath
  constructor
  · intro reason hrefusal x hx
    rw [Indexer.purgeDeleted, hx]
    exact run_submit_of_lookupFault hr (by rw [hlookup, hrefusal, Option.map_some])
  intro hrefusal
  refine ⟨s.cascaded root (.purge true), ?_, hmem, ?_, ?_⟩
  · intro x hx
    rw [Indexer.purgeDeleted, hx]
    exact run_submit_of_get? hwf.ids hr (by rw [hlookup, hrefusal, Option.map_none])
  · intro id d hd hspared
    obtain ⟨hstored, hid⟩ := mem_and_id_eq_of_get? hd
    have hids : (s.cascaded root (.purge true)).IdsUnique := hwf.ids.without _
    refine (get?_eq_some_iff hids).mpr ⟨(hmem d).mpr ⟨hstored, ?_⟩, hid⟩
    rintro ⟨hdeleted, hown, -⟩
    rcases hspared with hlive | hother
    · exact Bool.false_ne_true (hlive.symm.trans hdeleted)
    · exact hother hown
  · constructor
    · intro hempty d hd hown hdeleted
      by_contra hreach
      have hleft := hempty d ((hmem d).mpr ⟨hd, fun h => hreach h.2.2⟩) hown
      exact Bool.false_ne_true (hleft.symm.trans hdeleted)
    · intro hreach d hd hown
      obtain ⟨hstored, hkept⟩ := (hmem d).mp hd
      rw [← Bool.not_eq_true]
      exact fun hdeleted => hkept ⟨hdeleted, hown, hreach d hstored hown hdeleted⟩

/-- A trashed folder holds a live file that came later, and a trashed one. Another space has a
trashed file at a path of theirs. -/
theorem purge_deleted_below_trashed_folder :
    let s : Store := ⟨[⟨"st$sp!sp", "st$sp!sp", ".", "", .container, false, false, .empty⟩,
      ⟨"1", "st$sp!sp", "./a", "", .container, true, false, .empty⟩,
      ⟨"2", "st$sp!sp", "./a/b/y", "", .file, true, false, .empty⟩, .bare "3" "st$sp!sp" "./a/x",
      ⟨"4", "st$sq!sq", "./a/x", "", .file, true, false, .empty⟩]⟩
    let x : Indexer Store StoreWrite := ⟨engine, .ofShelf [], 10, by decide⟩
    s.Reachable ∧ ∃ root t, s.get? (SpaceId.rootId ⟨"st", "sp"⟩).text = some root ∧
      root.isContainer = true ∧ root.rootId = (SpaceId.rootId ⟨"st", "sp"⟩).text ∧
      root.path = Path.root ∧ (x.purgeDeleted ⟨"st", "sp"⟩).run s = (.ok (), t) ∧
      (∀ d ∈ t.docs, d.rootId = (SpaceId.rootId ⟨"st", "sp"⟩).text → d.deleted = false) ∧
      t.docs.map (·.id) = ["st$sp!sp", "3", "4"] := by
  intro s x
  have hs : s.Reachable := (((((Reachable.empty.put "st$sp!sp"
    ⟨"", "st$sp!sp", "/", "", .container, false, false, .empty⟩).put "1"
    ⟨"", "st$sp!sp", "/a", "", .container, true, false, .empty⟩).put "2"
    ⟨"", "st$sp!sp", "/a/b/y", "", .file, true, false, .empty⟩).put "3"
    (.bare "" "st$sp!sp" "/a/x")).put "4" ⟨"", "st$sq!sq", "/a/x", "", .file, true, false, .empty⟩)
  have hroot : s.get? (SpaceId.rootId ⟨"st", "sp"⟩).text =
      some ⟨"st$sp!sp", "st$sp!sp", ".", "", .container, false, false, .empty⟩ := by decide
  obtain ⟨t, hrun, -, -, hcomplete⟩ :=
    (purge_deleted_complete_iff hs hroot (by decide) (by decide) (by decide)).2 (by decide)
  have hreach : ∀ d ∈ s.docs, d.path ≠ Path.root ∧ '\n' ∉ d.path.toList ∨
      d = ⟨"st$sp!sp", "st$sp!sp", ".", "", .container, false, false, .empty⟩ := by decide
  refine ⟨hs, _, t, hroot, by decide, by decide, by decide, hrun x rfl, ?_, ?_⟩
  · exact hcomplete.mpr fun d hd _ _ => (hreach d hd).symm
  · have hids : ((x.purgeDeleted ⟨"st", "sp"⟩).run s).2.docs.map (·.id) =
        ["st$sp!sp", "3", "4"] := by decide
    rwa [hrun x rfl] at hids

/-- A trashed file with a line feed in its name stays in the trash bin, and so does one at the path
of the root. -/
theorem trashed_out_of_reach_survives :
    let s : Store := ⟨[⟨"st$sp!sp", "st$sp!sp", ".", "", .container, false, false, .empty⟩,
      ⟨"st$sp!1", "st$sp!sp", "./x\ny", "", .file, true, false, .empty⟩,
      ⟨"st$sp!2", "st$sp!sp", ".", "", .file, true, false, .empty⟩]⟩
    let x : Indexer Store StoreWrite := ⟨engine, .ofShelf [], 10, by decide⟩
    s.Reachable ∧
      (∃ root, s.get? (SpaceId.rootId ⟨"st", "sp"⟩).text = some root ∧ root.isContainer = true ∧
        root.rootId = (SpaceId.rootId ⟨"st", "sp"⟩).text ∧ root.path = Path.root) ∧
      (x.purgeDeleted ⟨"st", "sp"⟩).run s = (.ok (), s) ∧
      ¬ ∀ d ∈ s.docs, d.rootId = (SpaceId.rootId ⟨"st", "sp"⟩).text → d.deleted = false := by
  intro s x
  have hs : s.Reachable := ((Reachable.empty.put "st$sp!sp"
    ⟨"", "st$sp!sp", "/", "", .container, false, false, .empty⟩).put "st$sp!1"
    ⟨"", "st$sp!sp", "/x\ny", "", .file, true, false, .empty⟩).put "st$sp!2"
    ⟨"", "st$sp!sp", "/", "", .file, true, false, .empty⟩
  exact ⟨hs, ⟨_, rfl, by decide, by decide, by decide⟩, rfl, by decide⟩

end ResourceIndex.Store
