import ResourceIndex.Identity
import ResourceIndex.Proofs.Text.Cut
/-
Texts of identities. An identity whose parts hold no mark that could be taken for the one behind
them is told by its text, and what is read of a space holds none.
-/
namespace ResourceIndex

open Text

namespace SpaceId

variable {a b : SpaceId}

theorem toList_text (id : SpaceId) : id.text.toList =
    (if id.storageId.isEmpty then [] else id.storageId.toList ++ ['$']) ++ id.spaceId.toList := by
  unfold text
  split <;> simp

/-- The text read from its end: the mark of the storage is the first one. -/
theorem text_inj (ha : '$' ∉ a.spaceId.toList) (hb : '$' ∉ b.spaceId.toList)
    (h : a.text = b.text) : a = b := by
  have hled : ∀ id : SpaceId,
      Led '$' (if id.storageId.isEmpty then [] else id.storageId.toList ++ ['$']).reverse := by
    intro id
    split
    · exact .inl rfl
    · exact .inr ⟨id.storageId.toList.reverse, by simp⟩
  have hreverse := congrArg (fun t => t.toList.reverse) h
  simp only [toList_text, List.reverse_append] at hreverse
  obtain ⟨hspace, hstorage⟩ := append_inj_of_led (by simpa using ha) (by simpa using hb)
    (hled a) (hled b) hreverse
  rw [List.reverse_inj] at hspace hstorage
  have hstorages : a.storageId = b.storageId := by
    by_cases hea : a.storageId.isEmpty = true <;> by_cases heb : b.storageId.isEmpty = true
    · rw [String.isEmpty_iff.mp hea, String.isEmpty_iff.mp heb]
    · simp [hea, heb] at hstorage
    · simp [hea, heb] at hstorage
    · rw [if_neg hea, if_neg heb] at hstorage
      exact String.toList_inj.mp (List.append_cancel_right hstorage)
  cases a
  cases b
  exact SpaceId.mk.injEq .. ▸ ⟨hstorages, String.toList_inj.mp hspace⟩

end SpaceId

namespace ResourceId

variable {a b : ResourceId}

/-- No mark stands in a part before the one that it is to lead. -/
structure IsPlain (id : ResourceId) : Prop where
  storage : '!' ∉ id.storageId.toList
  space : '!' ∉ id.spaceId.toList ∧ '$' ∉ id.spaceId.toList

theorem toList_text (id : ResourceId) : id.text.toList =
    id.space.text.toList ++ if id.opaqueId.isEmpty then [] else '!' :: id.opaqueId.toList := by
  unfold text
  split <;> simp

theorem IsPlain.notMem_space_text (h : a.IsPlain) : '!' ∉ a.space.text.toList := by
  rw [SpaceId.toList_text, List.mem_append, not_or]
  refine ⟨?_, h.space.1⟩
  split
  · exact List.not_mem_nil
  · intro hm
    rcases List.mem_append.mp hm with hm | hm
    · exact h.storage hm
    · exact absurd (List.mem_singleton.mp hm) (by decide)

theorem IsPlain.text_inj (ha : a.IsPlain) (hb : b.IsPlain) (h : a.text = b.text) : a = b := by
  have hled : ∀ id : ResourceId,
      Led '!' (if id.opaqueId.isEmpty then [] else '!' :: id.opaqueId.toList) := by
    intro id
    split
    · exact .inl rfl
    · exact .inr ⟨_, rfl⟩
  have hlist := congrArg String.toList h
  rw [toList_text, toList_text] at hlist
  obtain ⟨hspace, hopaque⟩ := append_inj_of_led ha.notMem_space_text hb.notMem_space_text
    (hled a) (hled b) hlist
  have hspaces : a.space = b.space :=
    SpaceId.text_inj ha.space.2 hb.space.2 (String.toList_inj.mp hspace)
  have hopaques : a.opaqueId = b.opaqueId := by
    by_cases hea : a.opaqueId.isEmpty = true <;> by_cases heb : b.opaqueId.isEmpty = true
    · rw [String.isEmpty_iff.mp hea, String.isEmpty_iff.mp heb]
    · simp [hea, heb] at hopaque
    · simp [hea, heb] at hopaque
    · rw [if_neg hea, if_neg heb] at hopaque
      exact String.toList_inj.mp (List.cons.inj hopaque).2
  obtain ⟨hstorage, hspace⟩ := SpaceId.mk.inj hspaces
  cases a
  cases b
  simp_all

end ResourceId

/-- What is read of a space holds no mark of a resource. -/
theorem SpaceId.notMem_of_ofChars {s : List Char} {id : SpaceId} (h : SpaceId.ofChars s = .ok id) :
    '!' ∉ id.storageId.toList ∧ '!' ∉ id.spaceId.toList ∧ '$' ∉ id.spaceId.toList := by
  unfold SpaceId.ofChars at h
  dsimp only at h
  split at h
  · cases h
  · rename_i hmark
    rw [not_or] at hmark
    split at h
    · cases h
    · rename_i hspace
      rw [not_or] at hspace
      cases h
      simp only [String.toList_ofList]
      cases hcut : cutAt? '$' s with
      | none =>
        rw [hcut] at hspace
        exact ⟨List.not_mem_nil, hmark.2, hspace.2⟩
      | some p =>
        rw [hcut] at hspace
        obtain ⟨-, hs⟩ := notMem_of_cutAt? hcut
        refine ⟨?_, ?_, hspace.2⟩
        · exact fun hm => hmark.2 (hs ▸ List.mem_append_left _ hm)
        · exact fun hm => hmark.2 (hs ▸ List.mem_append_right _ (List.mem_cons_of_mem _ hm))

end ResourceIndex
