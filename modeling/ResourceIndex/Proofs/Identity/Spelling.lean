import ResourceIndex.Proofs.Identity.Text
import ResourceIndex.Proofs.Text.Blank
/-
How identities are spelled. The mark of a part that is missing may be written or left out, and
these are all the texts that are read as the identity. Its own text leaves the marks out, so a
part with blanks around it may come to stand at an end of the text, where blanks are passed over.
-/
namespace ResourceIndex

open Text (isBlank cutAt? IsTrimmed)

namespace SpaceId

variable {id : SpaceId} {s : List Char}

/-- The parts can be told apart in the text of the space, and the space itself is not missing. -/
structure IsLegible (id : SpaceId) : Prop where
  ne_empty : id.spaceId ≠ ""
  storage : '!' ∉ id.storageId.toList ∧ '$' ∉ id.storageId.toList
  space : '!' ∉ id.spaceId.toList ∧ '$' ∉ id.spaceId.toList

theorem IsLegible.toList_spaceId_ne_nil (h : id.IsLegible) : id.spaceId.toList ≠ [] :=
  fun hnil => h.ne_empty (String.toList_eq_nil_iff.mp hnil)

/-- The text spells the space; the mark of a missing storage may stand there. -/
def IsSpelled (s : List Char) (id : SpaceId) : Prop :=
  s = id.storageId.toList ++ '$' :: id.spaceId.toList ∨ id.storageId = "" ∧ s = id.spaceId.toList

theorem isSpelled_text (id : SpaceId) : IsSpelled id.text.toList id := by
  rw [IsSpelled, toList_text]
  by_cases h : id.storageId = ""
  · exact .inr ⟨h, by rw [if_pos (String.isEmpty_iff.mpr h), List.nil_append]⟩
  · have hne : ¬ id.storageId.isEmpty = true := fun he => h (String.isEmpty_iff.mp he)
    exact .inl (by rw [if_neg hne, List.append_assoc, List.singleton_append])

theorem IsLegible.notMem_of_isSpelled (h : id.IsLegible) (hs : IsSpelled s id) : '!' ∉ s := by
  rcases hs with rfl | ⟨-, rfl⟩
  · rw [List.mem_append, List.mem_cons, not_or, not_or]
    exact ⟨h.storage.1, by decide, h.space.1⟩
  · exact h.space.1

theorem IsLegible.ne_nil_of_isSpelled (h : id.IsLegible) (hs : IsSpelled s id) : s ≠ [] := by
  rcases hs with rfl | ⟨-, rfl⟩
  · exact List.append_ne_nil_of_right_ne_nil _ (List.cons_ne_nil _ _)
  · exact h.toList_spaceId_ne_nil

theorem IsLegible.ofChars_of_isSpelled (h : id.IsLegible) (hs : IsSpelled s id) :
    ofChars s = .ok id := by
  have hcut : (cutAt? '$' s).getD ([], s) = (id.storageId.toList, id.spaceId.toList) := by
    rcases hs with rfl | ⟨hstorage, rfl⟩
    · rw [Text.cutAt?_append_cons h.storage.2, Option.getD_some]
    · rw [Text.cutAt?_eq_none_iff.mpr h.space.2, Option.getD_none, hstorage]
      rfl
  rw [ofChars, hcut]
  simp only [h.ne_nil_of_isSpelled hs, h.notMem_of_isSpelled hs, h.toList_spaceId_ne_nil,
    h.space.2, or_self, if_false, String.ofList_toList]

theorem isSpelled_of_ofChars (h : ofChars s = .ok id) : id.IsLegible ∧ IsSpelled s id := by
  obtain ⟨hstorage, hspace⟩ := notMem_of_ofChars h
  unfold ofChars at h
  dsimp only at h
  split at h
  · cases h
  · split at h
    · cases h
    · rename_i hmarks
      rw [not_or] at hmarks
      cases h
      simp only [String.toList_ofList] at hstorage hspace
      have hne : String.ofList ((cutAt? '$' s).getD ([], s)).2 ≠ "" := by
        rw [ne_eq, ← String.toList_eq_nil_iff, String.toList_ofList]
        exact hmarks.1
      simp only [IsSpelled, String.toList_ofList]
      cases hcut : cutAt? '$' s with
      | none =>
        rw [hcut, Option.getD_none] at hstorage hspace hne
        refine ⟨⟨hne, ?_, ?_⟩, .inr ⟨rfl, rfl⟩⟩
        · exact ⟨hstorage, List.not_mem_nil⟩
        · rwa [String.toList_ofList]
      | some p =>
        obtain ⟨hnot, hs⟩ := Text.notMem_of_cutAt? hcut
        rw [hcut, Option.getD_some] at hstorage hspace hne
        refine ⟨⟨hne, ?_, ?_⟩, .inl hs⟩
        · rw [String.toList_ofList]
          exact ⟨hstorage, hnot⟩
        · rwa [String.toList_ofList]

/-- The texts that are read as a space are its spellings. -/
theorem ofChars_eq_ok_iff : ofChars s = .ok id ↔ id.IsLegible ∧ IsSpelled s id :=
  ⟨isSpelled_of_ofChars, fun h => h.1.ofChars_of_isSpelled h.2⟩

/-- No spelling is shorter than the text. -/
theorem length_text_le (hs : IsSpelled s id) : id.text.toList.length ≤ s.length := by
  rw [toList_text]
  rcases hs with rfl | ⟨hstorage, rfl⟩
  · split
    · simp only [List.length_append, List.length_nil, List.length_cons]
      omega
    · simp only [List.length_append, List.length_nil, List.length_cons]
      omega
  · rw [if_pos (String.isEmpty_iff.mpr hstorage), List.nil_append]

theorem head?_of_isSpelled (hs : IsSpelled s id) (hstorage : id.storageId ≠ "") :
    s.head? = id.storageId.toList.head? ∧ s ≠ [] := by
  have hne : id.storageId.toList ≠ [] := fun hnil => hstorage (String.toList_eq_nil_iff.mp hnil)
  rcases hs with rfl | ⟨hempty, -⟩
  · exact ⟨List.head?_append_of_ne_nil _ hne, List.append_ne_nil_of_left_ne_nil hne _⟩
  · exact absurd hempty hstorage

theorem text_of_storageId (hstorage : id.storageId = "") : id.text = id.spaceId :=
  if_pos (String.isEmpty_iff.mpr hstorage)

theorem IsLegible.getLast?_text (h : id.IsLegible) :
    id.text.toList.getLast? = id.spaceId.toList.getLast? := by
  rw [toList_text, List.getLast?_append_of_ne_nil _ h.toList_spaceId_ne_nil]

end SpaceId

namespace ResourceId

variable {id : ResourceId} {s p : List Char}

/-- The parts can be told apart in the text of the resource. -/
structure IsLegible (id : ResourceId) : Prop where
  place : id.space.IsLegible
  own : '!' ∉ id.opaqueId.toList

/-- The text spells the resource; the marks of missing parts may stand there. -/
def IsSpelled (s : List Char) (id : ResourceId) : Prop :=
  ∃ p, SpaceId.IsSpelled p id.space ∧
    (s = p ++ '!' :: id.opaqueId.toList ∨ id.opaqueId = "" ∧ s = p)

theorem isSpelled_text (id : ResourceId) : IsSpelled id.text.toList id := by
  refine ⟨id.space.text.toList, SpaceId.isSpelled_text id.space, ?_⟩
  rw [toList_text]
  by_cases h : id.opaqueId = ""
  · exact .inr ⟨h, by rw [if_pos (String.isEmpty_iff.mpr h), List.append_nil]⟩
  · have hne : ¬ id.opaqueId.isEmpty = true := fun he => h (String.isEmpty_iff.mp he)
    exact .inl (by rw [if_neg hne])

theorem IsLegible.ofChars_of_isSpelled (h : id.IsLegible) (hs : IsSpelled s id) :
    ofChars s = .ok id := by
  obtain ⟨p, hp, hs⟩ := hs
  have hspace := h.place.ofChars_of_isSpelled hp
  have hp' := h.place.notMem_of_isSpelled hp
  have hne : s ≠ [] := by
    rcases hs with rfl | ⟨-, rfl⟩
    · exact List.append_ne_nil_of_right_ne_nil _ (List.cons_ne_nil _ _)
    · exact h.place.ne_nil_of_isSpelled hp
  have hcut : (cutAt? '!' s).getD (s, []) = (p, id.opaqueId.toList) := by
    rcases hs with rfl | ⟨hown, rfl⟩
    · rw [Text.cutAt?_append_cons hp', Option.getD_some]
    · rw [Text.cutAt?_eq_none_iff.mpr hp', Option.getD_none, hown]
      rfl
  rw [ofChars, if_neg hne, hcut]
  simp only [hspace, h.own, if_false, String.ofList_toList]
  rfl

theorem isSpelled_of_ofChars (h : ofChars s = .ok id) : id.IsLegible ∧ IsSpelled s id := by
  unfold ofChars at h
  dsimp only at h
  split at h
  · cases h
  · split at h
    · cases h
    · rename_i space hspace
      obtain ⟨hlegible, hspelled⟩ := SpaceId.isSpelled_of_ofChars hspace
      split at h
      · cases h
      · rename_i hown
        cases h
        simp only [IsSpelled, String.toList_ofList]
        refine ⟨⟨hlegible, by rwa [String.toList_ofList]⟩, _, hspelled, ?_⟩
        cases hcut : cutAt? '!' s with
        | none => exact .inr ⟨rfl, rfl⟩
        | some q => exact .inl (Text.notMem_of_cutAt? hcut).2

/-- The texts without blanks around them that are read as a resource are its spellings. -/
theorem ofChars_eq_ok_iff : ofChars s = .ok id ↔ id.IsLegible ∧ IsSpelled s id :=
  ⟨isSpelled_of_ofChars, fun h => h.1.ofChars_of_isSpelled h.2⟩

theorem length_text_le (hs : IsSpelled s id) : id.text.toList.length ≤ s.length := by
  obtain ⟨p, hp, hs⟩ := hs
  have hspace := SpaceId.length_text_le hp
  rw [toList_text]
  rcases hs with rfl | ⟨hown, rfl⟩
  · split
    · simp only [List.length_append, List.length_nil, List.length_cons]
      omega
    · simp only [List.length_append, List.length_cons]
      omega
  · rwa [if_pos (String.isEmpty_iff.mpr hown), List.append_nil]

/-- All spellings begin like the storage, if there is one. -/
theorem head?_of_isSpelled (hs : IsSpelled s id) (hstorage : id.storageId ≠ "") :
    s.head? = id.storageId.toList.head? := by
  obtain ⟨p, hp, hs⟩ := hs
  obtain ⟨hhead, hne⟩ := SpaceId.head?_of_isSpelled hp hstorage
  rcases hs with rfl | ⟨-, rfl⟩
  · rw [List.head?_append_of_ne_nil _ hne, hhead]
    rfl
  · exact hhead

/-- All spellings end like the own id, if there is one. -/
theorem getLast?_of_isSpelled (hs : IsSpelled s id) (hown : id.opaqueId ≠ "") :
    s.getLast? = id.opaqueId.toList.getLast? := by
  have hne : id.opaqueId.toList ≠ [] := fun hnil => hown (String.toList_eq_nil_iff.mp hnil)
  obtain ⟨p, -, rfl | ⟨hempty, -⟩⟩ := hs
  · rw [List.append_cons, List.getLast?_append_of_ne_nil _ hne]
  · exact absurd hempty hown

theorem IsLegible.head?_text (h : id.IsLegible) (hstorage : id.storageId = "") :
    id.text.toList.head? = id.spaceId.toList.head? := by
  rw [toList_text, SpaceId.text_of_storageId hstorage]
  exact List.head?_append_of_ne_nil _ h.place.toList_spaceId_ne_nil

theorem IsLegible.getLast?_text (h : id.IsLegible) (hown : id.opaqueId = "") :
    id.text.toList.getLast? = id.spaceId.toList.getLast? := by
  rw [toList_text, if_pos (String.isEmpty_iff.mpr hown), List.append_nil, h.place.getLast?_text]
  rfl

/-- Only a part beside a missing one can bring a blank to an end of the text. -/
theorem IsLegible.isTrimmed_text_iff (h : id.IsLegible) (hs : IsSpelled s id) (ht : IsTrimmed s) :
    IsTrimmed id.text.toList ↔
      (id.storageId = "" → ∀ c, id.spaceId.toList.head? = some c → isBlank c = false) ∧
        (id.opaqueId = "" → ∀ c, id.spaceId.toList.getLast? = some c → isBlank c = false) := by
  have htext := isSpelled_text id
  constructor
  · intro htrimmed
    constructor
    · intro hstorage c hc
      exact htrimmed.head c (by rwa [h.head?_text hstorage])
    · intro hown c hc
      exact htrimmed.last c (by rwa [h.getLast?_text hown])
  · rintro ⟨hhead, hlast⟩
    constructor
    case head =>
      intro c hc
      by_cases hstorage : id.storageId = ""
      · exact hhead hstorage c (by rwa [h.head?_text hstorage] at hc)
      · rw [head?_of_isSpelled htext hstorage, ← head?_of_isSpelled hs hstorage] at hc
        exact ht.head c hc
    case last =>
      intro c hc
      by_cases hown : id.opaqueId = ""
      · exact hlast hown c (by rwa [h.getLast?_text hown] at hc)
      · rw [getLast?_of_isSpelled htext hown, ← getLast?_of_isSpelled hs hown] at hc
        exact ht.last c hc

theorem IsLegible.parse_text_eq_iff (h : id.IsLegible) :
    parse id.text = .ok id ↔ IsTrimmed id.text.toList := by
  rw [parse, ofChars_eq_ok_iff, ← Text.trim_eq_self_iff]
  constructor
  · rintro ⟨-, hs⟩
    exact Text.trim_eq_of_length_le (length_text_le hs)
  · intro htrim
    rw [htrim]
    exact ⟨h, isSpelled_text id⟩

/-- What was read is read again from its text, unless a missing part lets the blanks of the space
come to an end of it. -/
theorem parse_text_of_parse_iff {text : String} (h : parse text = .ok id) :
    parse id.text = .ok id ↔
      (id.storageId = "" → ∀ c, id.spaceId.toList.head? = some c → isBlank c = false) ∧
        (id.opaqueId = "" → ∀ c, id.spaceId.toList.getLast? = some c → isBlank c = false) := by
  obtain ⟨hlegible, hs⟩ := isSpelled_of_ofChars h
  rw [hlegible.parse_text_eq_iff]
  exact hlegible.isTrimmed_text_iff hs (Text.isTrimmed_trim text.toList)

/-- Blanks inside, and marks that say nothing. -/
theorem parse_text_of_parse_blanks :
    let id : ResourceId := ⟨"st", " sp ", "$o"⟩
    parse "\tst$ sp !$o " = .ok id ∧ id.text = "st$ sp !$o" ∧ parse id.text = .ok id := by
  intro id
  have h : parse "\tst$ sp !$o " = .ok id := by decide +kernel
  refine ⟨h, by decide, (parse_text_of_parse_iff h).mpr ⟨?_, ?_⟩⟩
  · exact fun hstorage => absurd hstorage (by decide)
  · exact fun hown => absurd hown (by decide)

/-- The mark of the missing storage kept the blank from the start of the text. -/
theorem parse_text_of_blank_space :
    parse "$ sp!o" = .ok ⟨"", " sp", "o"⟩ ∧ text ⟨"", " sp", "o"⟩ = " sp!o" ∧
      parse " sp!o" = .ok ⟨"", "sp", "o"⟩ ∧
      parse "$ !o" = .ok ⟨"", " ", "o"⟩ ∧ text ⟨"", " ", "o"⟩ = " !o" ∧
      parse " !o" = .error ⟨""⟩ ∧
      parse "st$sp !" = .ok ⟨"st", "sp ", ""⟩ ∧ text ⟨"st", "sp ", ""⟩ = "st$sp " ∧
      parse "st$sp " = .ok ⟨"st", "sp", ""⟩ := by
  decide +kernel

end ResourceId

theorem SpaceId.IsLegible.parse_text {id : SpaceId} (h : id.IsLegible) :
    SpaceId.parse id.text = .ok id := h.ofChars_of_isSpelled (SpaceId.isSpelled_text id)

/-- Legible identities are read again from their texts, and no two have a text in common. Around
the text of a space blanks are kept; around that of a resource there have to be none. -/
theorem legible_text_read_back :
    (∀ id : ResourceId, id.IsLegible → IsTrimmed id.text.toList →
      ResourceId.parse id.text = .ok id) ∧
    (∀ id : SpaceId, id.IsLegible → SpaceId.parse id.text = .ok id) ∧
    (∀ a b : ResourceId, a.IsLegible → b.IsLegible → a ≠ b → a.text ≠ b.text) ∧
    (∀ a b : SpaceId, a.IsLegible → b.IsLegible → a ≠ b → a.text ≠ b.text) := by
  refine ⟨fun id h ht => h.parse_text_eq_iff.mpr ht, fun id h => h.parse_text, ?_, ?_⟩
  · intro a b ha hb hne htext
    have hread := ha.ofChars_of_isSpelled (ResourceId.isSpelled_text a)
    rw [htext, hb.ofChars_of_isSpelled (ResourceId.isSpelled_text b)] at hread
    exact hne (Except.ok.inj hread).symm
  · intro a b ha hb hne htext
    have hread := ha.parse_text
    rw [htext, hb.parse_text] at hread
    exact hne (Except.ok.inj hread).symm

/-- Parts that are missing, blanks inside and around, and a mark of a storage in an own id. -/
theorem legible_text_read_back_of_similar :
    let a : ResourceId := ⟨"", "s", "$o x"⟩
    let b : ResourceId := ⟨"s", " o ", "x"⟩
    let c : SpaceId := ⟨"", " s"⟩
    let d : SpaceId := ⟨"s", "\n"⟩
    a.IsLegible ∧ b.IsLegible ∧ c.IsLegible ∧ d.IsLegible ∧ IsTrimmed a.text.toList ∧
      a ≠ b ∧ c ≠ d ∧ ResourceId.parse "s!$o x" = .ok a ∧ SpaceId.parse " s" = .ok c ∧
      a.text ≠ b.text ∧ c.text ≠ d.text := by
  intro a b c d
  have ha : a.IsLegible := ⟨⟨by decide, by decide, by decide⟩, by decide⟩
  have hb : b.IsLegible := ⟨⟨by decide, by decide, by decide⟩, by decide⟩
  have hc : c.IsLegible := ⟨by decide, by decide, by decide⟩
  have hd : d.IsLegible := ⟨by decide, by decide, by decide⟩
  have htrimmed : IsTrimmed a.text.toList :=
    Text.trim_eq_self_iff.mp (by decide)
  obtain ⟨hread, hspace, hdistinct, hspaces⟩ := legible_text_read_back
  exact ⟨ha, hb, hc, hd, htrimmed, by decide, by decide, hread a ha htrimmed, hspace c hc,
    hdistinct a b ha hb (by decide), hspaces c d hc hd (by decide)⟩

end ResourceIndex
