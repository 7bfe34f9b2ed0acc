import ResourceIndex.Agenda
/-
The entries of an agenda. What is looked up among them is found again after an entry is added or
taken off, and as long as they are in order a selection of them is an agenda of its own.
-/
namespace ResourceIndex.Agenda

variable {τ β : Type} {a rest : Agenda τ} {e : Nat × τ}

/-- An entry of an agenda, and what is left without it. -/
def Gives (a : Agenda τ) (e : Nat × τ) (rest : Agenda τ) : Prop :=
  ∃ before behind, a.entries = before ++ e :: behind ∧ rest.entries = before ++ behind

theorem Gives.mem (h : a.Gives e rest) : e ∈ a.entries := by
  obtain ⟨before, behind, ha, -⟩ := h
  rw [ha]
  exact List.mem_append_right before List.mem_cons_self

theorem Gives.mem_of_ne {f : Nat × τ} (h : a.Gives e rest) (hf : f ∈ a.entries) (hne : f ≠ e) :
    f ∈ rest.entries := by
  obtain ⟨before, behind, ha, hrest⟩ := h
  rw [ha] at hf
  rw [hrest]
  rcases List.mem_append.mp hf with hf | hf
  · exact List.mem_append_left _ hf
  · exact List.mem_append_right _ (List.mem_of_ne_of_mem hne hf)

theorem exists_gives (h : e ∈ a.entries) : ∃ rest, a.Gives e rest := by
  obtain ⟨before, behind, ha⟩ := List.append_of_mem h
  exact ⟨⟨before ++ behind⟩, before, behind, ha, rfl⟩

/-- What is looked up among the entries. -/
def pick (f : Nat × τ → Option β) (a : Agenda τ) : List β := a.entries.filterMap f

variable {f : Nat × τ → Option β}

theorem pick_add_of_none {time : Nat} {x : τ} (h : f (time, x) = none) :
    (a.add time x).pick f = a.pick f := by
  obtain ⟨before, behind, ha, hins⟩ := insert_eq_append time x a.entries
  rw [pick, pick, add, hins, ha]
  simp only [List.filterMap_append, List.filterMap_cons, h]

theorem pick_addAll_of_none {l : List (Nat × τ)} (h : ∀ e ∈ l, f e = none) :
    (a.addAll l).pick f = a.pick f := by
  induction l generalizing a with
  | nil => rfl
  | cons e l ih =>
    obtain ⟨he, hl⟩ := List.forall_mem_cons.mp h
    exact (ih hl).trans (pick_add_of_none he)

theorem pick_add_of_nil {time : Nat} {x : τ} {y : β} (ha : a.pick f = [])
    (h : f (time, x) = some y) : (a.add time x).pick f = [y] := by
  obtain ⟨before, behind, hl, hins⟩ := insert_eq_append time x a.entries
  rw [pick, hl, List.filterMap_append, List.append_eq_nil_iff] at ha
  simp only [pick, add, hins, List.filterMap_append, List.filterMap_cons, h, ha.1, ha.2,
    List.nil_append]

theorem Gives.pick_of_none (h : a.Gives e rest) (hf : f e = none) : rest.pick f = a.pick f := by
  obtain ⟨before, behind, ha, hrest⟩ := h
  simp only [pick, ha, hrest, List.filterMap_append, List.filterMap_cons, hf]

theorem Gives.pick_of_some {y : β} (h : a.Gives e rest) (hf : f e = some y) :
    ∃ l r, a.pick f = l ++ y :: r ∧ rest.pick f = l ++ r := by
  obtain ⟨before, behind, ha, hrest⟩ := h
  refine ⟨before.filterMap f, behind.filterMap f, ?_, ?_⟩
  · simp only [pick, ha, List.filterMap_append, List.filterMap_cons, hf]
  · simp only [pick, hrest, List.filterMap_append]

/-- If only one thing is found, it is that of the entry, and nothing is found without it. -/
theorem Gives.pick_of_toList {y : β} {o : Option β} (h : a.Gives e rest) (hf : f e = some y)
    (ha : a.pick f = o.toList) : o = some y ∧ rest.pick f = [] := by
  obtain ⟨l, r, hl, hrest⟩ := h.pick_of_some hf
  rw [ha] at hl
  cases o with
  | none => exact absurd (congrArg List.length hl) (by simp)
  | some z =>
    have hlen := congrArg List.length hl
    simp only [Option.toList_some, List.length_cons, List.length_nil, List.length_append] at hlen
    have hnil : l = [] := List.eq_nil_of_length_eq_zero (by omega)
    have hnil' : r = [] := List.eq_nil_of_length_eq_zero (by omega)
    subst hnil hnil'
    simp only [Option.toList_some, List.nil_append, List.cons.injEq, and_true] at hl
    exact ⟨congrArg some hl, hrest⟩

/-- Entries that stand in the order of their times. -/
def Sorted (l : List (Nat × τ)) : Prop := l.Pairwise fun e f => e.1 ≤ f.1

variable {l : List (Nat × τ)} {time : Nat} {x : τ}

theorem mem_insert : e ∈ insert time x l ↔ e = (time, x) ∨ e ∈ l := by
  obtain ⟨before, behind, hl, hins⟩ := insert_eq_append time x l
  rw [hins, hl]
  simp only [List.mem_append, List.mem_cons]
  exact or_left_comm

theorem sorted_insert (h : Sorted l) : Sorted (insert time x l) := by
  induction l with
  | nil => exact List.pairwise_singleton _ _
  | cons e rest ih =>
    obtain ⟨hhead, htail⟩ := List.pairwise_cons.mp h
    unfold insert
    split
    · rename_i hle
      refine List.pairwise_cons.mpr ⟨?_, ih htail⟩
      intro f hf
      rcases mem_insert.mp hf with rfl | hf
      · exact hle
      · exact hhead f hf
    · rename_i hlt
      refine List.pairwise_cons.mpr ⟨?_, h⟩
      intro f hf
      rcases List.mem_cons.mp hf with rfl | hf
      · exact Nat.le_of_not_le hlt
      · exact Nat.le_trans (Nat.le_of_not_le hlt) (hhead f hf)

/-- A time before the first entry is before all of them. -/
theorem Sorted.forall_lt (h : Sorted (e :: l)) (hlt : time < e.1) : ∀ f ∈ e :: l, time < f.1 := by
  intro f hf
  rcases List.mem_cons.mp hf with rfl | hf
  · exact hlt
  · exact Nat.lt_of_lt_of_le hlt ((List.pairwise_cons.mp h).1 f hf)

theorem insert_of_lt (h : ∀ f ∈ l, time < f.1) : insert time x l = (time, x) :: l := by
  cases l with
  | nil => rfl
  | cons f rest => exact if_neg (Nat.not_le.mpr (h f List.mem_cons_self))

/-- A selection of the entries takes a new one as the agenda does. -/
theorem filter_insert (p : Nat × τ → Bool) (h : Sorted l) :
    (insert time x l).filter p =
      if p (time, x) then insert time x (l.filter p) else l.filter p := by
  induction l with
  | nil => simp [insert, List.filter_cons]
  | cons e rest ih =>
    obtain ⟨-, htail⟩ := List.pairwise_cons.mp h
    by_cases hle : e.1 ≤ time
    · have hins : insert time x (e :: rest) = e :: insert time x rest := if_pos hle
      rw [hins, List.filter_cons, List.filter_cons, ih htail]
      by_cases hp : p e = true
      · have hins' : insert time x (e :: rest.filter p) = e :: insert time x (rest.filter p) :=
          if_pos hle
        rw [if_pos hp, if_pos hp, hins']
        split <;> rfl
      · rw [if_neg hp, if_neg hp]
    · have hlt := h.forall_lt (Nat.not_le.mp hle)
      have hlt' : ∀ f ∈ (e :: rest).filter p, time < f.1 := fun f hf =>
        hlt f (List.mem_filter.mp hf).1
      rw [insert_of_lt hlt, insert_of_lt hlt', List.filter_cons]

theorem mem_addAll {new : List (Nat × τ)} :
    e ∈ (a.addAll new).entries ↔ e ∈ new ∨ e ∈ a.entries := by
  induction new generalizing a with
  | nil => simp [addAll]
  | cons f new ih =>
    rw [addAll, ih, add, mem_insert, List.mem_cons]
    exact or_left_comm.trans or_assoc.symm

theorem sorted_addAll {new : List (Nat × τ)} (h : Sorted a.entries) :
    Sorted (a.addAll new).entries := by
  induction new generalizing a with
  | nil => exact h
  | cons f new ih => exact ih (sorted_insert h)

theorem sorted_filter (p : Nat × τ → Bool) (h : Sorted l) : Sorted (l.filter p) :=
  List.Pairwise.filter p h

theorem filter_addAll (p : Nat × τ → Bool) (new : List (Nat × τ)) (h : Sorted a.entries) :
    (a.addAll new).entries.filter p =
      ((⟨a.entries.filter p⟩ : Agenda τ).addAll (new.filter p)).entries := by
  induction new generalizing a with
  | nil => rfl
  | cons f new ih =>
    obtain ⟨t, y⟩ := f
    have hadd : (a.add t y).entries.filter p =
        if p (t, y) then insert t y (a.entries.filter p) else a.entries.filter p :=
      filter_insert p h
    have hsorted : Sorted (a.add t y).entries := sorted_insert h
    rw [addAll, ih hsorted, hadd, List.filter_cons]
    split <;> rfl

/-- An agenda of what some of the entries stand for. -/
def select (g : τ → Option β) (a : Agenda τ) : Agenda β :=
  ⟨a.entries.filterMap fun e => (g e.2).map fun y => (e.1, y)⟩

section

variable {g : τ → Option β} {y : β}

theorem Gives.select_of_some (h : a.Gives (time, x) rest) (hg : g x = some y) :
    (a.select g).Gives (time, y) (rest.select g) := by
  obtain ⟨before, behind, ha, hrest⟩ := h
  refine ⟨before.filterMap fun e => (g e.2).map fun y => (e.1, y),
    behind.filterMap fun e => (g e.2).map fun y => (e.1, y), ?_, ?_⟩
  · simp only [select, ha, List.filterMap_append, List.filterMap_cons, hg, Option.map_some]
  · simp only [select, hrest, List.filterMap_append]

theorem Gives.select_of_none (h : a.Gives (time, x) rest) (hg : g x = none) :
    rest.select g = a.select g :=
  congrArg Agenda.mk (h.pick_of_none (by simp [hg]))

theorem select_add_of_none (hg : g x = none) : (a.add time x).select g = a.select g :=
  congrArg Agenda.mk (pick_add_of_none (by simp [hg]))

/-- A selection of the entries takes what a new entry stands for as an agenda does. -/
theorem select_add (h : Sorted a.entries) (hg : g x = some y) :
    (a.add time x).select g = (a.select g).add time y := by
  obtain ⟨l⟩ := a
  apply congrArg Agenda.mk
  change (insert time x l).filterMap _ = insert time y (l.filterMap _)
  induction l with
  | nil => simp [insert, hg]
  | cons e rest ih =>
    obtain ⟨-, htail⟩ := List.pairwise_cons.mp h
    by_cases hle : e.1 ≤ time
    · have hins : insert time x (e :: rest) = e :: insert time x rest := if_pos hle
      rw [hins, List.filterMap_cons, List.filterMap_cons, ih htail]
      cases g e.2 with
      | none => rfl
      | some z => exact (if_pos hle).symm
    · have hlt := h.forall_lt (Nat.not_le.mp hle)
      rw [insert_of_lt hlt, insert_of_lt, List.filterMap_cons_some (by rw [hg]; rfl)]
      intro f hf
      obtain ⟨e', he', hsome⟩ := List.mem_filterMap.mp hf
      obtain ⟨z, -, rfl⟩ := Option.map_eq_some_iff.mp hsome
      exact hlt e' he'

theorem select_addAll {wrap : β → τ} (hg : ∀ y, g (wrap y) = some y) (h : Sorted a.entries)
    (new : List (Nat × β)) :
    (a.addAll (new.map fun e => (e.1, wrap e.2))).select g = (a.select g).addAll new := by
  induction new generalizing a with
  | nil => rfl
  | cons e new ih =>
    obtain ⟨t, y⟩ := e
    have hsorted : Sorted (a.add t (wrap y)).entries := sorted_insert h
    rw [List.map_cons, addAll, ih hsorted, select_add h (hg y)]
    rfl

end

theorem Gives.sorted (h : a.Gives e rest) (hs : Sorted a.entries) : Sorted rest.entries := by
  obtain ⟨before, behind, ha, hrest⟩ := h
  rw [ha] at hs
  rw [hrest]
  exact hs.sublist ((List.sublist_cons_self e behind).append_left before)

theorem lt_of_due?_eq_none (h : Sorted a.entries) {t : Nat} (hd : a.due? t = none) :
    ∀ f ∈ a.entries, t < f.1 := by
  unfold due? at hd
  split at hd
  · rename_i hnil
    rw [hnil]
    exact fun f hf => absurd hf List.not_mem_nil
  · rename_i time x rest hcons
    split at hd
    · cases hd
    · rename_i hlt
      rw [hcons] at h ⊢
      exact h.forall_lt (Nat.not_le.mp hlt)

theorem due?_of_lt {t : Nat} (h : ∀ f ∈ a.entries, t < f.1) : a.due? t = none := by
  unfold due?
  split
  · rfl
  · rename_i time x rest hcons
    rw [hcons] at h
    exact if_neg (Nat.not_le.mpr (h (time, x) List.mem_cons_self))

theorem due?_of_le {t : Nat} (h : a.entries = (time, x) :: l) (hle : time ≤ t) :
    a.due? t = some ((time, x), ⟨l⟩) := by
  unfold due?
  rw [h]
  exact if_pos hle

end ResourceIndex.Agenda
