/- Sets of tags, held in ascending order without repetition. -/
namespace ResourceIndex

structure TagSet where
  toList : List String
  sorted : toList.Pairwise (· < ·)
deriving DecidableEq, Repr

namespace TagSet

def empty : TagSet := ⟨[], .nil⟩

instance : Inhabited TagSet := ⟨empty⟩

def place (tag : String) : List String → List String
  | [] => [tag]
  | t :: ts =>
    if tag < t then tag :: t :: ts
    else if tag = t then t :: ts
    else t :: place tag ts

theorem mem_place {x tag : String} {l : List String} : x ∈ place tag l ↔ x = tag ∨ x ∈ l := by
  induction l with
  | nil => simp [place]
  | cons t ts ih =>
    simp only [place]
    split
    · simp
    · split
      · rename_i h
        simp [h]
      · simp only [List.mem_cons, ih]
        exact or_left_comm

theorem place_sorted (tag : String) {l : List String} (h : l.Pairwise (· < ·)) :
    (place tag l).Pairwise (· < ·) := by
  induction l with
  | nil => simp [place]
  | cons t ts ih =>
    have ht := List.pairwise_cons.1 h
    simp only [place]
    split
    · rename_i hlt
      refine List.pairwise_cons.2 ⟨fun x hx => ?_, h⟩
      cases List.mem_cons.1 hx with
      | inl e => exact e ▸ hlt
      | inr hx => exact String.lt_trans hlt (ht.1 x hx)
    · split
      · exact h
      · rename_i hge hne
        refine List.pairwise_cons.2 ⟨fun x hx => ?_, ih ht.2⟩
        cases mem_place.1 hx with
        | inl e =>
          subst e
          exact String.not_le.1 fun hle => hne (String.le_antisymm hle (String.not_lt.1 hge))
        | inr hx => exact ht.1 x hx

def insert (tag : String) (s : TagSet) : TagSet := ⟨place tag s.toList, place_sorted tag s.sorted⟩

def ofList (tags : List String) : TagSet := tags.foldl (fun s t => s.insert t) empty

end TagSet

end ResourceIndex
