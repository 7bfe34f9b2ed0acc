import Mathlib.Data.List.Basic
import ResourceIndex.Proofs.Resource.Codec
/-
When a resource is what is stored of it: there is nothing to leave out if all its numbers are
finite, and nothing to count anew if no leap second is within a minute.
-/
namespace ResourceIndex

/-- The numbers of a metadata block that may have a fraction. -/
def GeoCoordinates.floats (g : GeoCoordinates) : List Binary64 :=
  g.altitude.toList ++ g.latitude.toList ++ g.longitude.toList

def Photo.floats (p : Photo) : List Binary64 :=
  p.exposureDenominator.toList ++ p.exposureNumerator.toList ++ p.fNumber.toList ++
    p.focalLength.toList

namespace Document

/-- The numbers of the metadata that may have a fraction. -/
def floats (d : Document) : List Binary64 :=
  d.location.toList.flatMap GeoCoordinates.floats ++ d.photo.toList.flatMap Photo.floats

def times (d : Document) : List Timestamp :=
  d.modified.toList ++ d.photo.toList.flatMap fun p => p.takenDateTime.toList

end Document

theorem filter_isFinite_eq_self_iff (o : Option Binary64) :
    o.filter Binary64.isFinite = o ↔ ∀ x ∈ o.toList, x.isFinite = true := by
  cases o with
  | none => exact iff_of_true rfl (List.forall_mem_nil _)
  | some x => simp [Option.filter]

theorem map_eq_self_iff {α : Type} {f : α → α} {p : α → Prop} (hf : ∀ a, f a = a ↔ p a)
    (o : Option α) : o.map f = o ↔ ∀ a ∈ o.toList, p a := by
  cases o with
  | none => exact iff_of_true rfl (List.forall_mem_nil _)
  | some a => simp [hf]

theorem GeoCoordinates.stored_eq_self_iff (g : GeoCoordinates) :
    g.stored = g ↔ ∀ x ∈ g.floats, x.isFinite = true := by
  obtain ⟨altitude, latitude, longitude⟩ := g
  simp only [stored, mk.injEq, filter_isFinite_eq_self_iff, floats, List.forall_mem_append,
    and_assoc]

theorem Photo.stored_eq_self_iff (p : Photo) :
    p.stored = p ↔ (∀ x ∈ p.floats, x.isFinite = true) ∧
      ∀ t ∈ p.takenDateTime.toList, t.IsSettled := by
  obtain ⟨make, model, denominator, numerator, number, length, iso, orientation, taken⟩ := p
  simp only [stored, mk.injEq, true_and, filter_isFinite_eq_self_iff,
    map_eq_self_iff Timestamp.settled_eq_self_iff, floats, List.forall_mem_append, and_assoc]

theorem Document.stored_eq_self_iff (d : Document) :
    d.stored = d ↔ (∀ x ∈ d.floats, x.isFinite = true) ∧ ∀ t ∈ d.times, t.IsSettled := by
  obtain ⟨name, title, size, modified, mime, content, tags, audio, image, location, photo⟩ := d
  simp only [stored, mk.injEq, true_and, map_eq_self_iff Timestamp.settled_eq_self_iff,
    map_eq_self_iff GeoCoordinates.stored_eq_self_iff, map_eq_self_iff Photo.stored_eq_self_iff,
    floats, times, List.forall_mem_append, List.forall_mem_flatMap]
  constructor
  · rintro ⟨hmodified, hlocation, hphoto⟩
    exact ⟨⟨hlocation, fun p hp => (hphoto p hp).1⟩, hmodified, fun p hp => (hphoto p hp).2⟩
  · rintro ⟨⟨hlocation, hphoto⟩, hmodified, htaken⟩
    exact ⟨hmodified, hlocation, fun p hp => ⟨hphoto p hp, htaken p hp⟩⟩

/-- A resource is stored as it is exactly if all of it has a text of its own. -/
theorem Resource.stored_eq_self_iff (r : Resource) :
    r.stored = r ↔ (∀ x ∈ r.document.floats, x.isFinite = true) ∧
      ∀ t ∈ r.document.times, t.IsSettled := by
  rw [← Document.stored_eq_self_iff]
  constructor
  · exact congrArg Resource.document
  · intro h
    rw [stored, h]

end ResourceIndex
