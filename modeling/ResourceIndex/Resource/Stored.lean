import ResourceIndex.Resource.Basic
/-
What the text of a resource keeps of it: all but numbers that are not finite, which are written as
missing, and leap seconds within a minute, which are written as the seconds that follow.
-/
namespace ResourceIndex

def GeoCoordinates.stored (g : GeoCoordinates) : GeoCoordinates where
  altitude := g.altitude.filter Binary64.isFinite
  latitude := g.latitude.filter Binary64.isFinite
  longitude := g.longitude.filter Binary64.isFinite

def Photo.stored (p : Photo) : Photo :=
  { p with
    exposureDenominator := p.exposureDenominator.filter Binary64.isFinite
    exposureNumerator := p.exposureNumerator.filter Binary64.isFinite
    fNumber := p.fNumber.filter Binary64.isFinite
    focalLength := p.focalLength.filter Binary64.isFinite
    takenDateTime := p.takenDateTime.map Timestamp.settled }

def Document.stored (d : Document) : Document :=
  { d with
    modified := d.modified.map Timestamp.settled
    location := d.location.map GeoCoordinates.stored
    photo := d.photo.map Photo.stored }

/-- The resource as it is read out of its text. -/
def Resource.stored (r : Resource) : Resource := { r with document := r.document.stored }

end ResourceIndex
