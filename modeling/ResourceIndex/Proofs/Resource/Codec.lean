import ResourceIndex.Proofs.Json.Members
import ResourceIndex.Proofs.Timestamp.Text
import ResourceIndex.Resource.Codec
import ResourceIndex.Resource.Stored
/-
What a resource is read as out of its JSON value. Each field is looked up by its name, so it does
not matter which of the optional members are there; one lemma for each metadata block.
-/
namespace ResourceIndex

open Json Members

namespace Json

theorem decodes_str : Decodes Json.str string? := ⟨fun _ => rfl, nofun⟩

theorem decodes_bool : Decodes Json.bool bool? := ⟨fun _ => rfl, nofun⟩

theorem decodes_float : Decodes Json.float float? := ⟨fun _ => rfl, nofun⟩

theorem decodes_int32 : Decodes int32 int32? := by
  refine ⟨fun n => ?_, nofun⟩
  rw [int32, int32?, int?, if_pos ⟨Int32.le_toInt n, Int32.toInt_le n⟩]
  exact congrArg some (Int32.ofInt_toInt n)

theorem decodes_int64 : Decodes int64 int64? := by
  refine ⟨fun n => ?_, nofun⟩
  rw [int64, int64?, int?, if_pos ⟨Int64.le_toInt n, Int64.toInt_le n⟩]
  exact congrArg some (Int64.ofInt_toInt n)

theorem uint64?_int (n : UInt64) : uint64? (.int n.toNat) = some n := by
  have hn := n.toNat_lt
  have hbounds : 0 ≤ (n.toNat : Int) ∧ (n.toNat : Int) ≤ UInt64.size - 1 := by
    have hsize : UInt64.size = 18446744073709551616 := by decide
    omega
  rw [uint64?, nat?, int?, if_pos hbounds]
  simp only [Option.map_some, Int.toNat_natCast, UInt64.ofNat_toNat]

theorem list?_strings (l : List String) : list? string? (strings l) = some l := by
  rw [strings, list?]
  induction l with
  | nil => rfl
  | cons s l ih => rw [List.map_cons, List.mapM_cons, ih]; rfl

end Json

theorem Timestamp.decodesAs : DecodesAs toJson ofJson? settled := by
  constructor
  · intro t
    rw [toJson, ofJson?, text, String.toList_ofList]
    exact read?_render t
  · intro t h
    rw [toJson] at h
    cases h

theorem ResourceKind.ofJson?_toJson (k : ResourceKind) : ofJson? k.toJson = some k := by
  cases k with
  | file => decide
  | container => decide
  | symlink => decide
  | reference => decide

namespace TagSet

theorem place_of_forall_lt {tag : String} {l : List String} (h : ∀ t ∈ l, t < tag) :
    place tag l = l ++ [tag] := by
  induction l with
  | nil => rfl
  | cons t l ih =>
    obtain ⟨ht, hl⟩ := List.forall_mem_cons.mp h
    rw [place, if_neg (String.lt_asymm ht), if_neg (String.ne_of_lt ht).symm, ih hl,
      List.cons_append]

/-- Tags that come in their order stay in it. -/
theorem toList_foldl_insert {l : List String} {s : TagSet}
    (h : (s.toList ++ l).Pairwise (· < ·)) :
    (l.foldl (fun s t => s.insert t) s).toList = s.toList ++ l := by
  induction l generalizing s with
  | nil => exact (List.append_nil _).symm
  | cons t l ih =>
    have hlast : ∀ x ∈ s.toList, x < t := fun x hx =>
      (List.pairwise_append.mp h).2.2 x hx t List.mem_cons_self
    have hinsert : (s.insert t).toList = s.toList ++ [t] := place_of_forall_lt hlast
    have hmove : s.toList ++ t :: l = (s.insert t).toList ++ l := by
      rw [hinsert, List.append_assoc, List.singleton_append]
    rw [List.foldl_cons, ih (by rwa [← hmove]), ← hmove]

theorem ofList_toList (s : TagSet) : ofList s.toList = s := by
  have h : (ofList s.toList).toList = s.toList := toList_foldl_insert (s := empty) s.sorted
  cases s
  cases hs : ofList _
  rw [hs] at h
  cases h
  rfl

end TagSet

theorem Audio.namesUnique_members (a : Audio) : a.members.NamesUnique := by
  change Audio.fields.Nodup
  decide

theorem Audio.ofJson?_toJson (a : Audio) : ofJson? a.toJson = some a := by
  have hu := a.namesUnique_members
  rw [toJson, object, ofJson?, record?, Option.bind_eq_bind, Option.bind_some,
    optional?_ordered hu decodes_str "album" a.album rfl,
    optional?_ordered hu decodes_str "album_artist" a.albumArtist rfl,
    optional?_ordered hu decodes_str "artist" a.artist rfl,
    optional?_ordered hu decodes_int64 "bitrate" a.bitrate rfl,
    optional?_ordered hu decodes_str "composers" a.composers rfl,
    optional?_ordered hu decodes_str "copyright" a.copyright rfl,
    optional?_ordered hu decodes_int32 "disc" a.disc rfl,
    optional?_ordered hu decodes_int32 "disc_count" a.discCount rfl,
    optional?_ordered hu decodes_int64 "duration" a.duration rfl,
    optional?_ordered hu decodes_str "genre" a.genre rfl,
    optional?_ordered hu decodes_bool "has_drm" a.hasDrm rfl,
    optional?_ordered hu decodes_bool "is_variable_bitrate" a.isVariableBitrate rfl,
    optional?_ordered hu decodes_str "title" a.title rfl,
    optional?_ordered hu decodes_int32 "track" a.track rfl,
    optional?_ordered hu decodes_int32 "track_count" a.trackCount rfl,
    optional?_ordered hu decodes_int32 "year" a.year rfl]
  rfl

theorem Image.namesUnique_members (i : Image) : i.members.NamesUnique := by
  change ["width", "height"].Nodup
  decide

theorem Image.ofJson?_toJson (i : Image) : ofJson? i.toJson = some i := by
  have hu := i.namesUnique_members
  rw [toJson, object, ofJson?, record?, Option.bind_eq_bind, Option.bind_some,
    optional?_ordered hu decodes_int32 "width" i.width rfl,
    optional?_ordered hu decodes_int32 "height" i.height rfl]
  rfl

theorem GeoCoordinates.namesUnique_members (g : GeoCoordinates) : g.members.NamesUnique := by
  change ["altitude", "latitude", "longitude"].Nodup
  decide

theorem GeoCoordinates.ofJson?_toJson (g : GeoCoordinates) :
    ofJson? g.toJson = some g.stored := by
  have hu := g.namesUnique_members
  rw [toJson, object, ofJson?, record?, Option.bind_eq_bind, Option.bind_some,
    optional?_ordered hu decodes_float "altitude" (g.altitude.filter Binary64.isFinite) rfl,
    optional?_ordered hu decodes_float "latitude" (g.latitude.filter Binary64.isFinite) rfl,
    optional?_ordered hu decodes_float "longitude" (g.longitude.filter Binary64.isFinite) rfl]
  rfl

theorem Photo.namesUnique_members (p : Photo) : p.members.NamesUnique := by
  change Photo.fields.Nodup
  decide

theorem Photo.ofJson?_toJson (p : Photo) : ofJson? p.toJson = some p.stored := by
  have hu := p.namesUnique_members
  rw [toJson, object, ofJson?, record?, Option.bind_eq_bind, Option.bind_some,
    optional?_ordered hu decodes_str "camera_make" p.cameraMake rfl,
    optional?_ordered hu decodes_str "camera_model" p.cameraModel rfl,
    optional?_ordered hu decodes_float "exposure_denominator"
      (p.exposureDenominator.filter Binary64.isFinite) rfl,
    optional?_ordered hu decodes_float "exposure_numerator"
      (p.exposureNumerator.filter Binary64.isFinite) rfl,
    optional?_ordered hu decodes_float "f_number" (p.fNumber.filter Binary64.isFinite) rfl,
    optional?_ordered hu decodes_float "focal_length" (p.focalLength.filter Binary64.isFinite) rfl,
    optional?_ordered hu decodes_int32 "iso" p.iso rfl,
    optional?_ordered hu decodes_int32 "orientation" p.orientation rfl,
    optional?_as_ordered hu Timestamp.decodesAs "taken_date_time" p.takenDateTime rfl]
  rfl

namespace Document

variable {α : Type} {block : Members → Json} {ms : Members}

theorem lookup_present (name : String) (encode : α → Json) (o : Option α) (sought : String) :
    (present name encode o).lookup sought = if sought = name then o.map encode else none := by
  cases o with
  | none =>
    rw [Option.map_none, ite_self]
    rfl
  | some a => exact lookup_cons name (encode a) [] sought

theorem names_present_sublist (name : String) (encode : α → Json) (o : Option α) :
    ((present name encode o).map (·.1)).Sublist [name] := by
  cases o with
  | none => exact List.nil_sublist _
  | some a => exact List.Sublist.refl _

theorem decodes_audio : Decodes (fun a : Audio => object a.members) Audio.ofJson? :=
  ⟨Audio.ofJson?_toJson, fun _ => object_ne_null _⟩

theorem decodes_image : Decodes (fun i : Image => object i.members) Image.ofJson? :=
  ⟨Image.ofJson?_toJson, fun _ => object_ne_null _⟩

theorem decodesAs_location : DecodesAs (fun g : GeoCoordinates => object g.members)
    GeoCoordinates.ofJson? GeoCoordinates.stored :=
  ⟨GeoCoordinates.ofJson?_toJson, fun _ => object_ne_null _⟩

theorem decodesAs_photo :
    DecodesAs (fun p : Photo => object p.members) Photo.ofJson? Photo.stored :=
  ⟨Photo.ofJson?_toJson, fun _ => object_ne_null _⟩

/-- The names of the members that a document may have, in their order. -/
def fields : List String := [
  "name", "title", "size", "mtime", "mime_type", "content", "tags", "audio", "image", "location",
  "photo"]

theorem names_members_sublist (d : Document) : ((d.members block).map (·.1)).Sublist fields := by
  simp only [members, List.map_append]
  have hpart := (((List.Sublist.refl ["name", "title", "size"]).append
    (names_present_sublist "mtime" Timestamp.toJson d.modified)).append
      (List.Sublist.refl ["mime_type", "content", "tags"]))
  exact (((hpart.append (names_present_sublist "audio" _ d.audio)).append
    (names_present_sublist "image" _ d.image)).append
      (names_present_sublist "location" _ d.location)).append
        (names_present_sublist "photo" _ d.photo)

/-- A document is read from any members among which its own are found. -/
theorem ofMembers?_of_lookup {d : Document}
    (h : ∀ name ∈ fields, ms.lookup name = (d.members object).lookup name) :
    ofMembers? ms = some d.stored := by
  simp only [fields, List.forall_mem_cons, members, List.lookup_append, lookup_present,
    lookup_cons, List.lookup_nil, String.reduceEq, if_true, if_false, Option.or_none,
    Option.none_or] at h
  obtain ⟨hname, htitle, hsize, hmodified, hmime, hcontent, htags, haudio, himage, hlocation,
    hphoto, -⟩ := h
  have hset : (list? string? (strings d.tags.toList)).map TagSet.ofList = some d.tags := by
    rw [list?_strings, Option.map_some, TagSet.ofList_toList]
  have htagset : ms.defaulted? "tags" .empty (fun v => (list? string? v).map TagSet.ofList) =
      some d.tags := defaulted?_of_lookup htags hset
  rw [ofMembers?, defaulted?_of_lookup hname (decodes_str.read d.name),
    defaulted?_of_lookup htitle (decodes_str.read d.title),
    defaulted?_of_lookup hsize (uint64?_int d.size),
    optional?_as_of_lookup_map Timestamp.decodesAs hmodified,
    defaulted?_of_lookup hmime (decodes_str.read d.mimeType),
    defaulted?_of_lookup hcontent (decodes_str.read d.content),
    htagset,
    optional?_of_lookup_map decodes_audio haudio,
    optional?_of_lookup_map decodes_image himage,
    optional?_as_of_lookup_map decodesAs_location hlocation,
    optional?_as_of_lookup_map decodesAs_photo hphoto]
  rfl

end Document

namespace Resource

variable {block : Members → Json}

/-- The names of the members beside those of the content. -/
def ownFields : List String :=
  ["id", "root_id", "path", "parent_id", "resource_type", "deleted", "hidden"]

theorem namesUnique_members (block : Members → Json) (r : Resource) :
    (r.members block).NamesUnique := by
  have hsub : ((r.members block).map (·.1)).Sublist (ownFields ++ Document.fields) := by
    rw [members, List.map_append]
    exact (List.Sublist.refl ownFields).append r.document.names_members_sublist
  exact hsub.nodup (by decide)

/-- What a resource is read as out of its value, whatever strings and blocks it has. -/
theorem ofJson?_toJson (r : Resource) : ofJson? r.toJson = some r.stored := by
  have hlookup := lookup_ordered (r.namesUnique_members object)
  have hdocument : Document.ofMembers? (r.members object).ordered =
      some r.document.stored := by
    refine Document.ofMembers?_of_lookup fun name hname => ?_
    have hapart : ∀ name ∈ Document.fields, name ∉ ownFields := by decide
    rw [hlookup, members, List.lookup_append, lookup_eq_none (hapart name hname), Option.none_or]
  rw [toJson, object, ofJson?, hdocument,
    required?_of_lookup ((hlookup "id").trans rfl) (decodes_str.read r.id),
    required?_of_lookup ((hlookup "root_id").trans rfl) (decodes_str.read r.rootId),
    required?_of_lookup ((hlookup "path").trans rfl) (decodes_str.read r.path),
    defaulted?_of_lookup ((hlookup "parent_id").trans rfl) (decodes_str.read r.parentId),
    defaulted?_of_lookup ((hlookup "resource_type").trans rfl) r.kind.ofJson?_toJson,
    defaulted?_of_lookup ((hlookup "deleted").trans rfl) (decodes_bool.read r.deleted),
    defaulted?_of_lookup ((hlookup "hidden").trans rfl) (decodes_bool.read r.hidden)]
  rfl

end Resource

end ResourceIndex
