import ResourceIndex.Proofs.Cluster.Bulk
import ResourceIndex.Proofs.Cluster.Connecting
import ResourceIndex.Proofs.Cluster.Pushes
import ResourceIndex.Proofs.Url.Segments
/-
The address of one document. A look-up names the index and the id in its path, a bulk request names
them in an action, and both speak of the same document as far as a path keeps the two names.
-/
namespace ResourceIndex.Cluster

open Json Text Url

/-- The index and the id that a line of a bulk request asks to write. -/
def targetOf? (line : List Char) : Option (String × String) := do
  let action ← (← read? line).get? "index"
  return (← (← action.get? "_index").string?, ← (← action.get? "_id").string?)

theorem targetOf?_linePair (index : String) (w : BulkWrite) :
    targetOf? (w.linePair index).1 = some (index, w.id) := by
  have hunique : Members.NamesUnique [("_index", .str index), ("_id", .str w.id)] := by
    change ["_index", "_id"].Nodup
    decide
  have hget (name : String) : (object [("_index", .str index), ("_id", .str w.id)]).get? name =
      List.lookup name [("_index", .str index), ("_id", .str w.id)] :=
    Members.lookup_ordered hunique name
  have haction : (w.action index).get? "index" =
      some (object [("_index", .str index), ("_id", .str w.id)]) := rfl
  simp only [targetOf?, w.read?_action index, Option.bind_eq_bind, Option.bind_some, haction, hget]
  rfl

/-- The path of the URL ends with the index, the word for documents and the id, each encoded. -/
def Names (u : Url) (index id : List Char) : Prop :=
  ∃ front a b z, splitOn '/' u.path = front ++ [a, b, z] ∧ percentDecode a = bytesOf index ∧
    percentDecode b = bytesOf "_doc".toList ∧ percentDecode z = bytesOf id

namespace Client

variable {settings : ClusterSettings} {c : Client}

/-- The URL that is asked for the source of a document. -/
def lookupUrl (c : Client) (id : String) : Url := c.urlOf [c.index, "_doc", id] []

/-- The path of the documents of the index. -/
def documentsPath (c : Client) : List Char :=
  pushSegment c.base.scheme
    (pushSegment c.base.scheme (popEmpty c.base.path) c.index.toList) "_doc".toList

theorem path_lookupUrl (c : Client) (id : String) :
    (c.lookupUrl id).path = pushSegment c.base.scheme c.documentsPath id.toList := rfl

theorem isPlain_documents : IsPlain "_doc".toList := by decide

/-- A look-up names the index and the id exactly if both are kept by a path. -/
theorem names_lookupUrl_iff (hbase : IsClean c.base.path) (id : String) :
    Names (c.lookupUrl id) c.index.toList id.toList ↔
      IsPlain c.index.toList ∧ IsPlain id.toList := by
  have hstart := isClean_popEmpty hbase
  have hindex := hstart.pushSegment c.base.scheme c.index.toList
  have hdocuments : IsClean c.documentsPath := hindex.pushSegment _ _
  have hplain := isPlain_documents
  obtain ⟨-, -, hdoc⟩ := encoded_of_isPlain hplain c.base.scheme
  have hne : encoded c.base.scheme "_doc".toList ≠ [] := by
    intro hnil
    rw [hnil] at hdoc
    exact absurd (bytesOf_inj (s := []) hdoc) (by decide)
  -- The path of a plain id is the one of the documents with one piece more.
  have hsplit : IsPlain id.toList → ∃ front, splitOn '/' (c.lookupUrl id).path = front ++
      [lastPiece (pushSegment c.base.scheme (popEmpty c.base.path) c.index.toList),
        encoded c.base.scheme "_doc".toList, encoded c.base.scheme id.toList] := by
    intro hid
    have hslash := slash_notMem_encoded c.base.scheme
    have hstem := splitOn_eq_concat
      (stem (pushSegment c.base.scheme (popEmpty c.base.path) c.index.toList))
    rw [lastPiece_stem hindex.led] at hstem
    rw [path_lookupUrl, pushSegment_of_isPlain hdocuments.led hid,
      splitOn_append_piece (hslash _), documentsPath, pushSegment_of_isPlain hindex.led hplain,
      stem_append hne, splitOn_append_piece (hslash _), hstem, List.append_assoc, List.append_assoc]
    exact ⟨_, rfl⟩
  constructor
  · rintro ⟨front, a, b, z, hpieces, ha, -, hz⟩
    have hlast : lastPiece (c.lookupUrl id).path = z := by
      rw [lastPiece, hpieces, List.append_cons, List.append_cons, List.getLastD_concat]
    rw [← hlast, path_lookupUrl] at hz
    have hid := (percentDecode_lastPiece_iff hdocuments _ _).mp hz
    obtain ⟨front', hpieces'⟩ := hsplit hid
    rw [hpieces] at hpieces'
    obtain ⟨-, htail⟩ := List.append_inj' hpieces' rfl
    rw [(List.cons.inj htail).left] at ha
    exact ⟨(percentDecode_lastPiece_iff hstart _ _).mp ha, hid⟩
  · rintro ⟨hindexed, hid⟩
    obtain ⟨front, hpieces⟩ := hsplit hid
    exact ⟨front, _, _, _, hpieces, (percentDecode_lastPiece_iff hstart _ _).mpr hindexed, hdoc,
      (encoded_of_isPlain hid _).right.right⟩

theorem eq_of_path_lookupUrl (hbase : IsClean c.base.path) {id other : String}
    (hid : IsPlain id.toList) (hother : IsPlain other.toList)
    (h : (c.lookupUrl id).path = (c.lookupUrl other).path) : id = other := by
  have hdocuments : IsClean c.documentsPath :=
    ((isClean_popEmpty hbase).pushSegment _ _).pushSegment _ _
  have hdecode := (percentDecode_lastPiece_iff hdocuments c.base.scheme id.toList).mpr hid
  rw [← path_lookupUrl, h, path_lookupUrl, (percentDecode_lastPiece_iff hdocuments _ _).mpr hother]
    at hdecode
  exact String.toList_inj.mp (bytesOf_inj hdecode).symm

theorem isClean_base (h : ofSettings settings = .ok c) (hbase : c.base.isOpaque = false) :
    IsClean c.base.path := by
  rw [ofSettings] at h
  split at h
  · cases h
  · split at h
    · cases h
    · rename_i base hparse
      cases h
      exact isClean_parse hparse hbase

end Client

/-- Of whatever id, a look-up asks for one document, and an action writes one. They are the same
document exactly if index and id are plain, and two plain ids have two addresses. -/
theorem lookup_names_written_iff (settings : ClusterSettings) (c : Client)
    (h : Client.ofSettings settings = .ok c) (hbase : c.base.isOpaque = false) (id : String) :
    (∃ result, Asks (fun wire => c.source? wire id) (.ok (c.requestTo .get none (c.lookupUrl id)))
      result) ∧
    (∀ r, targetOf? ((BulkWrite.ofResource id r).linePair c.index).1 = some (c.index, id)) ∧
    (Names (c.lookupUrl id) c.index.toList id.toList ↔
      IsPlain c.index.toList ∧ IsPlain id.toList) ∧
    (IsPlain id.toList → ∀ other : String, IsPlain other.toList →
      (c.lookupUrl id).path = (c.lookupUrl other).path → id = other) := by
  have hclean := Client.isClean_base h hbase
  have hasks := c.asks_source id
  rw [Client.address_eq_ok hbase] at hasks
  exact ⟨⟨_, hasks⟩, fun r => targetOf?_linePair c.index _, Client.names_lookupUrl_iff hclean id,
    fun hid other hother => Client.eq_of_path_lookupUrl hclean hid hother⟩

/-- An id with every kind of character that a path encodes, behind a path of the base. -/
theorem lookup_names_written_of_mixed_id :
    let settings : ClusterSettings :=
      { ClusterSettings.standard with url := "https://search:9200/a/../b/" }
    let id : String := "st$sp!../50%2f?q#\\ \"ä😀"
    ∃ c, Client.ofSettings settings = .ok c ∧ c.base.isOpaque = false ∧ c.base.path = "/b/".toList ∧
      IsPlain c.index.toList ∧ IsPlain id.toList ∧
      Names (c.lookupUrl id) c.index.toList id.toList ∧
      ∀ other : String, IsPlain other.toList →
        (c.lookupUrl id).path = (c.lookupUrl other).path → id = other := by
  intro settings id
  let base : Url := ⟨"https".toList, some (.domain "search".toList), some 9200, false,
    "/b/".toList, none, none⟩
  let c : Client := ⟨base, settings.index, none, settings.userAgent⟩
  have hclient : Client.ofSettings settings = .ok c := by decide +kernel
  have hindex : IsPlain c.index.toList := by decide
  have hid : IsPlain id.toList := by decide
  obtain ⟨-, -, hnames, hdistinct⟩ := lookup_names_written_iff settings c hclient rfl id
  exact ⟨c, hclient, rfl, rfl, hindex, hid, hnames.mpr ⟨hindex, hid⟩, hdistinct hid⟩

/-- An id with a tab is written under its name, and looked up at the address of another id. -/
theorem lookup_of_tab_asks_for_other_id :
    let id : String := "st$sp!a\tb"
    let other : String := "st$sp!ab"
    ∃ c, Client.ofSettings ClusterSettings.standard = .ok c ∧
      (∀ r, targetOf? ((BulkWrite.ofResource id r).linePair c.index).1 = some (c.index, id)) ∧
      c.lookupUrl id = c.lookupUrl other ∧ id ≠ other ∧
      ¬ Names (c.lookupUrl id) c.index.toList id.toList := by
  intro id other
  let base : Url := ⟨"http".toList, some (.domain "localhost".toList), some 9200, false, ['/'],
    none, none⟩
  let c : Client :=
    ⟨base, ClusterSettings.standard.index, none, ClusterSettings.standard.userAgent⟩
  have hclient : Client.ofSettings ClusterSettings.standard = .ok c := by decide +kernel
  have hshared : c.lookupUrl id = c.lookupUrl other := by decide +kernel
  refine ⟨c, hclient, fun r => targetOf?_linePair c.index _, hshared, by decide, fun hnames => ?_⟩
  have hid := ((Client.names_lookupUrl_iff (Client.isClean_base hclient rfl) id).mp hnames).right
  exact absurd (hid.kept '\t' (by decide)) (by decide)

end ResourceIndex.Cluster
