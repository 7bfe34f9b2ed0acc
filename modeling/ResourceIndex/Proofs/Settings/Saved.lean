import ResourceIndex.Proofs.Json.Order
import ResourceIndex.Proofs.Resource.Codec
import ResourceIndex.Proofs.Toml.Document
import ResourceIndex.Settings.Load
/-
Saved settings. The document that settings are saved as holds each of their fields once and under a
name that counts as it stands, so that loading it gives the settings back, or tells their fault.
-/
namespace ResourceIndex

open Json (Members)
open Toml (Scalar Block)

namespace Settings

variable {name : String} {s : Settings} {ms done : Members} {v : Json} {n : Nat}

/-- A name that is one step of a path and is in lower case. -/
structure IsSimple (name : String) : Prop where
  path : PathStep.ofName name = [.member name]
  lower : lowered name = name

instance : DecidablePred IsSimple := fun name =>
  decidable_of_iff (PathStep.ofName name = [.member name] ∧ lowered name = name)
    ⟨fun h => ⟨h.left, h.right⟩, fun h => ⟨h.path, h.lower⟩⟩

/-- Values under simple names are put into a table as they are. -/
theorem putAll_values (hms : ∀ m ∈ ms, IsSimple m.1 ∧ ∀ t, m.2 ≠ .obj t) (done : Members) :
    putAll (.obj done) ms = .obj (Members.putInto done ms) := by
  induction ms generalizing done with
  | nil => rfl
  | cons m ms ih =>
    obtain ⟨⟨hname, hvalue⟩, hrest⟩ := List.forall_mem_cons.mp hms
    rw [putAll, put, hname.lower, ih hrest]
    · rfl
    · exact hvalue

/-- A table with simple names and without tables in it. -/
def IsFlat (v : Json) : Prop :=
  ∃ m : Members, v = .obj m ∧ m.Sorted ∧ ∀ e ∈ m, IsSimple e.1 ∧ ∀ t, e.2 ≠ .obj t

/-- A flat table is put into others where there is none of its name. -/
theorem put_flat (hv : IsFlat v) (hname : IsSimple name) (hnew : done.lookup name = none) :
    put name (.obj done) v = .obj (Json.insert name v done) := by
  obtain ⟨m, rfl, hsorted, hm⟩ := hv
  have hmembers : membersOf (.obj done) = done := rfl
  have hempty : Members.putInto [] m = m := hsorted.ordered_eq
  rw [put, hname.lower, hmembers, hnew, Option.getD_none, putAll_values hm, hempty]

theorem overlay_flat (hms : ∀ m ∈ ms, IsSimple m.1 ∧ IsFlat m.2) (hunique : ms.NamesUnique)
    (hnew : ∀ m ∈ ms, done.lookup m.1 = none) :
    overlay (.obj done) ms = .obj (Members.putInto done ms) := by
  induction ms generalizing done with
  | nil => rfl
  | cons m ms ih =>
    obtain ⟨⟨hname, hvalue⟩, hrest⟩ := List.forall_mem_cons.mp hms
    obtain ⟨hnone, hothers⟩ := List.forall_mem_cons.mp hnew
    obtain ⟨hfirst, hunique⟩ := List.nodup_cons.mp hunique
    have hnext : ∀ e ∈ ms, (Json.insert m.1 m.2 done).lookup e.1 = none := by
      intro e he
      rw [Json.lookup_insert, if_neg fun heq => hfirst (List.mem_map.mpr ⟨e, he, heq⟩)]
      exact hothers e he
    have hstep : putAt m.2 (PathStep.ofName m.1) (.obj done) = .obj (Json.insert m.1 m.2 done) := by
      rw [hname.path, putAt, put_flat hvalue hname hnone]
    rw [overlay, List.foldl_cons]
    change overlay (putAt m.2 (PathStep.ofName m.1) (.obj done)) ms = _
    rw [hstep, ih hrest hunique hnext]
    rfl

theorem namesUnique_of_sorted (h : ms.Sorted) : ms.NamesUnique := by
  rw [Members.NamesUnique, List.Nodup, List.pairwise_map]
  exact h.imp String.ne_of_lt

/-- Flat tables in order are laid over nothing as they are. -/
theorem overlay_empty (hms : ∀ m ∈ ms, IsSimple m.1 ∧ IsFlat m.2) (hsorted : ms.Sorted) :
    overlay (.obj []) ms = .obj ms := by
  rw [overlay_flat hms (namesUnique_of_sorted hsorted) fun _ _ => rfl]
  exact congrArg _ hsorted.ordered_eq

/-- Names that stand for themselves in a document and in a layer, each given once. -/
def AreNames (names : List String) : Prop :=
  (∀ k ∈ names, Toml.IsBare k ∧ IsSimple k) ∧ names.Nodup

instance : DecidablePred AreNames := fun _ => inferInstanceAs (Decidable (_ ∧ _))

theorem AreNames.sublist {names others : List String} (h : AreNames names)
    (hothers : others.Sublist names) : AreNames others :=
  ⟨fun k hk => h.left k (hothers.subset hk), hothers.nodup h.right⟩

/-- The fields that have a value. -/
def present (fields : List (String × Option Scalar)) : List (String × Scalar) :=
  fields.filterMap fun (name, v) => v.map fun v => (name, v)

theorem present_cons_some (name : String) (v : Scalar) (fields : List (String × Option Scalar)) :
    present ((name, some v) :: fields) = (name, v) :: present fields := rfl

theorem present_cons_none (name : String) (fields : List (String × Option Scalar)) :
    present ((name, none) :: fields) = present fields := rfl

theorem keys_present (fields : List (String × Option Scalar)) :
    ((present fields).map (·.1)).Sublist (fields.map (·.1)) := by
  induction fields with
  | nil => exact List.Sublist.slnil
  | cons e fields ih =>
    obtain ⟨name, v⟩ := e
    cases v with
    | none => exact ih.cons name
    | some v => exact ih.cons_cons name

/-- A field is found with its value, if it has one. -/
theorem lookup_present {fields : List (String × Option Scalar)} (h : (fields.map (·.1)).Nodup)
    (name : String) :
    List.lookup name ((present fields).map fun (key, v) => (key, v.toJson)) =
      (fields.lookup name).bind fun v => v.map Scalar.toJson := by
  induction fields with
  | nil => rfl
  | cons e fields ih =>
    obtain ⟨key, v⟩ := e
    obtain ⟨hother, hunique⟩ := List.nodup_cons.mp h
    by_cases hname : name = key
    · subst hname
      rw [List.lookup_cons_self, Option.bind_some]
      cases v with
      | none =>
        have hnone : fields.lookup name = none :=
          List.lookup_eq_none_iff.mpr fun e he =>
            bne_iff_ne.mpr fun heq => hother (List.mem_map.mpr ⟨e, he, heq.symm⟩)
        rw [present_cons_none, ih hunique, hnone]
        rfl
      | some v => rw [present_cons_some, List.map_cons, List.lookup_cons_self]; rfl
    · rw [List.lookup_cons, beq_false_of_ne hname]
      cases v with
      | none => exact ih hunique
      | some v =>
        rw [present_cons_some, List.map_cons, Json.lookup_cons, if_neg hname]
        exact ih hunique

end Settings

namespace Json

theorem Members.defaulted?_of_decodes {α : Type} {encode : α → Json} {read : Json → Option α}
    {m : Members} {name : String} {a fallback : α} (h : Decodes encode read)
    (hm : m.lookup name = some (encode a)) : m.defaulted? name fallback read = some a :=
  defaulted?_of_lookup hm (h.read a)

theorem nat?_nat {n : Nat} (h : n ≤ Int64.maxValue.toInt) : nat? (.nat n) = some n := by
  have hmax : Int64.maxValue.toInt = 9223372036854775807 := by decide
  have hbounds : 0 ≤ (n : Int) ∧ (n : Int) ≤ UInt64.size - 1 := by
    have hsize : UInt64.size = 18446744073709551616 := by decide
    omega
  rw [nat?, nat, int?, if_pos hbounds]
  rfl

end Json

theorem Reading.lenient_nat?_nat {n : Nat} (h : n ≤ Int64.maxValue.toInt) :
    lenient.nat? (.nat n) = some n := by
  have hmax : Int64.maxValue.toInt = 9223372036854775807 := by decide
  have hbounds : 0 ≤ (n : Int) ∧ (n : Int) < UInt64.size := by
    have hsize : UInt64.size = 18446744073709551616 := by decide
    omega
  have hread : lenient.nat? = lenientNat? := rfl
  rw [hread, Json.nat, lenientNat?, if_pos hbounds]
  rfl

namespace EngineSettings

/-- The whole numbers of an engine. -/
def numbers : EngineSettings → List Nat
  | embedded s => [s.writerHeapBytes]
  | clustered s => [s.timeout, s.connectTimeout, s.healthTimeout]

/-- The kind of an engine and its fields. -/
def allFields (e : EngineSettings) : List (String × Option Scalar) :=
  ("type", some (.text e.kind)) :: e.fields

theorem entries_eq (e : EngineSettings) : e.entries = Settings.present e.allFields := by
  cases e with
  | embedded s => rfl
  | clustered s => rfl

/-- The names of an engine's fields. -/
def fieldNames : EngineSettings → List String
  | embedded _ => ["type", "data_path", "writer_heap_bytes"]
  | clustered _ => "type" :: ClusterSettings.standard.fields.map (·.1)

theorem keys_allFields (e : EngineSettings) : e.allFields.map (·.1) = e.fieldNames := by
  cases e with
  | embedded s => rfl
  | clustered s => rfl

theorem areNames_fieldNames (e : EngineSettings) : Settings.AreNames e.fieldNames := by
  have hembedded : Settings.AreNames ["type", "data_path", "writer_heap_bytes"] := by
    decide +kernel
  have hclustered : Settings.AreNames
      ("type" :: ClusterSettings.standard.fields.map (·.1)) := by decide +kernel
  cases e with
  | embedded s => exact hembedded
  | clustered s => exact hclustered

theorem lookup_entries (e : EngineSettings) (name : String) :
    (Members.ordered (e.entries.map fun (key, v) => (key, v.toJson))).lookup name =
      (e.allFields.lookup name).bind fun v => v.map Scalar.toJson := by
  have hfields : (e.allFields.map (·.1)).Nodup := by
    rw [keys_allFields]
    exact e.areNames_fieldNames.right
  have hunique : Members.NamesUnique (e.entries.map fun (key, v) => (key, v.toJson)) := by
    rw [Members.NamesUnique, List.map_map, entries_eq]
    exact (Settings.keys_present e.allFields).nodup hfields
  rw [Members.lookup_ordered hunique, entries_eq, Settings.lookup_present hfields]

/-- An engine is read from the table that it is written as. -/
theorem ofJson?_entries {e : EngineSettings} (h : ∀ n ∈ e.numbers, n ≤ Int64.maxValue.toInt) :
    ofJson? (Json.object (e.entries.map fun (key, v) => (key, v.toJson))) = some e := by
  have hlookup := lookup_entries e
  rw [Json.object]
  generalize Members.ordered (e.entries.map fun (key, v) => (key, v.toJson)) = m at hlookup
  have htype : m.lookup "type" = some (.str e.kind) := hlookup "type"
  rw [ofJson?, htype]
  cases e with
  | embedded s =>
    have hheap := Json.nat?_nat (h s.writerHeapBytes List.mem_cons_self)
    change (LocalSettings.ofJson? (.obj m)).map embedded = _
    rw [LocalSettings.ofJson?, Json.record?, Option.bind_eq_bind, Option.bind_some,
      Members.defaulted?_of_decodes (a := s.dataPath) Json.decodes_str (hlookup "data_path"),
      Members.defaulted?_of_lookup (hlookup "writer_heap_bytes") hheap]
    rfl
  | clustered s =>
    have htimeout := Json.nat?_nat (h s.timeout (by simp [numbers]))
    have hconnect := Json.nat?_nat (h s.connectTimeout (by simp [numbers]))
    have hhealth := Json.nat?_nat (h s.healthTimeout (by simp [numbers]))
    have husername : m.lookup "username" = s.username.map .str :=
      (hlookup "username").trans (Option.map_map _ _ s.username)
    have hpassword : m.lookup "password" = s.password.map .str :=
      (hlookup "password").trans (Option.map_map _ _ s.password)
    change (ClusterSettings.ofJson? (.obj m)).map clustered = _
    rw [ClusterSettings.ofJson?, Json.record?, Option.bind_eq_bind, Option.bind_some,
      Members.defaulted?_of_decodes (a := s.url) Json.decodes_str (hlookup "url"),
      Members.defaulted?_of_decodes (a := s.index) Json.decodes_str (hlookup "index"),
      Members.optional?_of_lookup_map Json.decodes_str husername,
      Members.optional?_of_lookup_map Json.decodes_str hpassword,
      Members.defaulted?_of_lookup (hlookup "timeout_ms") htimeout,
      Members.defaulted?_of_lookup (hlookup "connect_timeout_ms") hconnect,
      Members.defaulted?_of_lookup (hlookup "health_timeout_ms") hhealth,
      Members.defaulted?_of_decodes (a := s.insecure) Json.decodes_bool (hlookup "insecure"),
      Members.defaulted?_of_decodes (a := s.userAgent) Json.decodes_str (hlookup "user_agent")]
    rfl

end EngineSettings

theorem Reading.decodes_lenientString : Json.Decodes Json.str lenient.string? :=
  ⟨fun _ => rfl, nofun⟩

theorem Reading.decodes_lenientBool : Json.Decodes Json.bool lenient.bool? :=
  ⟨fun _ => rfl, nofun⟩

namespace EventSettings

theorem areNames_entries (s : EventSettings) : Settings.AreNames (s.entries.map (·.1)) := by
  change Settings.AreNames (standard.entries.map (·.1))
  decide +kernel

theorem ofJson?_entries {s : EventSettings}
    (h : ∀ n ∈ [s.consumers, s.debounce, s.debounceMaxWait], n ≤ Int64.maxValue.toInt) :
    ofJson? .lenient (Json.object (s.entries.map fun (key, v) => (key, v.toJson))) = some s := by
  have hunique : Members.NamesUnique (s.entries.map fun (key, v) => (key, v.toJson)) := by
    rw [Members.NamesUnique, List.map_map]
    exact s.areNames_entries.right
  have hlookup := Members.lookup_ordered hunique
  rw [Json.object]
  generalize Members.ordered (s.entries.map fun (key, v) => (key, v.toJson)) = m at hlookup
  have hconsumers := Reading.lenient_nat?_nat (h s.consumers (by simp))
  have hdebounce := Reading.lenient_nat?_nat (h s.debounce (by simp))
  have hwait := Reading.lenient_nat?_nat (h s.debounceMaxWait (by simp))
  have hrecord (names : List String) : Reading.lenient.record? names (.obj m) = some m := rfl
  rw [ofJson?, hrecord, Option.bind_eq_bind, Option.bind_some,
    Members.defaulted?_of_lookup (hlookup "num_consumers") hconsumers,
    Members.defaulted?_of_lookup (hlookup "debounce_duration_ms") hdebounce,
    Members.defaulted?_of_lookup (hlookup "debounce_max_wait_ms") hwait,
    Members.defaulted?_of_decodes (a := s.asyncUploads) Reading.decodes_lenientBool
      (hlookup "async_uploads"),
    Members.defaulted?_of_decodes (a := s.consumerGroup) Reading.decodes_lenientString
      (hlookup "consumer_group")]
  rfl

end EventSettings

namespace Settings

/-- All whole numbers of the settings. -/
def numbers (s : Settings) : List Nat :=
  s.engine.numbers ++ [s.events.consumers, s.events.debounce, s.events.debounceMaxWait] ++
    [s.batchSize]

theorem areNames_blocks (s : Settings) : AreNames (s.blocks.map (·.name)) ∧
    ∀ b ∈ s.blocks, AreNames (b.entries.map (·.1)) := by
  have hengine : AreNames (s.engine.entries.map (·.1)) := by
    rw [EngineSettings.entries_eq]
    refine AreNames.sublist ?_ (keys_present s.engine.allFields)
    rw [EngineSettings.keys_allFields]
    exact s.engine.areNames_fieldNames
  have hnames : AreNames ["engine", "events", "indexing", "log"] ∧ AreNames ["batch_size"] ∧
      AreNames ["level"] := by decide +kernel
  refine ⟨hnames.left, ?_⟩
  simp only [blocks, List.forall_mem_cons]
  exact ⟨hengine, s.events.areNames_entries, hnames.right.left, hnames.right.right,
    List.forall_mem_nil _⟩

theorem isRegular_blocks (s : Settings) : ∀ b ∈ s.blocks, b.IsRegular := by
  obtain ⟨hnames, hkeys⟩ := s.areNames_blocks
  intro b hb
  refine ⟨(hnames.left b.name (List.mem_map_of_mem hb)).left, fun e he => ?_, (hkeys b hb).right⟩
  exact ((hkeys b hb).left e.1 (List.mem_map_of_mem he)).left

/-- What is written of settings is laid over nothing as it is. -/
theorem overlay_members (s : Settings) :
    overlay (.obj []) (Toml.members s.blocks).ordered = .obj (Toml.members s.blocks).ordered := by
  obtain ⟨hnames, hkeys⟩ := s.areNames_blocks
  refine overlay_empty (fun m hm => ?_) (Members.sorted_ordered _)
  obtain ⟨b, hb, rfl⟩ := List.mem_map.mp (Members.mem_ordered hm)
  refine ⟨(hnames.left b.name (List.mem_map_of_mem hb)).right, _, rfl, Members.sorted_ordered _,
    fun e he => ?_⟩
  obtain ⟨x, hx, rfl⟩ := List.mem_map.mp (Members.mem_ordered he)
  refine ⟨((hkeys b hb).left x.1 (List.mem_map_of_mem hx)).right, fun t ht => ?_⟩
  obtain ⟨key, v⟩ := x
  cases v with
  | text _ => cases ht
  | number _ => cases ht
  | truth _ => cases ht

theorem single?_object {α : Type} {name : String} {fallback a : α} {read : Json → Option α}
    {v : Json} (h : read v = some a) :
    single? .lenient name fallback read (Json.object [(name, v)]) = some a := by
  have hrecord : Reading.lenient.record? [name] (Json.object [(name, v)]) = some [(name, v)] := rfl
  have hlookup : List.lookup name [(name, v)] = some v := List.lookup_cons_self
  rw [single?, hrecord, Option.bind_eq_bind, Option.bind_some,
    Members.defaulted?_of_lookup hlookup h]

/-- Settings are read from the tables that they are written as. -/
theorem ofJson?_members {s : Settings} (h : ∀ n ∈ s.numbers, n ≤ Int64.maxValue.toInt) :
    ofJson? .lenient (.obj (Toml.members s.blocks).ordered) = some s := by
  obtain ⟨hnumbers, hbatch⟩ := List.forall_mem_append.mp h
  obtain ⟨hengine, hevents⟩ := List.forall_mem_append.mp hnumbers
  have hunique : (Toml.members s.blocks).NamesUnique := s.areNames_blocks.left.right
  have hlookup := Members.lookup_ordered hunique
  generalize (Toml.members s.blocks).ordered = m at hlookup
  have hrecord (names : List String) : Reading.lenient.record? names (.obj m) = some m := rfl
  have hsize := Reading.lenient_nat?_nat (hbatch s.batchSize List.mem_cons_self)
  rw [ofJson?, hrecord, Option.bind_eq_bind, Option.bind_some,
    Members.defaulted?_of_lookup (hlookup "engine") (EngineSettings.ofJson?_entries hengine),
    Members.defaulted?_of_lookup (hlookup "events") (EventSettings.ofJson?_entries hevents),
    Members.defaulted?_of_lookup (hlookup "indexing") (single?_object hsize),
    Members.defaulted?_of_lookup (hlookup "log")
      (single?_object (Reading.decodes_lenientString.read s.logLevel))]
  rfl

theorem environmentLayer_of_others {environment : List (String × String)}
    (h : ∀ e ∈ environment, ¬ variableStart <+: Text.lower e.1.toList) :
    environmentLayer environment = [] := by
  rw [environmentLayer, List.filterMap_eq_nil_iff]
  intro e he
  rw [Option.map_eq_none_iff, Option.eq_none_iff_forall_ne_some]
  intro path hpath
  exact h e he ⟨path, List.isPrefixOf?_eq_some_iff_append_eq.mp hpath⟩

/-- The numbers of the tables are those of the settings. -/
theorem numbers_blocks (s : Settings) : Toml.numbers s.blocks = s.numbers := by
  obtain ⟨engine, events, batchSize, logLevel⟩ := s
  cases engine with
  | embedded c => rfl
  | clustered c =>
    obtain ⟨url, index, username, password, timeout, connectTimeout, healthTimeout, insecure,
      userAgent⟩ := c
    cases username with
    | none =>
      cases password with
      | none => rfl
      | some _ => rfl
    | some _ =>
      cases password with
      | none => rfl
      | some _ => rfl

/-- Loading a document that can be read is a matter of its values. -/
theorem load_of_read? {text : String} {members : Members} (h : Toml.read? text = some members)
    (environment : List (String × String)) : load (some text) environment =
      match ofJson? .lenient
        (overlay (overlay (.obj []) members) (environmentLayer environment)) with
      | none => .error .unreadable
      | some s =>
        match s.validate with
        | .ok () => .ok s
        | .error fault => .error (.invalid fault) := by
  rw [load, h]
  rfl

/-- Settings whose numbers are signed numbers of 64 bits are saved, and where no variable of the
service is set they are loaded again if they are valid, and are refused with their fault if not. -/
theorem load_saved (s : Settings) (h : ∀ n ∈ s.numbers, n ≤ Int64.maxValue.toInt)
    (environment : List (String × String))
    (henvironment : ∀ e ∈ environment, ¬ variableStart <+: Text.lower e.1.toList) :
    ∃ text, s.document? = some text ∧ load (some text) environment =
      match s.validate with
      | .ok () => .ok s
      | .error fault => .error (.invalid fault) := by
  obtain ⟨text, htext⟩ := Toml.exists_render? (s.numbers_blocks.symm ▸ h)
  have hread := Toml.read?_render? s.isRegular_blocks s.areNames_blocks.left.right htext
  have hnothing (v : Json) : overlay v [] = v := rfl
  refine ⟨text, htext, ?_⟩
  rw [load_of_read? hread, environmentLayer_of_others henvironment, hnothing, overlay_members,
    ofJson?_members h]

/-- Texts that look like numbers, words, quotes and lines, valid settings and others. -/
theorem load_saved_of_odd_texts :
    let c : ClusterSettings := { ClusterSettings.standard with
      index := "# \"\"\" ''' \\ \r\n\n\t\x7f", username := some "\n'''", password := some "" }
    let s : Settings := { standard with
      engine := .clustered c
      events := { EventSettings.standard with consumerGroup := "1979-05-27" } }
    let t : Settings := { s with batchSize := 0 }
    let environment : List (String × String) := [("PATH", "/bin"), ("SPACESEARCH", "engine")]
    (∃ text, s.document? = some text ∧ load (some text) environment = .ok s) ∧
      ∃ text, t.document? = some text ∧
        load (some text) environment = .error (.invalid .emptyBatches) := by
  intro c s t environment
  have henvironment : ∀ e ∈ environment, ¬ variableStart <+: Text.lower e.1.toList := by
    decide +kernel
  have hvalid : s.validate = .ok () := by decide +kernel
  have hempty : t.validate = .error .emptyBatches := by decide +kernel
  obtain ⟨text, htext, hload⟩ := load_saved s (by decide +kernel) environment henvironment
  obtain ⟨text', htext', hload'⟩ := load_saved t (by decide +kernel) environment henvironment
  rw [hvalid] at hload
  rw [hempty] at hload'
  exact ⟨⟨text, htext, hload⟩, text', htext', hload'⟩

end Settings

end ResourceIndex
