import Mathlib
import ResourceIndex.Cluster.Backend
import ResourceIndex.Proofs.Cluster.Subtree
import ResourceIndex.Proofs.Store.Batches
/-
Subtree operations through a client of the cluster. If the cluster answers the look-up of the root
with the root, and then makes the change that it is sent, the operation succeeds. What it leaves is
what the store leaves by itself exactly if the operation would alter no stray.
-/
namespace ResourceIndex

theorem Json.ofText?_text (v : Json) : ofText? v.text = read? v.render := by
  rw [ofText?, text, String.toList_ofList]

namespace Cluster

variable {a : Analyzer} {c : Client} {wire : Wire Store} {s t : Store} {root : Resource}

namespace Client

/-- The cluster answers a request with a value, and its documents become others. -/
def Replies (c : Client) (wire : Wire Store) (method : Method) (segments : List String)
    (fields : List (String × String)) (payload : Option Payload) (s t : Store) (v : Json) : Prop :=
  ∃ url body, c.address segments fields = .ok url ∧
    (wire ⟨method, url, c.authorization, c.userAgent, payload⟩).run s = (.answered 200 body, t) ∧
    Json.ofText? body = some v

/-- The resource that the answer to a look-up tells of. -/
def found? (v : Json) : Option Resource :=
  match v.get? "found" with
  | some (.bool false) => none
  | _ => (v.get? "_source").bind Resource.ofJson?

theorem run_send {method : Method} {url : Url} {payload : Option Payload} {status : Nat}
    {body : String} (h : (wire ⟨method, url, c.authorization, c.userAgent, payload⟩).run s =
      (.answered status body, t)) :
    (c.send wire method url payload).run s = (.ok (status, body), t) := by
  have hlift : (ExceptT.lift (wire ⟨method, url, c.authorization, c.userAgent, payload⟩) :
      Action Store Reply).run s = (.ok (.answered status body), t) := by
    change (Except.ok ((wire _).run s).1, ((wire _).run s).2) = _
    rw [h]
  rw [send, Action.run_bind_of_ok hlift]
  rfl

theorem value_of_ofText? {body : String} {v : Json} (h : Json.ofText? body = some v) :
    value (200, body) = .ok v := by
  simp only [value, h]
  rfl

theorem run_json {method : Method} {segments : List String} {fields : List (String × String)}
    {payload : Option Json} {v : Json}
    (h : c.Replies wire method segments fields
      (payload.map fun v => ⟨"application/json", v.text⟩) s t v) :
    (c.json wire method segments fields payload).run s = (.ok v, t) := by
  obtain ⟨url, body, hurl, hreply, htext⟩ := h
  rw [json, hurl, Action.run_bind_of_ok (Action.run_ofExcept _ s),
    Action.run_bind_of_ok (run_send hreply), value_of_ofText? htext, Action.run_ofExcept]

theorem source_of_found? {v : Json} (hv : found? v = some root) :
    v.get? "found" ≠ some (.bool false) ∧
      ∃ source, v.get? "_source" = some source ∧ Resource.ofJson? source = some root := by
  unfold found? at hv
  split at hv
  · cases hv
  · rename_i hfound
    exact ⟨hfound, Option.bind_eq_some_iff.mp hv⟩

theorem run_source? {id : String} {v : Json}
    (h : c.Replies wire .get [c.index, "_doc", id] [] none s t v)
    (hfound : v.get? "found" ≠ some (.bool false)) :
    (c.source? wire id).run s = (.ok (v.get? "_source"), t) := by
  obtain ⟨url, body, hurl, hreply, htext⟩ := h
  have hstatus : (200 : Nat) ≠ 404 := by decide
  rw [source?, hurl, Action.run_bind_of_ok (Action.run_ofExcept _ s),
    Action.run_bind_of_ok (run_send hreply), value_of_ofText? htext, if_neg hstatus,
    Action.run_bind_of_ok (Action.run_ofExcept _ t)]
  split
  · rename_i hfalse
    exact absurd hfalse hfound
  · rfl

theorem run_root {id : String} {v : Json}
    (h : c.Replies wire .get [c.index, "_doc", id] [] none s t v) (hv : found? v = some root) :
    (c.root wire id).run s = (.ok root, t) := by
  obtain ⟨hfound, source, hsource, hread⟩ := source_of_found? hv
  have hrun := run_source? h hfound
  rw [hsource] at hrun
  rw [Client.root, Action.run_bind_of_ok hrun]
  simp only [formed, hread]
  rfl

theorem run_change {x : ByQuery} {v : Json}
    (h : c.Replies wire .post [c.index, x.endpoint]
      [("refresh", "true"), ("wait_for_completion", "true")]
      (some ⟨"application/json", x.toJson.text⟩) s t v)
    (hv : ByQueryReply.ofJson? v = some ⟨[], 0⟩) :
    (c.change wire x).run s = (.ok (), t) := by
  have hjson : (c.json wire .post [c.index, x.endpoint]
      [("refresh", "true"), ("wait_for_completion", "true")] (some x.toJson)).run s = (.ok v, t) :=
    run_json h
  rw [change, Action.run_bind_of_ok hjson]
  simp only [formed, hv]
  rfl

end Client

/-- What a subtree operation asks of the cluster is answered, the look-up of its root with the root
and the change when it has been made as a whole. -/
structure Serves (a : Analyzer) (c : Client) (wire : Wire Store) (s : Store) (root : Resource)
    (action : CascadeAction) : Prop where
  lookup : ∃ v, c.Replies wire .get [c.index, "_doc", root.id] [] none s s v ∧
    Client.found? v = some root
  change : ∃ v, c.Replies wire .post [c.index, (ByQuery.ofCascade root action).endpoint]
      [("refresh", "true"), ("wait_for_completion", "true")]
      (some ⟨"application/json", (ByQuery.ofCascade root action).toJson.text⟩)
      s ((ByQuery.ofCascade root action).run a s) v ∧
    ByQueryReply.ofJson? v = some ⟨[], 0⟩

theorem Serves.run_apply {action : CascadeAction} (h : Serves a c wire s root action) :
    ((c.executor wire).apply ⟨root.id, action⟩).run s =
      (.ok (), (ByQuery.ofCascade root action).run a s) := by
  obtain ⟨⟨found, hlookup, hfound⟩, ⟨reply, hchange, hreply⟩⟩ := h
  change (c.root wire root.id >>= fun root => c.change wire (.ofCascade root action)).run s = _
  rw [Action.run_bind_of_ok (Client.run_root hlookup hfound)]
  exact Client.run_change hchange hreply

/-- The cluster carries out a subtree operation on a stored root. So does the store by itself if it
can look up what lies below, and they leave the same documents exactly if the operation would alter
no stray; else the store does nothing. -/
theorem apply_agrees_iff [RegexBuilder] (hs : s.IdsUnique) (hr : root ∈ s.docs)
    {action : CascadeAction} (hserves : Serves a c wire s root action) :
    ∃ t, ((c.executor wire).apply ⟨root.id, action⟩).run s = (.ok (), t) ∧
      (Store.lookupFault? root = none →
        ∃ u, (Store.executor.apply ⟨root.id, action⟩).run s = (.ok (), u) ∧
          (t = u ↔ ∀ d ∈ s.docs, Stray root d → ¬ Alters root d action)) ∧
      (∀ e, Store.lookupFault? root = some e →
        (Store.executor.apply ⟨root.id, action⟩).run s = (.error e, s)) := by
  have hget : s.get? root.id = some root := (Store.get?_eq_some_iff hs).mpr ⟨hr, rfl⟩
  refine ⟨_, hserves.run_apply, ?_, ?_⟩
  · intro hlookup
    refine ⟨_, ?_, run_ofCascade_eq_cascaded_iff hs hr a action⟩
    rw [Store.run_apply, Store.cascade_eq hs (c := ⟨root.id, action⟩) hget hlookup]
  · intro e hlookup
    rw [Store.run_apply, Store.cascade_of_lookupFault (c := ⟨root.id, action⟩) hget hlookup]

/-- A cluster that looks documents up by their addresses, and makes the one change that it knows. -/
def holding (a : Analyzer) (c : Client) (x : ByQuery) : Wire Store := fun request s =>
  match request.payload with
  | none =>
    match s.docs.find? fun d =>
      (c.address [c.index, "_doc", d.id] []).toOption = some request.url with
    | some d => (.answered 200 (Json.object [("found", .bool true), ("_source", d.toJson)]).text, s)
    | none => (.answered 404 (Json.object [("found", .bool false)]).text, s)
  | some payload =>
    if payload.text = x.toJson.text then
      (.answered 200 (Json.object [("failures", .arr []), ("version_conflicts", .nat 0)]).text,
        x.run a s)
    else (.answered 400 "", s)

theorem serves_holding {action : CascadeAction} (hbase : c.base.isOpaque = false)
    (hr : s.docs.find? (fun d => (c.address [c.index, "_doc", d.id] []).toOption =
      (c.address [c.index, "_doc", root.id] []).toOption) = some root)
    (hread : (Json.read? (Json.object
      [("found", .bool true), ("_source", root.toJson)]).render).bind Client.found? = some root) :
    Serves a c (holding a c (.ofCascade root action)) s root action := by
  have haddress : ∀ segments fields, ∃ url, c.address segments fields = .ok url :=
    fun segments fields => ⟨_, by rw [Client.address, hbase]; rfl⟩
  constructor
  · obtain ⟨v, hv, hfound⟩ := Option.bind_eq_some_iff.mp hread
    obtain ⟨url, hurl⟩ := haddress [c.index, "_doc", root.id] []
    refine ⟨v, ⟨url, _, hurl, ?_, (Json.ofText?_text _).trans hv⟩, hfound⟩
    rw [hurl, Except.toOption] at hr
    change holding a c _ _ s = _
    simp only [holding, hr]
  · obtain ⟨url, hurl⟩ := haddress [c.index, (ByQuery.ofCascade root action).endpoint]
      [("refresh", "true"), ("wait_for_completion", "true")]
    have hreply : (Json.read? (Json.object
        [("failures", .arr []), ("version_conflicts", .nat 0)]).render).bind ByQueryReply.ofJson? =
          some ⟨[], 0⟩ := by cbv
    obtain ⟨v, hv, hwhole⟩ := Option.bind_eq_some_iff.mp hreply
    refine ⟨v, ⟨url, _, hurl, ?_, (Json.ofText?_text _).trans hv⟩, hwhole⟩
    change holding a c _ _ s = _
    simp only [holding, if_true]

/-- A folder is moved with the deleted file in it. Beside it lie a folder whose name begins like
its own, and one at the same path of another space. -/
theorem apply_agrees_on_folder :
    let s : Store := ⟨[⟨"1", "r", "./a", "", .container, false, false, .empty⟩,
      ⟨"2", "r", "./a/x", "", .file, true, false, .empty⟩,
      ⟨"3", "r", "./ab", "", .container, false, false, .empty⟩,
      ⟨"4", "q", "./a", "", .container, false, false, .empty⟩]⟩
    let root : Resource := ⟨"1", "r", "./a", "", .container, false, false, .empty⟩
    let action : CascadeAction := .move "p" "/b/c"
    let a : Analyzer := ⟨fun _ t => [t]⟩
    let c : Client := ⟨⟨"http".toList, some (.domain "localhost".toList), some 9200, false, ['/'],
      none, none⟩, "resources", none, "spacesearch"⟩
    let wire := holding a c (.ofCascade root action)
    s.IdsUnique ∧ root ∈ s.docs ∧ Serves a c wire s root action ∧
      ∃ t, ((c.executor wire).apply ⟨root.id, action⟩).run s = (.ok (), t) ∧
        (Store.executor.apply ⟨root.id, action⟩).run s = (.ok (), t) ∧
        t.docs.map (·.path) = ["./b/c", "./b/c/x", "./ab", "./a"] := by
  intro s root action a c wire
  have hs : (s.docs.map (·.id)).Nodup := by decide
  have hr : root ∈ s.docs := by decide
  have hserves : Serves a c wire s root action :=
    serves_holding rfl (by decide +kernel) (by decide +kernel)
  obtain ⟨t, hcluster, hboth, -⟩ := apply_agrees_iff hs hr hserves
  obtain ⟨u, hstore, hsame⟩ := hboth (by decide +kernel)
  obtain rfl := hsame.mpr (by decide +kernel)
  refine ⟨hs, hr, hserves, t, hcluster, hstore, ?_⟩
  have hrun := hserves.run_apply.symm.trans hcluster
  rw [← (Prod.mk.inj hrun).2]
  decide +kernel

/-- The live container of a path from which another was trashed is purged with the trashed one. -/
theorem purge_of_trashed_folder_disagrees :
    let trashed : Resource := ⟨"1", "r", "./a", "", .container, true, false, .empty⟩
    let live : Resource := ⟨"2", "r", "./a", "", .container, false, false, .empty⟩
    let s : Store := ⟨[trashed, live]⟩
    let action : CascadeAction := .purge false
    let a : Analyzer := ⟨fun _ t => [t]⟩
    let c : Client := ⟨⟨"http".toList, some (.domain "localhost".toList), some 9200, false, ['/'],
      none, none⟩, "resources", none, "spacesearch"⟩
    let wire := holding a c (.ofCascade trashed action)
    s.WellFormed ∧ (∀ d ∈ s.docs, ∀ e ∈ s.docs, d.deleted = false → e.deleted = false →
        d.rootId = e.rootId → d.path = e.path → d = e) ∧
      Serves a c wire s trashed action ∧
      ((c.executor wire).apply ⟨trashed.id, action⟩).run s = (.ok (), ⟨[]⟩) ∧
      (Store.executor.apply ⟨trashed.id, action⟩).run s = (.ok (), ⟨[live]⟩) := by
  intro trashed live s action a c wire
  have hids : (s.docs.map (·.id)).Nodup := by decide
  have hserves : Serves a c wire s trashed action :=
    serves_holding rfl (by decide +kernel) (by decide +kernel)
  have hcluster : (ByQuery.ofCascade trashed action).run a s = ⟨[]⟩ := by decide +kernel
  have hstore : s.cascaded trashed action = ⟨[live]⟩ := by decide +kernel
  refine ⟨⟨hids, by decide +kernel⟩, by decide, hserves, ?_, ?_⟩
  · rw [hserves.run_apply, hcluster]
  · have hget : s.get? trashed.id = some trashed := rfl
    have hlookup : Store.lookupFault? trashed = none := by decide +kernel
    rw [Store.run_apply, Store.cascade_eq hids (c := ⟨trashed.id, action⟩) hget hlookup, hstore]

end Cluster
end ResourceIndex
