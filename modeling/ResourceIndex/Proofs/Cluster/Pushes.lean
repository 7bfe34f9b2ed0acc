import ResourceIndex.Proofs.Cluster.Agreement
import ResourceIndex.Proofs.Cluster.Exchanges
/-
Pushes of a batch to a cluster, request by request. A push succeeds exactly if each request of its
calls was sent and accepted, and the first reply that is not accepted is the last one that is asked
for. What is accepted is complete work but in one case: a change by query that ran out of time.
-/
namespace ResourceIndex

namespace Json

theorem lookup_of_record? {names : List String} {least : Nat} {v w : Json} {m : Members}
    {name : String} (h : v.record? names least = some m) (hw : v.get? name = some w) :
    m.lookup name = some w := by
  cases v with
  | obj members =>
    cases h
    exact hw
  | _ => cases hw

theorem eq_of_list?_nil {α : Type} {read : Json → Option α} {v : Json}
    (h : v.list? read = some []) : v = .arr [] := by
  cases v with
  | arr l =>
    cases l with
    | nil => rfl
    | cons w l =>
      simp only [list?, List.mapM_cons, Option.bind_eq_bind, Option.bind_eq_some_iff] at h
      obtain ⟨_, _, _, _, hcons⟩ := h
      cases hcons
  | _ => cases h

theorem eq_of_nat?_zero {v : Json} (h : v.nat? = some 0) : v = .int 0 := by
  cases v with
  | int n =>
    obtain ⟨k, hk, hzero⟩ := Option.map_eq_some_iff.mp h
    rw [int?] at hk
    split at hk
    · rename_i hbounds
      cases hk
      exact congrArg _ (by omega)
    · cases hk
  | _ => cases h

end Json

namespace Cluster

variable {α β : Type} {c : Client}

/-- What one exchange of a push is for. -/
inductive Task where
  | write (writes : List BulkWrite) : Task
  | lookUp (id : String) : Task
  | change (action : CascadeAction) : Task
deriving Repr

namespace Task

/-- The tasks of a call: a subtree operation looks up its root before it makes its change. -/
def ofCall : Call BulkWrite → List Task
  | .flush writes => [write writes]
  | .apply x => [lookUp x.id, change x.action]

/-- The request is one for the task. -/
def Sends (c : Client) : Task → Request → Prop
  | write writes, r => (c.address ["_bulk"] [("refresh", "true")]).map (c.requestTo .post
      (some ⟨"application/x-ndjson", String.ofList (bulkLines c.index writes)⟩)) = .ok r
  | lookUp id, r => (c.address [c.index, "_doc", id] []).map (c.requestTo .get none) = .ok r
  | change action, r => ∃ root, (c.address [c.index, (ByQuery.ofCascade root action).endpoint]
      [("refresh", "true"), ("wait_for_completion", "true")]).map (c.requestTo .post
        (some ⟨"application/json", (ByQuery.ofCascade root action).toJson.text⟩)) = .ok r

/-- The reply lets a push go on. -/
def Accepts : Task → Reply → Prop
  | write _, reply => ∃ l, reply.value?.bind BulkReply.ofJson? = some ⟨false, l⟩
  | lookUp _, reply => ∃ root, reply.value?.bind Client.found? = some root
  | change _, reply => reply.value?.bind ByQueryReply.ofJson? = some ⟨[], 0⟩

/-- The reply tells of a success, and of nothing that was left undone. -/
def Completes : Task → Reply → Prop
  | write _, reply => ∃ v, reply.value? = some v ∧ v.get? "errors" ≠ some (.bool true)
  | lookUp _, reply => ∃ v source, reply.value? = some v ∧
      v.get? "found" ≠ some (.bool false) ∧ v.get? "_source" = some source
  | change _, reply => ∃ v, reply.value? = some v ∧
      (∀ failures, v.get? "failures" = some failures → failures = .arr []) ∧
      (∀ conflicts, v.get? "version_conflicts" = some conflicts → conflicts = .int 0) ∧
      v.get? "timed_out" ≠ some (.bool true)

/-- The reply tells that a change ran out of time. -/
def RanOut : Task → Reply → Prop
  | change _, reply => ∃ v, reply.value? = some v ∧ v.get? "timed_out" = some (.bool true)
  | _, _ => False

end Task

namespace Client

/-- Each task was asked for in its turn and accepted. -/
def Done (c : Client) : List Task → List Exchange → Prop :=
  List.Forall₂ fun task e => task.Sends c e.request ∧ task.Accepts e.reply

/-- The exchanges stop before the end of the tasks, at a reply that is not accepted or because there
is no address to send a request to. -/
inductive Halted (c : Client) : List Task → List Exchange → Prop where
  | unsent {task : Task} {tasks : List Task} (pathless : c.base.isOpaque = true) :
      c.Halted (task :: tasks) []
  | refused {task : Task} {tasks : List Task} {e : Exchange} (sent : task.Sends c e.request)
      (refused : ¬ task.Accepts e.reply) : c.Halted (task :: tasks) [e]
  | later {task : Task} {tasks : List Task} {e : Exchange} {exchanges : List Exchange}
      (sent : task.Sends c e.request) (accepted : task.Accepts e.reply)
      (rest : c.Halted tasks exchanges) : c.Halted (task :: tasks) (e :: exchanges)

/-- A success comes after all tasks, a failure in the midst of them. -/
def Ends (c : Client) (tasks : List Task) (made : List Exchange) : Except IndexError α → Prop
  | .ok _ => c.Done tasks made
  | .error _ => c.Halted tasks made

/-- What the action sends follows the tasks in their order, up to the first reply that is not
accepted. -/
structure Pursues (c : Client) (act : ∀ {σ : Type}, Wire σ → Action σ α) (tasks : List Task) :
    Prop where
  makes : ∀ {σ : Type} (wire : Wire σ) (s : σ), ∃ made result t,
    Makes act wire s made result t ∧ c.Ends tasks made result

theorem Halted.append {tasks : List Task} {exchanges : List Exchange}
    (h : c.Halted tasks exchanges) (rest : List Task) : c.Halted (tasks ++ rest) exchanges := by
  induction h with
  | unsent pathless => exact .unsent pathless
  | refused sent refused => exact .refused sent refused
  | later sent accepted _ ih => exact .later sent accepted ih

theorem Done.append_halted {tasks rest : List Task} {exchanges further : List Exchange}
    (h : c.Done tasks exchanges) (hrest : c.Halted rest further) :
    c.Halted (tasks ++ rest) (exchanges ++ further) := by
  induction h with
  | nil => exact hrest
  | cons head _ ih => exact .later head.left head.right ih

theorem Done.append {tasks rest : List Task} {exchanges further : List Exchange}
    (h : c.Done tasks exchanges) (hrest : c.Done rest further) :
    c.Done (tasks ++ rest) (exchanges ++ further) := List.rel_append h hrest

theorem Done.not_halted {tasks : List Task} {exchanges : List Exchange}
    (h : c.Done tasks exchanges) : ¬ c.Halted tasks exchanges := by
  intro hhalted
  induction hhalted with
  | unsent => cases h
  | refused _ refused =>
    cases h with
    | cons head _ => exact refused head.right
  | later _ _ _ ih =>
    cases h with
    | cons _ rest => exact ih rest

namespace Pursues

variable {act : ∀ {σ : Type}, Wire σ → Action σ α} {tasks rest : List Task}

/-- An action that asks for one task. -/
theorem of_asks (task : Task) {request : Except IndexError Request}
    {result : Reply → Except IndexError α} (h : Asks act request result)
    (hrequest : ∀ r, request = .ok r → task.Sends c r)
    (herror : ∀ e, request = .error e → c.base.isOpaque = true)
    (hresult : ∀ reply, (∃ x, (result reply).toOption = some x) ↔ task.Accepts reply) :
    c.Pursues act [task] := by
  constructor
  intro σ wire s
  cases hr : request with
  | error e => exact ⟨_, _, _, .of_asks_error h hr, .unsent (herror e hr)⟩
  | ok r =>
    refine ⟨_, _, _, .of_asks h hr, ?_⟩
    have haccepts := hresult ((wire r).run s).1
    cases hreply : result ((wire r).run s).1 with
    | ok x =>
      rw [hreply] at haccepts
      exact .cons ⟨hrequest r hr, haccepts.mp ⟨x, rfl⟩⟩ .nil
    | error e =>
      rw [hreply] at haccepts
      exact .refused (hrequest r hr) fun haccepted => nomatch haccepts.mpr haccepted

theorem bind (h : c.Pursues act tasks) {f : ∀ {σ : Type}, Wire σ → α → Action σ β}
    (hf : ∀ x, c.Pursues (fun wire => f wire x) rest) :
    c.Pursues (fun wire => act wire >>= f wire) (tasks ++ rest) := by
  constructor
  intro σ wire s
  obtain ⟨made, result, t, hmakes, hends⟩ := h.makes wire s
  cases result with
  | error e => exact ⟨_, _, _, hmakes.bind_error, Halted.append hends rest⟩
  | ok x =>
    obtain ⟨further, last, u, hfurther, hlast⟩ := (hf x).makes wire t
    refine ⟨_, _, _, hmakes.bind hfurther, ?_⟩
    cases last with
    | ok y => exact Done.append hends hlast
    | error e => exact Done.append_halted hends hlast

theorem pure (x : α) : c.Pursues (fun _ => Pure.pure x) [] :=
  ⟨fun _ _ => ⟨_, _, _, .pure x, .nil⟩⟩

end Pursues

theorem toOption_json_formed_eq_some_iff {read : Json → Option α} {g : α → Except IndexError β}
    {reply : Reply} {y : β} :
    (reply.json >>= fun v => formed read v >>= g).toOption = some y ↔
      ∃ x, reply.value?.bind read = some x ∧ g x = .ok y := by
  simp only [Except.toOption_bind, Reply.toOption_json, toOption_formed]
  rw [← Option.bind_assoc, Option.bind_eq_some_iff]
  simp only [Except.toOption_eq_some_iff]

theorem isOpaque_of_address {segments : List String} {fields : List (String × String)}
    {f : Url → Request} {e : IndexError} (h : (c.address segments fields).map f = .error e) :
    c.base.isOpaque = true := by
  rw [address] at h
  split at h
  · assumption
  · cases h

theorem pursues_write (c : Client) (writes : List BulkWrite) :
    c.Pursues (fun wire => c.write wire writes) [.write writes] := by
  refine .of_asks (.write writes) (c.asks_write writes) (fun r hr => hr)
    (fun e he => isOpaque_of_address he) fun reply => ?_
  simp only [toOption_json_formed_eq_some_iff]
  constructor
  · rintro ⟨x, ⟨hasErrors, errors⟩, hread, hcheck⟩
    cases hasErrors with
    | false => exact ⟨errors, hread⟩
    | true => cases hcheck
  · exact fun ⟨errors, hread⟩ => ⟨(), _, hread, rfl⟩

theorem pursues_change (c : Client) (root : Resource) (action : CascadeAction) :
    c.Pursues (fun wire => c.change wire (.ofCascade root action)) [.change action] := by
  have hasks : Asks (fun wire => c.change wire (.ofCascade root action)) _ fun reply =>
      reply.json >>= fun v => formed ByQueryReply.ofJson? v >>=
        ByQueryReply.check (ByQuery.ofCascade root action).endpoint :=
    (c.asks_json .post _ _ (some (ByQuery.ofCascade root action).toJson)).bind fun v s =>
      Action.run_ofExcept_bind (formed ByQueryReply.ofJson? v) _ s
  refine .of_asks (.change action) hasks (fun r hr => ⟨root, hr⟩)
    (fun e he => isOpaque_of_address he) fun reply => ?_
  simp only [toOption_json_formed_eq_some_iff]
  constructor
  · rintro ⟨x, ⟨failures, conflicts⟩, hread, hcheck⟩
    cases failures with
    | cons failure rest => cases hcheck
    | nil =>
      cases conflicts with
      | zero => exact hread
      | succ n => cases hcheck
  · exact fun hread => ⟨(), _, hread, rfl⟩

/-- The source that a value tells of which answers a look-up. -/
def told? (v : Json) : Option Json :=
  match v.get? "found" with
  | some (.bool false) => none
  | _ => v.get? "_source"

theorem found?_eq_bind_told? (v : Json) : found? v = (told? v).bind Resource.ofJson? := by
  unfold found? told?
  cases v.get? "found" with
  | none => rfl
  | some w =>
    cases w with
    | bool b =>
      cases b with
      | false => rfl
      | true => rfl
    | _ => rfl

def sourceOf (reply : Nat × String) : Except IndexError (Option Json) :=
  if reply.1 = 404 then .ok none else (value reply).map told?

/-- The root that the reply to its look-up tells of. -/
def rootOf (id : String) (reply : Reply) : Except IndexError Resource :=
  reply.outcome >>= sourceOf >>= fun source =>
    match source with
    | none => .error (.notFound id)
    | some v => formed Resource.ofJson? v

theorem toOption_rootOf (id : String) (reply : Reply) :
    (rootOf id reply).toOption = reply.value?.bind found? := by
  cases reply with
  | lost => rfl
  | answered status body =>
    change (sourceOf (status, body) >>= _).toOption = _
    by_cases hmissing : status = 404
    · subst hmissing
      rfl
    · rw [sourceOf, if_neg hmissing, ← Reply.json_answered, Except.toOption_bind,
        Except.toOption_map, Reply.toOption_json]
      cases (Reply.answered status body).value? with
      | none => rfl
      | some document =>
        rw [Option.map_some, Option.bind_some, Option.bind_some, found?_eq_bind_told?]
        cases told? document with
        | none => rfl
        | some v => exact toOption_formed _ v

/-- Looking up a source asks for the document of the id in the index. -/
theorem asks_source (c : Client) (id : String) :
    Asks (fun wire => c.source? wire id)
      ((c.address [c.index, "_doc", id] []).map (c.requestTo .get none))
      fun reply => reply.outcome >>= sourceOf := by
  refine Asks.of_address fun url => Asks.bind (c.asks_send .get none url) fun reply s => ?_
  unfold sourceOf
  split
  · rfl
  · cases value reply with
    | error e => rfl
    | ok document =>
      change (match document.get? "found" with
        | some (.bool false) => Pure.pure none
        | _ => Pure.pure (document.get? "_source") : Action _ (Option Json)).run s =
          (.ok (told? document), s)
      unfold told?
      split
      · rfl
      · rfl

theorem asks_root (c : Client) (id : String) :
    Asks (fun wire => c.root wire id)
      ((c.address [c.index, "_doc", id] []).map (c.requestTo .get none)) (rootOf id) := by
  refine (c.asks_source id).bind fun source s => ?_
  cases source with
  | none => rfl
  | some v => rfl

theorem pursues_call (c : Client) (call : Call BulkWrite) :
    c.Pursues (fun wire => (c.executor wire).call call) (Task.ofCall call) := by
  cases call with
  | flush writes => exact pursues_write c writes
  | apply x =>
    have hroot : c.Pursues (fun wire => c.root wire x.id) [.lookUp x.id] :=
      .of_asks (.lookUp x.id) (asks_root c x.id) (fun r hr => hr)
        (fun e he => isOpaque_of_address he) fun reply => by
          rw [toOption_rootOf]
          exact Iff.rfl
    exact hroot.bind fun root => pursues_change c root x.action

theorem pursues_run (c : Client) (calls : List (Call BulkWrite)) :
    c.Pursues (fun wire => (c.executor wire).run calls) (calls.flatMap Task.ofCall) := by
  induction calls with
  | nil => exact .pure ()
  | cons call calls ih => exact (pursues_call c call).bind fun _ => ih

end Client

namespace Task

theorem Accepts.completes_iff {task : Task} {reply : Reply} (h : task.Accepts reply) :
    task.Completes reply ↔ ¬ task.RanOut reply := by
  cases task with
  | write writes =>
    obtain ⟨l, hl⟩ := h
    obtain ⟨v, hv, hread⟩ := Option.bind_eq_some_iff.mp hl
    refine iff_of_true ⟨v, hv, fun herrors => ?_⟩ fun hout => hout
    simp only [BulkReply.ofJson?, Option.bind_eq_bind, Option.bind_eq_some_iff] at hread
    obtain ⟨m, hm, hasErrors, hhas, hrest⟩ := hread
    rw [Json.Members.defaulted?, Json.lookup_of_record? hm herrors] at hhas
    cases hhas
    obtain ⟨_, _, hreply⟩ := hrest
    cases hreply
  | lookUp id =>
    obtain ⟨root, hroot⟩ := h
    obtain ⟨v, hv, hfound⟩ := Option.bind_eq_some_iff.mp hroot
    obtain ⟨hnot, source, hsource, -⟩ := Client.source_of_found? hfound
    exact iff_of_true ⟨v, source, hv, hnot, hsource⟩ fun hout => hout
  | change action =>
    obtain ⟨v, hv, hread⟩ := Option.bind_eq_some_iff.mp h
    simp only [ByQueryReply.ofJson?, Option.bind_eq_bind, Option.bind_eq_some_iff] at hread
    obtain ⟨m, hm, failures, hfailures, conflicts, hconflicts, hreply⟩ := hread
    cases hreply
    have hnone : ∀ w, v.get? "failures" = some w → w = .arr [] := by
      intro w hw
      rw [Json.Members.defaulted?, Json.lookup_of_record? hm hw] at hfailures
      exact Json.eq_of_list?_nil hfailures
    have hzero : ∀ w, v.get? "version_conflicts" = some w → w = .int 0 := by
      intro w hw
      rw [Json.Members.defaulted?, Json.lookup_of_record? hm hw] at hconflicts
      exact Json.eq_of_nat?_zero hconflicts
    constructor
    · rintro ⟨v', hv', -, -, htimed⟩ ⟨w, hw, hout⟩
      cases hv'.symm.trans hw
      exact htimed hout
    · exact fun hout => ⟨v, hv, hnone, hzero, fun htimed => hout ⟨v, hv, htimed⟩⟩

end Task

namespace Client

theorem Done.accepts {tasks : List Task} {exchanges : List Exchange}
    (h : c.Done tasks exchanges) : ∀ p ∈ tasks.zip exchanges, p.1.Accepts p.2.reply :=
  fun _ hp => ((List.forall₂_iff_zip.mp h).right hp).right

theorem Halted.accepts_dropLast {tasks : List Task} {exchanges : List Exchange}
    (h : c.Halted tasks exchanges) :
    ∀ p ∈ (tasks.zip exchanges).dropLast, p.1.Accepts p.2.reply := by
  induction h with
  | unsent => exact fun p hp => absurd hp List.not_mem_nil
  | refused _ _ =>
    intro p hp
    rw [List.zip_cons_cons, List.zip_nil_right] at hp
    cases hp
  | @later task tasks e exchanges _ accepted _ ih =>
    intro p hp
    rw [List.zip_cons_cons] at hp
    cases hrest : tasks.zip exchanges with
    | nil =>
      rw [hrest] at hp
      cases hp
    | cons q rest =>
      rw [hrest, List.dropLast_cons_cons] at hp
      rcases List.mem_cons.mp hp with rfl | hp
      · exact accepted
      · exact ih p (hrest ▸ hp)

end Client

/-- A push succeeds exactly if every task is asked for and accepted, and otherwise it stops at the
first that is not. Nothing but a change that ran out of time is taken for complete without being so:
neither in a push that succeeds nor where a push goes on. -/
theorem push_complete_iff_no_change_ran_out {σ : Type} (c : Client) (b : StagedBatch BulkWrite)
    (wire : Wire σ) (s : σ) : ∃ log,
      let o := b.push (c.executor wire) s
      let tasks := (Call.group b.staged).flatMap Task.ofCall
      let course := tasks.zip log
      b.push (c.executor (recorded wire)) (s, []) = ⟨o.result, o.batch, o.state, log⟩ ∧
      (o.result = .ok () ↔ c.Done tasks log) ∧ (o.result ≠ .ok () ↔ c.Halted tasks log) ∧
      (o.result = .ok () → ((∀ p ∈ course, p.1.Completes p.2.reply) ↔
        ∀ p ∈ course, ¬ p.1.RanOut p.2.reply)) ∧
      ((∀ p ∈ course.dropLast, p.1.Completes p.2.reply) ↔
        ∀ p ∈ course.dropLast, ¬ p.1.RanOut p.2.reply) := by
  obtain ⟨log, result, t, hmakes, hends⟩ :=
    (Client.pursues_run c (Call.group b.staged)).makes wire s
  refine ⟨log, ?_⟩
  intro o tasks course
  have hplain : o = ⟨result, b.cleared, t⟩ := by
    change b.push (c.executor wire) s = _
    rw [StagedBatch.push, hmakes.plain]
  have hnoted : b.push (c.executor (recorded wire)) (s, []) =
      ⟨o.result, o.batch, o.state, log⟩ := by
    rw [StagedBatch.push, hmakes.noted [], hplain]
    rfl
  have hcases : o.result = .ok () ∧ c.Done tasks log ∨
      o.result ≠ .ok () ∧ c.Halted tasks log := by
    rw [hplain]
    cases result with
    | ok u => exact .inl ⟨rfl, hends⟩
    | error e =>
      refine .inr ⟨fun h => ?_, hends⟩
      cases h
  have hcourse : ∀ l : List (Task × Exchange), (∀ p ∈ l, p.1.Accepts p.2.reply) →
      ((∀ p ∈ l, p.1.Completes p.2.reply) ↔ ∀ p ∈ l, ¬ p.1.RanOut p.2.reply) :=
    fun l h => forall₂_congr fun p hp => (h p hp).completes_iff
  rcases hcases with ⟨hok, hdone⟩ | ⟨herror, hhalted⟩
  · refine ⟨hnoted, iff_of_true hok hdone, iff_of_false (not_not.mpr hok) hdone.not_halted,
      fun _ => hcourse _ hdone.accepts, hcourse _ ?_⟩
    exact fun p hp => hdone.accepts p (List.mem_of_mem_dropLast hp)
  · exact ⟨hnoted, iff_of_false herror fun hdone => hdone.not_halted hhalted,
      iff_of_true herror hhalted, fun hok => absurd hok herror,
      hcourse _ hhalted.accepts_dropLast⟩

/-- A cluster that answers with given replies, one after another, whatever it is asked. -/
def scripted : Wire (List Reply) := fun _ replies =>
  match replies with
  | [] => (.lost, [])
  | reply :: rest => (reply, rest)

/-- A file is trashed twice. The first of the changes runs out of time, and neither does the push
stop there nor does it fail. -/
theorem push_succeeds_although_change_ran_out :
    let c : Client := ⟨⟨"http".toList, some (.domain "localhost".toList), some 9200, false, ['/'],
      none, none⟩, "resources", none, "spacesearch"⟩
    let b : StagedBatch BulkWrite :=
      ⟨10, by decide, [.cascade ⟨"1", .setDeleted true⟩, .cascade ⟨"1", .setDeleted true⟩]⟩
    let stored : Json := .obj [("id", .str "1"), ("path", .str "./a"), ("root_id", .str "r")]
    let found : Reply := .answered 200 (Json.obj [("_source", stored)]).text
    let cutShort : Reply := .answered 200 (Json.obj [("timed_out", .bool true)]).text
    let made : Reply := .answered 200 (Json.obj [("updated", .nat 1)]).text
    let o := b.push (c.executor (recorded scripted)) ([found, cutShort, found, made], [])
    o.result = .ok () ∧ o.state.2.map (·.reply) = [found, cutShort, found, made] ∧
      ¬ (Task.change (.setDeleted true)).Completes cutShort := by
  intro c b stored found cutShort made o
  obtain ⟨hresult, hreplies⟩ :
      o.result = .ok () ∧ o.state.2.map (·.reply) = [found, cutShort, found, made] := by
    decide +kernel
  refine ⟨hresult, hreplies, ?_⟩
  have hcut : (cutShort.value?.bind (Json.get? "timed_out")).bind Json.bool? = some true := by
    decide +kernel
  rintro ⟨v, hv, -, -, htimed⟩
  rw [hv, Option.bind_some] at hcut
  obtain ⟨w, hw, hbool⟩ := Option.bind_eq_some_iff.mp hcut
  cases w with
  | bool b =>
    cases hbool
    exact htimed hw
  | _ => cases hbool

end Cluster
end ResourceIndex
