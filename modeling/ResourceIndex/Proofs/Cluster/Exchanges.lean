import ResourceIndex.Cluster.Batch
import ResourceIndex.Proofs.Batch.Direct
/-
Exchanges with a cluster. Each function of the client sends at most one request, and its result
depends on nothing but the reply. A wire that keeps an account shows what is sent and how it is
answered.
-/
namespace ResourceIndex

namespace Except

variable {α β : Type} {a : Except IndexError α}

theorem toOption_eq_some_iff {x : α} : a.toOption = some x ↔ a = .ok x := by
  cases a with
  | error e => exact iff_of_false nofun nofun
  | ok y => rw [Except.toOption, Option.some.injEq, Except.ok.injEq]

theorem toOption_eq_none_iff : a.toOption = none ↔ ∃ e, a = .error e := by
  cases a with
  | error e => exact iff_of_true rfl ⟨e, rfl⟩
  | ok x => exact iff_of_false nofun nofun

theorem toOption_map (f : α → β) : (a.map f).toOption = a.toOption.map f := by
  cases a with
  | error e => rfl
  | ok x => rfl

theorem toOption_bind (f : α → Except IndexError β) :
    (a >>= f).toOption = a.toOption.bind fun x => (f x).toOption := by
  cases a with
  | error e => rfl
  | ok x => rfl

/-- Errors that only become other errors stay failures. -/
theorem toOption_tryCatch {g : IndexError → Except IndexError α} (hg : ∀ e, (g e).toOption = none) :
    (a.tryCatch g).toOption = a.toOption := by
  cases a with
  | error e => exact hg e
  | ok x => rfl

end Except

namespace Action

variable {σ α β : Type}

theorem run_bind_of_error {a : Action σ α} {e : IndexError} {s u : σ} (h : a.run s = (.error e, u))
    (f : α → Action σ β) : (a >>= f).run s = (.error e, u) := by
  change (ExceptT.bindCont f (a.run s).1) (a.run s).2 = _
  rw [h]
  rfl

theorem run_tryCatch (a : Action σ α) (f : IndexError → Action σ α) (s : σ) :
    (tryCatch a f).run s =
      match a.run s with
      | (.ok x, u) => (.ok x, u)
      | (.error e, u) => (f e).run u := by
  cases h : a.run s with
  | mk result u =>
    have hstep : a s = (result, u) := h
    simp only [tryCatch, tryCatchThe, MonadExceptOf.tryCatch, ExceptT.tryCatch, ExceptT.run_mk,
      bind, StateT.bind, hstep]
    cases result with
    | ok x => rfl
    | error e => rfl

theorem run_ofExcept_bind (e : Except IndexError α) (f : α → Except IndexError β) (s : σ) :
    (ofExcept e >>= fun x => ofExcept (f x) : Action σ β).run s = (e >>= f, s) := by
  cases e with
  | ok x => rfl
  | error e => rfl

end Action

namespace Cluster

variable {α β : Type}

namespace Reply

def isSuccess : Reply → Bool
  | answered status _ => Status.isSuccess status
  | lost => false

/-- The value that a reply of success has for its body. -/
def value? : Reply → Option Json
  | answered status body => if Status.isSuccess status then Json.ofText? body else none
  | lost => none

/-- What a client makes of a reply before it looks into it. -/
def outcome : Reply → Except IndexError (Nat × String)
  | answered status body => .ok (status, body)
  | lost => .error (.http "error sending request")

/-- The value of a reply, or why it has none. -/
def json (reply : Reply) : Except IndexError Json := reply.outcome >>= Client.value

theorem json_answered (status : Nat) (body : String) :
    (answered status body).json = Client.value (status, body) := rfl

theorem toOption_json (reply : Reply) : reply.json.toOption = reply.value? := by
  cases reply with
  | lost => rfl
  | answered status body =>
    rw [json_answered, Client.value, value?]
    cases Status.isSuccess status with
    | false => rfl
    | true =>
      simp only [Bool.not_true, Bool.false_eq_true, if_false, if_true]
      cases Json.ofText? body with
      | none => rfl
      | some v => rfl

end Reply

theorem toOption_formed (read : Json → Option α) (v : Json) :
    (formed read v).toOption = read v := by
  unfold formed
  cases read v with
  | none => rfl
  | some x => rfl

structure Exchange where
  request : Request
  reply : Reply
deriving DecidableEq

/-- The wire with an account of what goes over it. -/
def recorded {σ : Type} (wire : Wire σ) : Wire (σ × List Exchange) := fun request s =>
  let answer := (wire request).run s.1
  (answer.1, answer.2, s.2 ++ [⟨request, answer.1⟩])

/-- Over any wire the action sends the request, or nothing if there is none, and its result depends
on the reply only. -/
structure Asks (act : ∀ {σ : Type}, Wire σ → Action σ α) (request : Except IndexError Request)
    (result : Reply → Except IndexError α) : Prop where
  run : ∀ {σ : Type} (wire : Wire σ) (s : σ), (act wire).run s =
    match request with
    | .ok r => (result ((wire r).run s).1, ((wire r).run s).2)
    | .error e => (.error e, s)

namespace Asks

variable {act : ∀ {σ : Type}, Wire σ → Action σ α} {request : Except IndexError Request}
  {r : Request} {result : Reply → Except IndexError α}

/-- What is looked at afterwards asks for nothing more. -/
theorem bind (h : Asks act request result) {f : ∀ {σ : Type}, α → Action σ β}
    {g : α → Except IndexError β} (hf : ∀ {σ : Type} (x : α) (s : σ), (f x).run s = (g x, s)) :
    Asks (fun wire => act wire >>= f) request fun reply => result reply >>= g := by
  constructor
  intro σ wire s
  have hact := h.run wire s
  cases request with
  | error e => exact Action.run_bind_of_error hact _
  | ok r =>
    simp only at hact ⊢
    cases hresult : result ((wire r).run s).1 with
    | error e =>
      rw [hresult] at hact
      exact Action.run_bind_of_error hact _
    | ok x =>
      rw [hresult] at hact
      rw [Action.run_bind_of_ok hact, hf]
      rfl

/-- A handler that asks for nothing does as it would in any other state. -/
theorem tryCatch (h : Asks act (.ok r) result) {f : ∀ {σ : Type}, IndexError → Action σ α}
    (hf : ∀ {σ : Type} (e : IndexError) (s : σ), (f e).run s = (((f e).run ()).1, s)) :
    Asks (fun wire => MonadExcept.tryCatch (act wire) f) (.ok r) fun reply =>
      (result reply).tryCatch fun e => ((f e).run ()).1 := by
  constructor
  intro σ wire s
  have hact := h.run wire s
  simp only at hact ⊢
  rw [Action.run_tryCatch, hact]
  cases result ((wire r).run s).1 with
  | ok x => rfl
  | error e => exact hf e _

/-- An action that starts with an address sends nothing without one. -/
theorem of_address {address : Except IndexError Url}
    {act : ∀ {σ : Type}, Url → Wire σ → Action σ α} {requestTo : Url → Request}
    (h : ∀ url, Asks (act url) (.ok (requestTo url)) result) :
    Asks (fun wire => Action.ofExcept address >>= fun url => act url wire)
      (address.map requestTo) result := by
  constructor
  intro σ wire s
  cases address with
  | error e => exact Action.run_bind_of_error (Action.run_ofExcept _ s) _
  | ok url => exact (Action.run_bind_of_ok (Action.run_ofExcept _ s) _).trans ((h url).run wire s)

end Asks

/-- From a state the action comes to a result and leaves another state; to a wire that keeps account
it makes just the exchanges. -/
structure Makes {σ : Type} (act : ∀ {σ : Type}, Wire σ → Action σ α) (wire : Wire σ) (s : σ)
    (made : List Exchange) (result : Except IndexError α) (t : σ) : Prop where
  plain : (act wire).run s = (result, t)
  noted : ∀ log, (act (recorded wire)).run (s, log) = (result, t, log ++ made)

namespace Makes

variable {σ : Type} {act : ∀ {σ : Type}, Wire σ → Action σ α} {wire : Wire σ} {s t u : σ}
  {made further : List Exchange} {request : Except IndexError Request} {r : Request}
  {e : IndexError} {result : Reply → Except IndexError α}

theorem of_asks (h : Asks act request result) (hr : request = .ok r) :
    Makes act wire s [⟨r, ((wire r).run s).1⟩] (result ((wire r).run s).1) ((wire r).run s).2 := by
  subst hr
  exact ⟨h.run wire s, fun log => h.run (recorded wire) (s, log)⟩

theorem of_asks_error (h : Asks act request result) (he : request = .error e) :
    Makes act wire s [] (.error e) s := by
  subst he
  exact ⟨h.run wire s, fun log => (h.run (recorded wire) (s, log)).trans (by rw [List.append_nil])⟩

theorem ofExcept (e : Except IndexError α) :
    Makes (fun _ => Action.ofExcept e) wire s [] e s :=
  ⟨rfl, fun log => by rw [List.append_nil]; rfl⟩

theorem pure (x : α) : Makes (fun _ => Pure.pure x) wire s [] (.ok x) s :=
  ⟨rfl, fun log => by rw [List.append_nil]; rfl⟩

theorem bind {x : α} {f : ∀ {σ : Type}, Wire σ → α → Action σ β} {last : Except IndexError β}
    (h : Makes act wire s made (.ok x) t)
    (hf : Makes (fun wire => f wire x) wire t further last u) :
    Makes (fun wire => act wire >>= f wire) wire s (made ++ further) last u := by
  constructor
  · rw [Action.run_bind_of_ok h.plain, hf.plain]
  · intro log
    rw [Action.run_bind_of_ok (h.noted log), hf.noted, List.append_assoc]

theorem bind_error {f : ∀ {σ : Type}, Wire σ → α → Action σ β}
    (h : Makes act wire s made (.error e) t) :
    Makes (fun wire => act wire >>= f wire) wire s made (.error e) t :=
  ⟨Action.run_bind_of_error h.plain _, fun log => Action.run_bind_of_error (h.noted log) _⟩

/-- An action that succeeds under a condition, and another that is only come to then. -/
theorem bind_of_ite {b : Bool} {x : α} {first : Except IndexError α}
    {f : ∀ {σ : Type}, Wire σ → α → Action σ β} {last : Except IndexError β}
    (h : Makes act wire s made first t) (hfirst : first.toOption = if b then some x else none)
    (hf : Makes (fun wire => f wire x) wire t further last u) :
    ∃ result v, Makes (fun wire => act wire >>= f wire) wire s
        (made ++ if b then further else []) result v ∧
      result.toOption = if b then last.toOption else none := by
  cases b with
  | false =>
    obtain ⟨e, rfl⟩ := Except.toOption_eq_none_iff.mp hfirst
    exact ⟨.error e, t, by simpa using h.bind_error, rfl⟩
  | true =>
    obtain rfl := Except.toOption_eq_some_iff.mp hfirst
    exact ⟨last, u, h.bind hf, rfl⟩

end Makes

namespace Client

variable (c : Client) (method : Method) (segments : List String) (fields : List (String × String))

/-- The request to an address with a payload. -/
def requestTo (method : Method) (payload : Option Payload) (url : Url) : Request :=
  ⟨method, url, c.authorization, c.userAgent, payload⟩

theorem asks_send (payload : Option Payload) (url : Url) :
    Asks (fun wire => c.send wire method url payload) (.ok (c.requestTo method payload url))
      Reply.outcome := by
  constructor
  intro σ wire s
  cases hreply : (wire (c.requestTo method payload url)).run s with
  | mk reply t =>
    have hlift : (ExceptT.lift (wire (c.requestTo method payload url)) : Action σ Reply).run s =
        (.ok reply, t) := by
      change (Except.ok ((wire _).run s).1, ((wire _).run s).2) = _
      rw [hreply]
    simp only [hreply]
    refine (Action.run_bind_of_ok hlift _).trans ?_
    cases reply with
    | answered status body => rfl
    | lost => rfl

theorem asks_json (body : Option Json) :
    Asks (fun wire => c.json wire method segments fields body)
      ((c.address segments fields).map
        (c.requestTo method (body.map fun v => ⟨"application/json", v.text⟩)))
      Reply.json := by
  refine Asks.of_address fun url => ?_
  exact Asks.bind (c.asks_send method _ url) fun _ _ => rfl

theorem asks_bulk (lines : List Char) :
    Asks (fun wire => c.bulk wire lines)
      ((c.address ["_bulk"] [("refresh", "true")]).map
        (c.requestTo .post (some ⟨"application/x-ndjson", String.ofList lines⟩)))
      Reply.json := by
  refine Asks.of_address fun url => ?_
  exact Asks.bind (c.asks_send .post _ url) fun _ _ => rfl

theorem asks_write (writes : List BulkWrite) :
    Asks (fun wire => c.write wire writes)
      ((c.address ["_bulk"] [("refresh", "true")]).map (c.requestTo .post
        (some ⟨"application/x-ndjson", String.ofList (bulkLines c.index writes)⟩)))
      fun reply => reply.json >>= fun v =>
        formed BulkReply.ofJson? v >>= BulkReply.check writes.length :=
  (c.asks_bulk _).bind fun v s => Action.run_ofExcept_bind (formed BulkReply.ofJson? v) _ s

end Client

end Cluster
end ResourceIndex
