import ResourceIndex.Cluster.Backend
import ResourceIndex.Proofs.Cluster.Exchanges
/-
Connecting to a cluster, request by request: a ping, a look at the index, its creation if it is
missing, and a look at its health. The first step that fails is the last one, and there is a client
exactly if all of them are answered well.
-/
namespace ResourceIndex.Cluster

variable {σ : Type}

namespace Reply

def isMissing : Reply → Bool
  | answered status _ => status == 404
  | lost => false

/-- The index was created, or another client has just done so. -/
def isCreated : Reply → Bool
  | answered status body =>
    if Status.isSuccess status then (Json.ofText? body).isSome
    else Text.contains "resource_already_exists_exception".toList body.toList
  | lost => false

def isHealthy (reply : Reply) : Bool :=
  (reply.value?.bind Health.ofJson?).any fun health =>
    (health.status == "green" || health.status == "yellow") && !health.timedOut

end Reply

namespace Client

variable {c : Client}

def urlOf (c : Client) (segments : List String) (fields : List (String × String)) : Url :=
  (c.base.extend (segments.map String.toList)).withFields
    (fields.map fun (n, v) => (n.toList, v.toList))

theorem address_eq_ok (h : c.base.isOpaque = false) (segments : List String)
    (fields : List (String × String)) :
    c.address segments fields = .ok (c.urlOf segments fields) := by
  rw [address, h]
  rfl

theorem address_eq_error (h : c.base.isOpaque = true) (segments : List String)
    (fields : List (String × String)) : ∃ e, c.address segments fields = .error e := by
  rw [address, h]
  exact ⟨_, rfl⟩

/-- The look at the index, and its creation if it is missing. -/
def indexExchanges (c : Client) (look creation : Reply) : List Exchange :=
  ⟨c.requestTo .head none (c.urlOf [c.index] []), look⟩ ::
    if look.isMissing then
      [⟨c.requestTo .put (some ⟨"application/json", Mapping.definition.text⟩)
        (c.urlOf [c.index] []), creation⟩]
    else []

def isIndexed (look creation : Reply) : Bool :=
  look.isSuccess || look.isMissing && creation.isCreated

def healthRequest (c : Client) (timeout : Nat) : Request :=
  c.requestTo .get none (c.urlOf ["_cluster", "health", c.index]
    [("local", "true"), ("timeout", Text.natString timeout ++ "ms")])

/-- The exchanges of connecting, as the steps would be answered. -/
def greeting (c : Client) (timeout : Nat) (ping look creation health : Reply) : List Exchange :=
  ⟨c.requestTo .head none (c.urlOf [] []), ping⟩ ::
    if ping.isSuccess then c.indexExchanges look creation ++
      if isIndexed look creation then [⟨c.healthRequest timeout, health⟩] else []
    else []

theorem asks_ping (c : Client) : ∃ result, Asks (fun wire => c.ping wire)
    ((c.address [] []).map (c.requestTo .head none)) result ∧
      ∀ reply, (result reply).toOption = if reply.isSuccess then some () else none := by
  have htried (url : Url) := Asks.tryCatch (c.asks_send .head none url)
    (f := fun e => throw (.unhealthy ("cluster unreachable: " ++ e.message))) fun _ _ => rfl
  refine ⟨_, Asks.of_address fun url => (htried url).bind (g := fun reply =>
    if !Status.isSuccess reply.1 then
      .error (.unhealthy ("cluster ping returned " ++ Status.text reply.1))
    else .ok ()) fun reply s => ?_, fun reply => ?_⟩
  · change (ite (!Status.isSuccess reply.1) _ _ : Action _ Unit).run s = _
    split
    · rfl
    · rfl
  · cases reply with
    | lost => rfl
    | answered status body =>
      change (ite (!Status.isSuccess status) _ _ : Except IndexError Unit).toOption = _
      rw [Reply.isSuccess]
      cases Status.isSuccess status with
      | false => rfl
      | true => rfl

/-- The look at something tells that it is there, that it is missing, or neither. -/
theorem asks_isPresent (c : Client) (segments : List String) :
    ∃ result, Asks (fun wire => c.isPresent wire segments)
      ((c.address segments []).map (c.requestTo .head none)) result ∧
        ∀ reply, reply.isSuccess = true ∧ reply.isMissing = false ∧ result reply = .ok true ∨
          reply.isSuccess = false ∧ reply.isMissing = true ∧ result reply = .ok false ∨
          reply.isSuccess = false ∧ reply.isMissing = false ∧ ∃ e, result reply = .error e := by
  refine ⟨_, Asks.of_address fun url => (c.asks_send .head none url).bind (g := fun reply =>
    if Status.isSuccess reply.1 then .ok true
    else if reply.1 = 404 then .ok false
    else .error (.httpStatus (Status.text reply.1)
      ("HEAD /" ++ "/".intercalate segments ++ " failed"))) fun reply s => ?_, fun reply => ?_⟩
  · change (ite (Status.isSuccess reply.1) _ _ : Action _ Bool).run s = _
    split
    · rfl
    · split
      · rfl
      · rfl
  · cases reply with
    | lost => exact .inr (.inr ⟨rfl, rfl, _, rfl⟩)
    | answered status body =>
      change Status.isSuccess status = true ∧ (status == 404) = false ∧
          (ite (Status.isSuccess status) _ _ : Except IndexError Bool) = _ ∨
        Status.isSuccess status = false ∧ (status == 404) = true ∧
          (ite (Status.isSuccess status) _ (ite (status = 404) _ _) : Except IndexError Bool) = _ ∨
        Status.isSuccess status = false ∧ (status == 404) = false ∧
          ∃ e, (ite (Status.isSuccess status) _ (ite (status = 404) _ _) :
            Except IndexError Bool) = .error e
      by_cases hmissing : status = 404
      · subst hmissing
        exact .inr (.inl ⟨rfl, rfl, rfl⟩)
      · have hother : (status == 404) = false := beq_false_of_ne hmissing
        cases Status.isSuccess status with
        | true => exact .inl ⟨rfl, hother, rfl⟩
        | false => exact .inr (.inr ⟨rfl, hother, _, if_neg hmissing⟩)

theorem asks_createIndex (h : c.base.isOpaque = false) :
    ∃ result, Asks (fun wire => c.createIndex wire)
      (.ok (c.requestTo .put (some ⟨"application/json", Mapping.definition.text⟩)
        (c.urlOf [c.index] []))) result ∧
        ∀ reply, (result reply).toOption = if reply.isCreated then some () else none := by
  have hjson := c.asks_json .put [c.index] [] (some Mapping.definition)
  rw [address_eq_ok h] at hjson
  have hcreate : Asks (fun wire => c.json wire .put [c.index] [] (some Mapping.definition) >>=
      fun _ => pure ()) _ _ := hjson.bind (g := fun _ => .ok ()) fun _ _ => rfl
  refine ⟨_, hcreate.tryCatch fun e s => ?_, fun reply => ?_⟩
  · cases e with
    | httpStatus status message =>
      change (ite (Text.contains _ _) _ _ : Action _ Unit).run s =
        (((ite (Text.contains _ _) _ _ : Action Unit Unit).run ()).1, s)
      split
      · rfl
      · rfl
    | _ => rfl
  · cases reply with
    | lost => rfl
    | answered status body =>
      rw [Reply.json_answered, Client.value, Reply.isCreated]
      cases Status.isSuccess status with
      | true =>
        cases Json.ofText? body with
        | none => rfl
        | some v => rfl
      | false =>
        change ((ite (Text.contains _ body.toList) _ _ : Action Unit Unit).run ()).1.toOption =
          ite (Text.contains _ body.toList) _ _
        split
        · rfl
        · rfl

/-- What is said of the health of an index. -/
def judged (c : Client) (timeout : Nat) (health : Health) : Except IndexError Unit :=
  if health.timedOut then
    .error (.unhealthy ("health check timed out after " ++ (Text.natString timeout ++ "ms")))
  else if health.status ≠ "green" ∧ health.status ≠ "yellow" then
    .error (.unhealthy ("index '" ++ c.index ++ "' is " ++ health.status))
  else .ok ()

theorem toOption_judged (c : Client) (timeout : Nat) (health : Health) :
    (c.judged timeout health).toOption =
      if (health.status == "green" || health.status == "yellow") && !health.timedOut then some ()
      else none := by
  rw [judged]
  cases health.timedOut with
  | true =>
    rw [Bool.not_true, Bool.and_false]
    rfl
  | false =>
    rw [Bool.not_false, Bool.and_true, if_neg Bool.false_ne_true]
    simp only [Bool.or_eq_true, beq_iff_eq]
    by_cases hgood : health.status = "green" ∨ health.status = "yellow"
    · rw [if_neg fun hbad => hgood.elim hbad.left hbad.right, if_pos hgood]
      rfl
    · rw [if_pos (not_or.mp hgood), if_neg hgood]
      rfl

theorem asks_checkHealth (h : c.base.isOpaque = false) (timeout : Nat) :
    ∃ result, Asks (fun wire => c.checkHealth wire timeout) (.ok (c.healthRequest timeout)) result ∧
        ∀ reply, (result reply).toOption = if reply.isHealthy then some () else none := by
  have hjson := c.asks_json .get ["_cluster", "health", c.index]
    [("local", "true"), ("timeout", Text.natString timeout ++ "ms")] none
  rw [address_eq_ok h] at hjson
  have htried := hjson.tryCatch
    (f := fun e => throw (.unhealthy ("health check failed: " ++ e.message))) fun _ _ => rfl
  refine ⟨_, htried.bind (g := fun v => formed Health.ofJson? v >>= c.judged timeout)
    fun v s => ?_, fun reply => ?_⟩
  · rw [formed]
    cases Health.ofJson? v with
    | none => rfl
    | some health =>
      change (ite (health.timedOut) _ (ite (_ ∧ _) _ _) : Action _ Unit).run s =
        (ite (health.timedOut) _ (ite (_ ∧ _) _ _), s)
      split
      · rfl
      · split
        · rfl
        · rfl
  · rw [Except.toOption_bind, Except.toOption_tryCatch fun _ => rfl, Reply.toOption_json,
      Reply.isHealthy]
    cases reply.value? with
    | none => rfl
    | some v =>
      rw [Option.bind_some, Option.bind_some, Except.toOption_bind, toOption_formed]
      cases Health.ofJson? v with
      | none => rfl
      | some health => exact c.toOption_judged timeout health

/-- Making sure that there is an index. -/
theorem makes_ensureIndex (h : c.base.isOpaque = false) (wire : Wire σ) (s : σ) :
    ∃ look creation result t, Makes (fun wire => c.ensureIndex wire) wire s
      (c.indexExchanges look creation) result t ∧
        result.toOption = if isIndexed look creation then some () else none := by
  obtain ⟨present, hpresent, hlook⟩ := c.asks_isPresent [c.index]
  obtain ⟨created, hcreated, hcreation⟩ := asks_createIndex h
  obtain ⟨look, t, hfirst⟩ : ∃ look t, Makes (fun wire => c.isPresent wire [c.index]) wire s
      [⟨c.requestTo .head none (c.urlOf [c.index] []), look⟩] (present look) t :=
    ⟨_, _, .of_asks hpresent (by rw [address_eq_ok h]; rfl)⟩
  obtain ⟨creation, u, hsecond⟩ : ∃ creation u, Makes (fun wire => c.createIndex wire) wire t
      [⟨c.requestTo .put (some ⟨"application/json", Mapping.definition.text⟩)
        (c.urlOf [c.index] []), creation⟩] (created creation) u :=
    ⟨_, _, .of_asks hcreated rfl⟩
  rcases hlook look with ⟨hthere, hnot, htold⟩ | ⟨hnot, hmissing, htold⟩ | ⟨hnot, hother, e, htold⟩
  · rw [htold] at hfirst
    refine ⟨look, creation, .ok (), t, ?_, ?_⟩
    · rw [indexExchanges, hnot]
      exact hfirst.bind
        (f := fun wire there => if !there then c.createIndex wire else pure ()) (.pure ())
    · rw [isIndexed, hthere]
      rfl
  · rw [htold] at hfirst
    refine ⟨look, creation, created creation, u, ?_, ?_⟩
    · rw [indexExchanges, hmissing]
      exact hfirst.bind
        (f := fun wire there => if !there then c.createIndex wire else pure ()) hsecond
    · rw [isIndexed, hnot, hmissing]
      exact hcreation creation
  · rw [htold] at hfirst
    refine ⟨look, creation, .error e, t, ?_, ?_⟩
    · rw [indexExchanges, hother]
      exact hfirst.bind_error
    · rw [isIndexed, hnot, hother]
      rfl

/-- Connecting with a client whose base can have paths. -/
theorem makes_connect (h : c.base.isOpaque = false) (timeout : Nat) (wire : Wire σ) (s : σ) :
    ∃ ping look creation health result t,
      Makes (fun wire => do
        c.ping wire
        c.ensureIndex wire
        c.checkHealth wire timeout
        return c) wire s (c.greeting timeout ping look creation health) result t ∧
      result.toOption = if ping.isSuccess && isIndexed look creation && health.isHealthy then some c
        else none := by
  obtain ⟨pinged, hpinged, hping⟩ := c.asks_ping
  obtain ⟨ping, t, hfirst⟩ : ∃ ping t, Makes (fun wire => c.ping wire) wire s
      [⟨c.requestTo .head none (c.urlOf [] []), ping⟩] (pinged ping) t :=
    ⟨_, _, .of_asks hpinged (by rw [address_eq_ok h]; rfl)⟩
  obtain ⟨look, creation, indexed, u, hsecond, hindexed⟩ := makes_ensureIndex h wire t
  obtain ⟨checked, hchecked, hhealth⟩ := asks_checkHealth h timeout
  obtain ⟨health, v, hthird⟩ : ∃ health v, Makes (fun wire => c.checkHealth wire timeout) wire u
      [⟨c.healthRequest timeout, health⟩] (checked health) v :=
    ⟨_, _, .of_asks hchecked rfl⟩
  -- Each step is joined to the steps behind it, from the last one on.
  obtain ⟨client, w, hlast, hclient⟩ :=
    hthird.bind_of_ite (f := fun _ _ => pure c) (hhealth health) (.pure c)
  rw [ite_self, List.append_nil] at hlast
  obtain ⟨ready, w', hrest, hready⟩ := hsecond.bind_of_ite
    (f := fun wire _ => do c.checkHealth wire timeout; return c) hindexed hlast
  obtain ⟨result, w'', hall, hresult⟩ := hfirst.bind_of_ite
    (f := fun wire _ => do c.ensureIndex wire; c.checkHealth wire timeout; return c)
    (hping ping) hrest
  refine ⟨ping, look, creation, health, result, w'', hall, ?_⟩
  rw [hresult, hready, hclient]
  cases ping.isSuccess with
  | false => rfl
  | true =>
    cases isIndexed look creation with
    | false => rfl
    | true => rfl

end Client

/-- Connecting sends the requests of the greeting and no others, each as its predecessors were
answered, and there is a client exactly if the ping is answered with success, the index is there or
comes to be there, and it is in good health. Nothing is sent without a base that can have paths. -/
theorem connect_exact (settings : ClusterSettings) (wire : Wire σ) (s : σ) :
    (∃ c ping look creation health result t,
      Client.ofSettings settings = .ok c ∧ c.base.isOpaque = false ∧
      Makes (fun wire => Client.connect wire settings) wire s
        (c.greeting settings.healthTimeout ping look creation health) result t ∧
      result.toOption = if ping.isSuccess && Client.isIndexed look creation && health.isHealthy
        then some c else none) ∨
    (∀ c, Client.ofSettings settings = .ok c → c.base.isOpaque = true) ∧
      ∃ e, Makes (fun wire => Client.connect wire settings) wire s [] (.error e) s := by
  have hclient : ∀ e, Client.ofSettings settings = e →
      Makes (fun _ => Action.ofExcept (Client.ofSettings settings)) wire s [] e s := by
    rintro _ rfl
    exact .ofExcept _
  cases hc : Client.ofSettings settings with
  | error e =>
    refine .inr ⟨fun c hc' => ?_, e, (hclient _ hc).bind_error⟩
    cases hc'
  | ok c =>
    cases hbase : c.base.isOpaque with
    | false =>
      obtain ⟨ping, look, creation, health, result, t, hmakes, hresult⟩ :=
        Client.makes_connect hbase settings.healthTimeout wire s
      exact .inl ⟨c, ping, look, creation, health, result, t, rfl, hbase,
        (hclient _ hc).bind hmakes, hresult⟩
    | true =>
      obtain ⟨pinged, hpinged, -⟩ := c.asks_ping
      obtain ⟨e, he⟩ := Client.address_eq_error hbase [] []
      have hping : Makes (fun wire => c.ping wire) wire s [] (.error e) s :=
        .of_asks_error hpinged (by rw [he]; rfl)
      refine .inr ⟨fun c' hc' => ?_, e, (hclient _ hc).bind hping.bind_error⟩
      cases hc'
      exact hbase

end ResourceIndex.Cluster
