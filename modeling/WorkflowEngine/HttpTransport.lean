import WorkflowEngine.DurationText
import WorkflowEngine.HttpServer
import WorkflowEngine.Playback
import WorkflowEngine.TimeText

/-!
# The HTTP client

Each operation of the client sends one request and reads one response. Through
the server, an operation has the effect on the store that the service has, and
its outcome is the service's outcome: a response with its time stamps as text
gives them back, or an exception of the class that its status stands for.
-/

namespace WorkflowEngine
open OrderedMap Txn Txn.Program WorkflowJson

variable {wire : Wire} {E : Engine schema} {env : Environment} {db : E.Db}

namespace HttpTransport
open Transport

/-- One operation of the client: what it sends, and what it makes of the response. -/
structure Exchange (wire : Wire) (α : Type) where
  request : HttpRequest wire
  receive : HttpResponse wire → Except Exception α

def toIso8601Duration (value : Int64) : String := "PT" ++ toDecimal value.toInt ++ "S"

def post (path : String) (body : Json) : HttpRequest wire :=
  ⟨.post, path, wire.canonicalString body⟩

def get (path : String) : HttpRequest wire := ⟨.get, path, wire.empty⟩

def del (path : String) : HttpRequest wire := ⟨.delete, path, wire.empty⟩

/-- The detail of a problem, or the whole body where there is none to be read. -/
def detail (result : HttpResponse wire) : String :=
  let found : Except Exception (Option String) := do
    readOptional (← wire.parse result.body) "detail" Json.asString
  match found with
  | .ok (some detail) => detail
  | _ => wire.toString result.body

def checkResponse (result : HttpResponse wire) : Except Exception Unit :=
  if 200 ≤ result.status ∧ result.status < 300 then .ok ()
  else if result.status = 400 then .error (.invalidArgument (detail result))
  else .error (.runtimeError (detail result))

/-- `checkResponse(result)`, then one field of the body. -/
def receiveField {α : Type} (fieldName : String) (read : Json → Except Exception α)
    (result : HttpResponse wire) : Except Exception α := do
  checkResponse result
  let body ← wire.parse result.body
  read (← body.at fieldName)

def validateWorkflowDefinition (definitionJson : Json) : Exchange wire ValidationResult where
  request := post "/v1/workflow-definitions/validate" definitionJson
  receive := receiveField "validation" validationResultFromJson

def registerWorkflowDefinition (definitionJson : Json) : Exchange wire WorkflowDefinition where
  request := post "/v1/workflow-definitions" definitionJson
  receive := receiveField "definition" parseWorkflowDefinition

def listWorkflowDefinitions : Exchange wire (List WorkflowDefinitionKey) where
  request := get "/v1/workflow-definitions"
  receive := receiveField "definitions" fun value => do
    (← value.asArray).mapM workflowDefinitionKeyFromJson

def startWorkflowExecution (workflowName : String) (workflowVersion : Int32) (input : Json) :
    Exchange wire WorkflowExecution where
  request := post "/v1/workflow-executions" (.object (setAll [] [
    ("workflowName", .string workflowName),
    ("workflowVersion", .int64 workflowVersion.toInt64),
    ("input", input)]))
  receive := receiveField "execution" workflowExecutionFromJson

def getWorkflowExecution (workflowExecutionId : String) :
    Exchange wire (Option WorkflowExecution) where
  request := get ("/v1/workflow-executions/" ++ workflowExecutionId)
  receive result :=
    if result.status = 404 then .ok none
    else do return some (← receiveField "execution" workflowExecutionFromJson result)

def cancelWorkflow (workflowExecutionId : String) : Exchange wire WorkflowExecution where
  request := del ("/v1/workflow-executions/" ++ workflowExecutionId)
  receive := receiveField "execution" workflowExecutionFromJson

/-- The number of results is cut to an `int` on its way. -/
def pollAndClaimWorkflowSteps (workflowName : String) (workflowVersion : Int32) (workerId : String)
    (maxResults : UInt64) : Exchange wire (List WorkflowStepExecution) where
  request := post "/v1/workflow-step-executions/poll-and-claim" (.object (setAll [] [
    ("workflowName", .string workflowName),
    ("workflowVersion", .int64 workflowVersion.toInt64),
    ("workerId", .string workerId),
    ("maxResults", .int64 maxResults.toInt64.toInt32.toInt64)]))
  receive := receiveField "steps" fun value => do
    (← value.asArray).mapM workflowStepExecutionFromJson

def keepAliveWorkflowStep (workflowExecutionId stepName workerId : String) :
    Exchange wire WorkflowStepExecution where
  request := post "/v1/workflow-step-executions/keep-alive" (.object (setAll [] [
    ("workflowExecutionId", .string workflowExecutionId),
    ("stepName", .string stepName),
    ("workerId", .string workerId)]))
  receive := receiveField "step" workflowStepExecutionFromJson

def completeWorkflowStep (workflowExecutionId stepName workerId : String) (stepOutput : Json)
    (nextStepDelay : Option Int64) : Exchange wire WorkflowExecution where
  request := post "/v1/workflow-step-executions/complete"
    (.object (Json.Object.setPresent (setAll [] [
      ("workflowExecutionId", .string workflowExecutionId),
      ("stepName", .string stepName),
      ("workerId", .string workerId),
      ("stepOutput", stepOutput)]) "nextStepDelay" (fun delay => .string (toIso8601Duration delay))
      nextStepDelay))
  receive := receiveField "execution" workflowExecutionFromJson

def failWorkflowStep (workflowExecutionId stepName workerId reason : String) :
    Exchange wire WorkflowExecution where
  request := post "/v1/workflow-step-executions/fail" (.object (setAll [] [
    ("workflowExecutionId", .string workflowExecutionId),
    ("stepName", .string stepName),
    ("workerId", .string workerId),
    ("reason", .string reason)]))
  receive := receiveField "execution" workflowExecutionFromJson

def Exchange.map {α β : Type} (f : α → β) (x : Exchange wire α) : Exchange wire β :=
  ⟨x.request, fun result => (x.receive result).map f⟩

def call (wire : Wire) : Request → Exchange wire Transport.Response
  | .validateWorkflowDefinition definitionJson =>
    (validateWorkflowDefinition definitionJson).map .validation
  | .registerWorkflowDefinition definitionJson =>
    (registerWorkflowDefinition definitionJson).map .definition
  | .listWorkflowDefinitions => listWorkflowDefinitions.map .definitions
  | .startWorkflowExecution workflowName workflowVersion input =>
    (startWorkflowExecution workflowName workflowVersion input).map .execution
  | .getWorkflowExecution workflowExecutionId =>
    (getWorkflowExecution workflowExecutionId).map .found
  | .cancelWorkflow workflowExecutionId => (cancelWorkflow workflowExecutionId).map .execution
  | .pollAndClaimWorkflowSteps workflowName workflowVersion workerId maxResults =>
    (pollAndClaimWorkflowSteps workflowName workflowVersion workerId maxResults).map .steps
  | .keepAliveWorkflowStep workflowExecutionId stepName workerId =>
    (keepAliveWorkflowStep workflowExecutionId stepName workerId).map .step
  | .completeWorkflowStep workflowExecutionId stepName workerId stepOutput nextStepDelay =>
    (completeWorkflowStep workflowExecutionId stepName workerId stepOutput nextStepDelay).map
      .execution
  | .failWorkflowStep workflowExecutionId stepName workerId reason =>
    (failWorkflowStep workflowExecutionId stepName workerId reason).map .execution

def Exchange.perform {α : Type} (x : Exchange wire α) (env : Environment) (db : E.Db) :
    Except Exception α × E.Db :=
  let (result, db') := WorkflowHttpServer.serve env x.request db
  (result >>= x.receive, db')

end HttpTransport

/-- What a client throws for an exception of a class. -/
def relayed : ExceptionClass → String → Exception
  | .backendError | .invalidArgument => .invalidArgument
  | .runtimeError | .exception => .runtimeError

/-- The exception that a client throws for one that the server caught. -/
inductive RelayedException (wire : Wire) : Exception → Exception → Prop
  | invalidArgument {what what' : String} :
      RelayedException wire (.invalidArgument what) (.invalidArgument what')
  | storage {what what' : String} : RelayedException wire (.storage what) (.invalidArgument what')
  | access {what what' : String} :
      RelayedException wire (.access what) (relayed wire.accessError what')
  | runtimeError {what what' : String} :
      RelayedException wire (.runtimeError what) (.runtimeError what')
  | outOfRange {what what' : String} :
      RelayedException wire (.outOfRange what) (.runtimeError what')
  | other {what what' : String} : RelayedException wire (.other what) (.runtimeError what')
  | undefined : RelayedException wire .undefined .undefined

/-- The same effect, and the same outcome through `f`. -/
inductive Relays (wire : Wire) {α β S : Type} (f : α → β) :
    Except Exception α × S → Except Exception β × S → Prop
  | response (a : α) (s : S) : Relays wire f (.ok a, s) (.ok (f a), s)
  | exception {e e' : Exception} (h : RelayedException wire e e') (s : S) :
      Relays wire f (.error e, s) (.error e', s)

theorem Relays.map {α α' β β' S : Type} {f : α → β} {g : α → α'} {g' : β → β'} {f' : α' → β'}
    {a : Except Exception α × S} {b : Except Exception β × S} (h : Relays wire f a b)
    (hcomm : ∀ a, g' (f a) = f' (g a)) : Relays wire f' (a.1.map g, a.2) (b.1.map g', b.2) := by
  cases h with
  | response a s =>
    change Relays wire f' (.ok (g a), s) (.ok (g' (f a)), s)
    rw [hcomm]
    exact .response _ _
  | exception h s => exact .exception h s

namespace HttpTransport
open WorkflowHttpServer

theorem receiveField_respond {α : Type} {fieldName : String} {read : Json → Except Exception α}
    {status : ℕ} {v : Json} {a : α} (h : 200 ≤ status ∧ status < 300) (hread : read v = .ok a) :
    receiveField fieldName read (respond (status, .object [(fieldName, v)]) : HttpResponse wire) =
      .ok a := by
  have hfield : Json.at (.object [(fieldName, v)]) fieldName = .ok v := by
    apply Json.at_object
    simp [Json.Object.get?]
  have hcheck : checkResponse (respond (status, .object [(fieldName, v)]) : HttpResponse wire) =
      .ok () := if_pos h
  rw [receiveField, hcheck, Cxx.ok_bind, respond, wire.parse_canonicalString, Cxx.ok_bind, hfield,
    Cxx.ok_bind, hread]

theorem checkResponse_caught {c : ExceptionClass} {what : String} {e : Exception} {reply : Reply}
    (hc : caught wire e = some (c, what)) (h : handleException wire e = .ok reply) :
    ∃ what', checkResponse (respond reply : HttpResponse wire) = .error (relayed c what') := by
  rw [handleException, hc] at h
  cases c with
  | runtimeError =>
    simp only at h
    split_ifs at h with hfound
    · obtain rfl := Except.ok.inj h
      exact ⟨_, rfl⟩
    · obtain rfl := Except.ok.inj h
      exact ⟨_, rfl⟩
  | _ =>
    obtain rfl := Except.ok.inj h
    exact ⟨_, rfl⟩

theorem relayedException_of_caught {c : ExceptionClass} {what : String} {e : Exception}
    (hc : caught wire e = some (c, what)) (what' : String) :
    RelayedException wire e (relayed c what') := by
  cases e with
  | undefined => cases hc
  | _ =>
    obtain ⟨rfl, rfl⟩ := Prod.mk.inj (Option.some_inj.mp hc)
    constructor

theorem checkResponse_problem {e : Exception} {reply : Reply} (h : handleException wire e = .ok reply) :
    ∃ e', checkResponse (respond reply : HttpResponse wire) = .error e' ∧
      RelayedException wire e e' := by
  cases hc : caught wire e with
  | none =>
    rw [handleException, hc] at h
    cases h
  | some c =>
    obtain ⟨what', hcheck⟩ := checkResponse_caught hc h
    exact ⟨_, hcheck, relayedException_of_caught hc what'⟩

theorem receiveField_problem {α : Type} {fieldName : String} {read : Json → Except Exception α}
    {e : Exception} {reply : Reply} (h : handleException wire e = .ok reply) :
    ∃ e', receiveField fieldName read (respond reply : HttpResponse wire) = .error e' ∧
      RelayedException wire e e' := by
  obtain ⟨e', he', hrelayed⟩ := checkResponse_problem h
  refine ⟨e', ?_, hrelayed⟩
  rw [receiveField, he', Cxx.error_bind]

theorem undefined_of_handleException {e e' : Exception} (h : handleException wire e = .error e') :
    e = .undefined ∧ e' = .undefined := by
  rw [handleException] at h
  cases hc : caught wire e with
  | none =>
    rw [hc] at h
    refine ⟨?_, (Except.error.inj h).symm⟩
    cases e with
    | undefined => rfl
    | _ => cases hc
  | some c =>
    obtain ⟨c, what⟩ := c
    rw [hc] at h
    cases c with
    | runtimeError =>
      simp only at h
      split_ifs at h
    | _ => cases h

theorem Exchange.relays {α β : Type} {x : Exchange wire β} {p : Op α} {g : α → Reply} {f : α → β}
    (hroute : route x.request = some (p >>= fun a => pure (g a)))
    (hreceive : ∀ a, (atomic env p db).1 = .ok a → x.receive (respond (g a)) = .ok (f a))
    (hproblem : ∀ e reply, (atomic env p db).1 = .error e → handleException wire e = .ok reply →
      ∃ e', x.receive (respond reply) = .error e' ∧ RelayedException wire e e') :
    Relays wire f (atomic env p db) (x.perform env db) := by
  rw [Exchange.perform, serve, hroute]
  simp only [atomic_bind_pure]
  generalize atomic env p db = outcome at hreceive hproblem ⊢
  obtain ⟨result, db'⟩ := outcome
  cases result with
  | ok a =>
    have hr := hreceive a rfl
    simp only [Except.map, Cxx.ok_bind, hr]
    exact .response a db'
  | error e =>
    cases hreply : handleException wire e with
    | ok reply =>
      obtain ⟨e', he', hrelayed⟩ := hproblem e reply rfl hreply
      simp only [Except.map, Cxx.ok_bind, hreply, he']
      exact .exception hrelayed db'
    | error e' =>
      obtain ⟨rfl, rfl⟩ := undefined_of_handleException hreply
      exact .exception .undefined db'

theorem relays_field {α β : Type} {request : HttpRequest wire} {p : Op α} {fieldName : String}
    {read : Json → Except Exception β} {f : α → β} (status : ℕ) (encode : α → Json)
    (hroute : route request = some (p >>= fun a => pure (status, .object [(fieldName, encode a)])))
    (hstatus : 200 ≤ status ∧ status < 300)
    (hread : ∀ a, (atomic env p db).1 = .ok a → read (encode a) = .ok (f a)) :
    Relays wire f (atomic env p db)
      ((⟨request, receiveField fieldName read⟩ : Exchange wire β).perform env db) := by
  apply Exchange.relays hroute
  · intro a ha
    exact receiveField_respond hstatus (hread a ha)
  · intro e reply _ h
    exact receiveField_problem h

variable {o : Json.Object} {fields : List (String × Json)}

theorem requirePresent_eq {α : Type} {read : Json → Except Exception α} {key : String} {v : Json}
    (h : o.get? key = some v) : requirePresent read (.object o) key = read v := by
  rw [requirePresent, has_of_get h, Cxx.ok_bind, Json.at_object _ _ h]
  rfl

theorem requireString_eq {key text : String} (h : o.get? key = some (.string text)) :
    requireString (.object o) key = .ok text := requirePresent_eq h

theorem requireInt_eq {key : String} {n : Int32} (h : o.get? key = some (.int64 n.toInt64)) :
    requireInt (.object o) key = .ok n := by
  rw [requireInt, requirePresent_eq h]
  simp [Json.asInt64, Cxx.ok_bind, pure, Except.pure]

theorem optionalJson_eq {key : String} {v : Json} (h : o.get? key = some v) :
    optionalJson (.object o) key = .ok v := by
  rw [optionalJson, readOptional_pure h]
  rfl

theorem get?_setPresent {α : Type} {key k : String} {encode : α → Json} {found : Option α} {v : Json}
    (h : o.get? k = some v) (hne : k ≠ key) : (o.setPresent key encode found).get? k = some v := by
  rw [get?_eq, lookup_setPresent, if_neg hne, ← get?_eq, h]
  rfl

theorem parseBody_post {path : String} {body : Json} :
    parseBody (post path body : HttpRequest wire) = .ok body := wire.parse_canonicalString body

theorem toInt64_toInt32 {n : UInt64} (h : n.toNat < 2 ^ 31) :
    n.toInt64.toInt32.toInt64 = n.toInt64 := by
  have hint : n.toInt64.toInt = n.toNat := by
    have hbmod : n.toInt64.toInt = (n.toNat : ℤ).bmod (2 ^ 64) := BitVec.toInt_eq_toNat_bmod _
    rw [hbmod, Int.bmod_eq_of_le (by omega) (by omega)]
  apply Int64.toInt_inj.mp
  rw [Int32.toInt_toInt64, Int64.toInt_toInt32, hint, Int.bmod_eq_of_le (by omega) (by omega)]

theorem readMaxResults_eq {n : UInt64} (hn : n.toNat < 2 ^ 31)
    (h : o.get? "maxResults" = some (.int64 n.toInt64.toInt32.toInt64)) :
    readMaxResults (.object o) = .ok n := by
  have hread : readOptional (.object o) "maxResults" Json.asInt64 =
      .ok (some n.toInt64.toInt32.toInt64) :=
    (readOptional_eq_ok asInt64_eq_ok).mpr h
  rw [readMaxResults, hread, Cxx.ok_bind, toInt64_toInt32 hn]
  simp only [Option.map_some, Option.getD_some, toInt64_toInt32 hn, UInt64.toUInt64_toInt64]
  rfl

open Duration in
theorem parse_toIso8601Duration {delay : Int64} (h : 0 ≤ delay.toInt) :
    ∃ p : Parts, Spells (toIso8601Duration delay).toList p ∧ (p.total : ℤ) = delay.toInt := by
  obtain ⟨n, hn⟩ := Int.eq_ofNat_of_zero_le h
  have hdigits : Digits (some (Nat.toDigits 10 n)) := by
    intro ds hds
    obtain rfl := Option.some_inj.mp hds
    exact ⟨Nat.toDigits_ne_nil, fun c hc => Iso8601.isDigit_of_mem_toDigits hc⟩
  have hnonneg : (0 : ℤ) ≤ n := Int.natCast_nonneg n
  have htext : (toIso8601Duration delay).toList = 'P' :: (part 'D' none ++ 'T' :: (part 'H' none ++
      (part 'M' none ++ part 'S' (some (Nat.toDigits 10 n))))) := by
    rw [toIso8601Duration, hn, toDecimal, Int.toString_eq_repr, Int.repr_eq_if, if_pos hnonneg,
      String.toList_append, String.toList_append, Nat.toList_repr, Int.toNat_natCast]
    rfl
  have hnone : Digits none := by
    intro ds hds
    cases hds
  refine ⟨{ seconds := some (Nat.toDigits 10 n) }, ?_, ?_⟩
  · rw [htext]
    exact @Spells.time { seconds := some (Nat.toDigits 10 n) } hnone hnone hnone hdigits
  rw [hn]
  simp [Parts.total, number?, Nat.ofDigitChars_ten_toDigits]

theorem parseIso8601DurationToSeconds_pos {delay : Int64} (h : 0 < delay.toInt) :
    Duration.parseIso8601DurationToSeconds (toIso8601Duration delay) = .ok delay.toInt := by
  obtain ⟨p, hp, htotal⟩ := parse_toIso8601Duration (le_of_lt h)
  have hmax := delay.toInt_lt
  exact Duration.parseIso8601DurationToSeconds_eq_ok.mpr ⟨p, hp, htotal.symm, by omega, by omega⟩

theorem parseIso8601DurationToSeconds_nonpos {delay : Int64} (h : delay.toInt ≤ 0) :
    ∃ what, Duration.parseIso8601DurationToSeconds (toIso8601Duration delay) =
      .error (.invalidArgument what) := by
  by_cases hzero : delay.toInt = 0
  · obtain ⟨p, hp, htotal⟩ := parse_toIso8601Duration (ge_of_eq hzero)
    exact ⟨_, (Duration.parseIso8601DurationToSeconds_eq_invalidArgument hp).mpr ⟨by omega, rfl⟩⟩
  · have hneg : ¬ 0 ≤ delay.toInt := by omega
    have hdash : '-' ∈ (toIso8601Duration delay).toList := by
      rw [toIso8601Duration, toDecimal, Int.toString_eq_repr, Int.repr_eq_if, if_neg hneg]
      simp only [String.toList_append]
      exact List.mem_append_left _ (List.mem_append_right _
        (List.mem_append_left _ (List.mem_singleton_self _)))
    have hnone := Duration.fullMatch?_pattern_none fun p hp => hp.dash_notMem hdash
    rw [Duration.parseIso8601DurationToSeconds, hnone]
    exact ⟨_, rfl⟩

theorem readNextStepDelay_eq {x : Except Exception Seconds} {delay : Int64}
    (hx : Duration.parseIso8601DurationToSeconds (toIso8601Duration delay) = x)
    (h : o.get? "nextStepDelay" = some (.string (toIso8601Duration delay))) :
    readNextStepDelay (.object o) = x.map fun seconds => some (Int64.ofInt seconds) := by
  rw [readNextStepDelay, readNullable, has_of_get h, Cxx.ok_bind, Json.at_object _ _ h]
  simp only [if_true, Cxx.ok_bind, Json.isNull, Json.asString, hx, Bool.not_false]
  cases x with
  | ok seconds => rfl
  | error e => rfl

theorem readNextStepDelay_none (h : o.get? "nextStepDelay" = none) :
    readNextStepDelay (.object o) = .ok none := by
  rw [readNextStepDelay, readNullable, has_of_none h]
  rfl

theorem validateWorkflowDefinition_relays (definitionJson : Json) :
    Relays wire id (atomic env (WorkflowService.validateWorkflowDefinition definitionJson) db)
      ((validateWorkflowDefinition definitionJson : Exchange wire _).perform env db) := by
  refine relays_field 200 ValidationResult.toJson ?_ (by decide)
    fun result _ => validationResultFromJson_toJson result
  change some (handleValidate _) = _
  rw [handleValidate, parseBody_post, lift_ok_bind]

theorem registerWorkflowDefinition_relays {definitionJson : Json} (hmap : definitionJson.IsMap) :
    Relays wire id (atomic env (WorkflowService.registerWorkflowDefinition definitionJson) db)
      ((registerWorkflowDefinition definitionJson : Exchange wire _).perform env db) := by
  refine relays_field 201 WorkflowDefinition.toJson ?_ (by decide) ?_
  · change some (handleRegister _) = _
    rw [handleRegister, parseBody_post, lift_ok_bind]
  · intro d hd
    obtain ⟨tx, hr, -⟩ := atomic_ok.mp (Prod.ext hd rfl)
    simp only [WorkflowService.registerWorkflowDefinition, Orchestrator.registerWorkflowDefinition,
      returns_bind, returns_lift, returns_pure] at hr
    obtain ⟨d', _, ⟨hparsed, -⟩, -, _, -, -, _, -, rfl, -⟩ := hr
    exact (definition_roundtrip hmap hparsed).2

theorem listWorkflowDefinitions_relays :
    Relays wire id (atomic env WorkflowService.listWorkflowDefinitions db)
      ((listWorkflowDefinitions : Exchange wire _).perform env db) := by
  refine relays_field 200 (fun keys => .array (keys.map WorkflowDefinitionKey.toJson)) rfl
    (by decide) ?_
  intro keys _
  have hread := @mapM_map_eq_ok _ _ _ _ _ id workflowDefinitionKeyFromJson_toJson keys
  rw [List.map_id] at hread
  exact hread

theorem startWorkflowExecution_relays (workflowName : String) (workflowVersion : Int32)
    (input : Json) : Relays wire WorkflowExecution.stored
      (atomic env (WorkflowService.startWorkflowExecution workflowName workflowVersion input) db)
      ((startWorkflowExecution workflowName workflowVersion input : Exchange wire _).perform env
        db) := by
  refine relays_field 201 WorkflowExecution.toJson ?_ (by decide)
    fun execution _ => workflowExecutionFromJson_toJson execution
  refine of_fields (P := fun body => some (handleStart (post _ body : HttpRequest wire)) = _)
    (by simp) ?_
  intro o hfields
  simp only [List.forall_mem_cons] at hfields
  obtain ⟨hname, hversion, hinput, -⟩ := hfields
  rw [handleStart, parseBody_post, lift_ok_bind, requireString_eq hname, lift_ok_bind,
    requireInt_eq hversion, lift_ok_bind, optionalJson_eq hinput, lift_ok_bind]

theorem matchParam_append {fragment param : List Char} (h : '/' ∉ param) :
    matchParam fragment (fragment ++ param) = some param := by
  have hprefix : (fragment ++ param).dropPrefix? fragment = some param :=
    List.dropPrefix?_eq_some_iff.mpr ⟨_, rfl, beq_self_eq_true _⟩
  have htake : param.takeWhile (· != '/') = param :=
    List.takeWhile_eq_self_iff.mpr fun c hc => bne_iff_ne.mpr fun heq => h (heq ▸ hc)
  simp only [matchParam, hprefix, htake, Nat.le_add_right, if_true]

theorem pathId_append {workflowExecutionId : String} (h : '/' ∉ workflowExecutionId.toList) :
    pathId ("/v1/workflow-executions/" ++ workflowExecutionId) = some workflowExecutionId := by
  rw [pathId, String.toList_append, matchParam_append h, Option.map_some, String.ofList_toList]

theorem cancelWorkflow_relays {workflowExecutionId : String}
    (h : '/' ∉ workflowExecutionId.toList) :
    Relays wire WorkflowExecution.stored
      (atomic env (WorkflowService.cancelWorkflow workflowExecutionId) db)
      ((cancelWorkflow workflowExecutionId : Exchange wire _).perform env db) := by
  refine relays_field 200 WorkflowExecution.toJson ?_ (by decide)
    fun execution _ => workflowExecutionFromJson_toJson execution
  have hroute : ∀ path, route (del path : HttpRequest wire) = (pathId path).map handleCancel :=
    fun _ => rfl
  rw [hroute, pathId_append h]
  rfl

theorem getWorkflowExecution_throws {workflowExecutionId : String} {e : Exception}
    (h : (atomic env (WorkflowService.getWorkflowExecution workflowExecutionId) db).1 = .error e) :
    ∃ what, e = .invalidArgument what := by
  cases hr : atomic env (WorkflowService.getWorkflowExecution workflowExecutionId) db with
  | mk result db' =>
    rw [hr] at h
    obtain rfl : result = .error e := h
    obtain ⟨⟨tx, hthrows⟩, -⟩ := atomic_error.mp hr
    rw [WorkflowService.getWorkflowExecution, Orchestrator.getWorkflowExecution] at hthrows
    rcases throws_bind.mp hthrows with hid | ⟨_, _, -, hget⟩
    · exact ⟨_, (throws_throwIf.mp hid).2.1⟩
    · simp [Orchestrator.getExecution, throws_bind] at hget
      exact (throws_read hget).elim

/-- No execution is a response of its own for this client, and no problem looks like it. -/
theorem getWorkflowExecution_relays {workflowExecutionId : String}
    (h : '/' ∉ workflowExecutionId.toList) :
    Relays wire (Option.map WorkflowExecution.stored)
      (atomic env (WorkflowService.getWorkflowExecution workflowExecutionId) db)
      ((getWorkflowExecution workflowExecutionId : Exchange wire _).perform env db) := by
  apply Exchange.relays (g := fun found => found.elim
    (sendProblem 404 "not-found" "Not Found" ("workflow execution not found: " ++ workflowExecutionId))
    fun execution => (200, .object [("execution", WorkflowExecution.toJson execution)]))
  · have hroute : ∀ path, route (get path : HttpRequest wire) =
        if path = "/v1/workflow-definitions" then some handleList
        else (pathId path).map handleGet := fun _ => rfl
    have hpath := pathId_append h
    have hne : "/v1/workflow-executions/" ++ workflowExecutionId ≠ "/v1/workflow-definitions" := by
      intro heq
      have hnone : pathId "/v1/workflow-definitions" = none := by decide
      rw [heq, hnone] at hpath
      cases hpath
    rw [getWorkflowExecution, hroute, if_neg hne, hpath, Option.map_some, handleGet]
    congr 2
    funext found
    cases found with
    | none => rfl
    | some execution => rfl
  · intro found _
    cases found with
    | none => rfl
    | some execution =>
      change (do return some (← receiveField "execution" workflowExecutionFromJson _)) = _
      rw [Option.elim_some,
        receiveField_respond (by decide) (workflowExecutionFromJson_toJson execution)]
      rfl
  · intro e reply he hreply
    obtain ⟨what, rfl⟩ := getWorkflowExecution_throws he
    obtain ⟨e', hfield, hrelayed⟩ := @receiveField_problem _ _ "execution" workflowExecutionFromJson _ _
      hreply
    refine ⟨e', ?_, hrelayed⟩
    obtain rfl := Except.ok.inj hreply
    change (do return some (← receiveField "execution" workflowExecutionFromJson _)) = _
    rw [hfield]
    rfl

theorem pollAndClaimWorkflowSteps_relays (workflowName : String) (workflowVersion : Int32)
    (workerId : String) {maxResults : UInt64} (h : maxResults.toNat < 2 ^ 31) :
    Relays wire (List.map WorkflowStepExecution.stored)
      (atomic env (WorkflowService.pollAndClaimWorkflowSteps workflowName workflowVersion workerId
        maxResults) db)
      ((pollAndClaimWorkflowSteps workflowName workflowVersion workerId maxResults :
        Exchange wire _).perform env db) := by
  refine relays_field 200 (fun steps => .array (steps.map WorkflowStepExecution.toJson)) ?_
    (by decide) fun steps _ => mapM_map_eq_ok workflowStepExecutionFromJson_toJson steps
  refine of_fields (P := fun body => some (handlePollAndClaim (post _ body : HttpRequest wire)) = _)
    (by simp) ?_
  intro o hfields
  simp only [List.forall_mem_cons] at hfields
  obtain ⟨hname, hversion, hworker, hresults, -⟩ := hfields
  rw [handlePollAndClaim, parseBody_post, lift_ok_bind, requireString_eq hname, lift_ok_bind,
    requireInt_eq hversion, lift_ok_bind, requireString_eq hworker, lift_ok_bind,
    readMaxResults_eq h hresults, lift_ok_bind]

theorem keepAliveWorkflowStep_relays (workflowExecutionId stepName workerId : String) :
    Relays wire WorkflowStepExecution.stored
      (atomic env (WorkflowService.keepAliveWorkflowStep workflowExecutionId stepName workerId) db)
      ((keepAliveWorkflowStep workflowExecutionId stepName workerId : Exchange wire _).perform env
        db) := by
  refine relays_field 200 WorkflowStepExecution.toJson ?_ (by decide)
    fun step _ => workflowStepExecutionFromJson_toJson step
  refine of_fields (P := fun body => some (handleKeepAlive (post _ body : HttpRequest wire)) = _)
    (by simp) ?_
  intro o hfields
  simp only [List.forall_mem_cons] at hfields
  obtain ⟨hid, hstep, hworker, -⟩ := hfields
  rw [handleKeepAlive, parseBody_post, lift_ok_bind, requireString_eq hid, lift_ok_bind,
    requireString_eq hstep, lift_ok_bind, requireString_eq hworker, lift_ok_bind]

theorem failWorkflowStep_relays (workflowExecutionId stepName workerId reason : String) :
    Relays wire WorkflowExecution.stored
      (atomic env (WorkflowService.failWorkflowStep workflowExecutionId stepName workerId reason)
        db)
      ((failWorkflowStep workflowExecutionId stepName workerId reason : Exchange wire _).perform
        env db) := by
  refine relays_field 200 WorkflowExecution.toJson ?_ (by decide)
    fun execution _ => workflowExecutionFromJson_toJson execution
  refine of_fields (P := fun body => some (handleFail (post _ body : HttpRequest wire)) = _)
    (by simp) ?_
  intro o hfields
  simp only [List.forall_mem_cons] at hfields
  obtain ⟨hid, hstep, hworker, hreason, -⟩ := hfields
  rw [handleFail, parseBody_post, lift_ok_bind, requireString_eq hid, lift_ok_bind,
    requireString_eq hstep, lift_ok_bind, requireString_eq hworker, lift_ok_bind,
    requireString_eq hreason, lift_ok_bind]

theorem handleComplete_eq (workflowExecutionId stepName workerId : String) (stepOutput : Json)
    (nextStepDelay : Option Int64) {x : Except Exception (Option Int64)}
    (hdelay : ∀ o : Json.Object, o.get? "nextStepDelay" =
      nextStepDelay.map (fun delay => .string (toIso8601Duration delay)) →
      readNextStepDelay (.object o) = x) :
    route (completeWorkflowStep workflowExecutionId stepName workerId stepOutput nextStepDelay :
      Exchange wire _).request = some (do
        let nextStepDelay ← lift x
        let execution ← WorkflowService.completeWorkflowStep workflowExecutionId stepName workerId
          stepOutput nextStepDelay
        return (200, .object [("execution", execution.toJson)])) := by
  change some (handleComplete _) = _
  refine of_fields (P := fun v => ∀ o : Json.Object, v = .object o → o.get? "nextStepDelay" = none →
    some (handleComplete (post "/v1/workflow-step-executions/complete" (.object (o.setPresent
      "nextStepDelay" (fun delay => .string (toIso8601Duration delay)) nextStepDelay)) :
        HttpRequest wire)) = _) (by simp) ?_ _ rfl (by simp [get?_eq, setAll])
  intro _ hfields o ho hnone
  obtain rfl := Json.object.inj ho
  simp only [List.forall_mem_cons] at hfields
  obtain ⟨hid, hstep, hworker, houtput, -⟩ := hfields
  rw [handleComplete, parseBody_post, lift_ok_bind, requireString_eq (get?_setPresent hid (by decide)),
    lift_ok_bind, requireString_eq (get?_setPresent hstep (by decide)), lift_ok_bind,
    requireString_eq (get?_setPresent hworker (by decide)), lift_ok_bind,
    optionalJson_eq (get?_setPresent houtput (by decide)), lift_ok_bind]
  rw [hdelay]
  rw [get?_eq, lookup_setPresent, if_pos rfl, ← get?_eq, hnone, Option.or_none]

theorem completeStep_refused (workflowExecutionId stepName workerId : String) (stepOutput : Json)
    {delay : Int64} (h : delay.toInt ≤ 0) : ∃ what, atomic env
      (WorkflowService.completeWorkflowStep workflowExecutionId stepName workerId stepOutput
        (some delay)) db = (.error (.invalidArgument what), db) := by
  rw [WorkflowService.completeWorkflowStep, Orchestrator.completeStep, Orchestrator.validateExecutionId,
    Orchestrator.validateStepName, Orchestrator.validateWorkerId, throwIf_bind]
  by_cases hid : workflowExecutionId = ""
  · rw [if_pos hid]
    exact ⟨_, rfl⟩
  rw [if_neg hid, throwIf_bind]
  by_cases hstep : stepName = ""
  · rw [if_pos hstep]
    exact ⟨_, rfl⟩
  rw [if_neg hstep, throwIf_bind]
  by_cases hworker : workerId = ""
  · rw [if_pos hworker]
    exact ⟨_, rfl⟩
  rw [if_neg hworker, throwIf_bind, if_pos ⟨delay.toInt, rfl, h⟩]
  exact ⟨_, rfl⟩

theorem completeWorkflowStep_relays (workflowExecutionId stepName workerId : String)
    (stepOutput : Json) (nextStepDelay : Option Int64) : Relays wire WorkflowExecution.stored
      (atomic env (WorkflowService.completeWorkflowStep workflowExecutionId stepName workerId
        stepOutput nextStepDelay) db)
      ((completeWorkflowStep workflowExecutionId stepName workerId stepOutput nextStepDelay :
        Exchange wire _).perform env db) := by
  by_cases hdelay : ∃ delay, nextStepDelay = some delay ∧ delay.toInt ≤ 0
  · obtain ⟨delay, rfl, hle⟩ := hdelay
    obtain ⟨what, hservice⟩ : ∃ what, atomic env (WorkflowService.completeWorkflowStep
        workflowExecutionId stepName workerId stepOutput (some delay)) db =
        (.error (.invalidArgument what), db) :=
      completeStep_refused workflowExecutionId stepName workerId stepOutput hle
    obtain ⟨what', hparse⟩ := parseIso8601DurationToSeconds_nonpos hle
    have hroute := @handleComplete_eq wire workflowExecutionId stepName workerId stepOutput
      (some delay) _ fun o ho => readNextStepDelay_eq hparse ho
    rw [hservice, Exchange.perform, serve, hroute]
    exact .exception .invalidArgument db
  · refine relays_field 200 WorkflowExecution.toJson ?_ (by decide)
      fun execution _ => workflowExecutionFromJson_toJson execution
    refine handleComplete_eq workflowExecutionId stepName workerId stepOutput nextStepDelay
      (x := .ok nextStepDelay) ?_
    · intro o ho
      cases nextStepDelay with
      | none => exact readNextStepDelay_none ho
      | some delay =>
        have hpos : 0 < delay.toInt := not_le.mp fun hle => hdelay ⟨delay, rfl, hle⟩
        rw [readNextStepDelay_eq (parseIso8601DurationToSeconds_pos hpos) ho]
        simp [Except.map]

end HttpTransport

namespace Transport

def Response.mapTimes (f : TimePoint → TimePoint) : Response → Response
  | .execution e => .execution (e.mapTimes f)
  | .found e => .found (e.map (WorkflowExecution.mapTimes f))
  | .steps claimed => .steps (claimed.map (WorkflowStepExecution.mapTimes f))
  | .step s => .step (s.mapTimes f)
  | response => response

/-- A JSON object is a map: its keys are in order. -/
def Request.IsMap : Request → Prop
  | .registerWorkflowDefinition definitionJson => definitionJson.IsMap
  | _ => True

/-- An id that is one segment of a path, and a number of results that fits an `int`. -/
def Request.Deliverable : Request → Prop
  | .getWorkflowExecution workflowExecutionId | .cancelWorkflow workflowExecutionId =>
    '/' ∉ workflowExecutionId.toList
  | .pollAndClaimWorkflowSteps _ _ _ maxResults => maxResults.toNat < 2 ^ 31
  | _ => True

/-- Equal responses, time stamps compared to the microsecond, or exceptions of one class. -/
def sameOutcome : Except Exception Response → Except Exception Response → Bool
  | .ok r, .ok r' => r.mapTimes (fun t => t / 1000) = r'.mapTimes (fun t => t / 1000)
  | .error (.invalidArgument _), .error (.invalidArgument _) => true
  | .error (.runtimeError _), .error (.runtimeError _) => true
  | _, _ => false

/-- The two clients have one effect and one outcome. -/
def Agrees (wire : Wire) (env : Environment) (db : E.Db) (request : Request) : Prop :=
  let inProcess := atomic env (InProcessTransport.call request) db
  let http := (HttpTransport.call wire request).perform env db
  http.2 = inProcess.2 ∧ sameOutcome inProcess.1 http.1 = true

end Transport

open Transport HttpTransport

theorem Relays.call {α β : Type} {p : Op α} {x : Exchange wire β} {f : α → β}
    {g : α → Transport.Response} {g' : β → Transport.Response}
    (h : Relays wire f (atomic env p db) (x.perform env db))
    (hcomm : ∀ a, g' (f a) = (g a).mapTimes Iso8601.stored) :
    Relays wire (Response.mapTimes Iso8601.stored) (atomic env (p >>= fun a => pure (g a)) db)
      ((x.map g').perform env db) := by
  have hperform : (x.map g').perform env db = ((x.perform env db).1.map g', (x.perform env db).2) := by
    simp only [Exchange.perform, Exchange.map]
    cases (WorkflowHttpServer.serve env x.request db).1 with
    | ok result => rfl
    | error e => rfl
  rw [atomic_bind_pure, hperform]
  exact h.map hcomm

theorem HttpTransport.call_relays {request : Request} (map : request.IsMap)
    (deliverable : request.Deliverable) : Relays wire (Response.mapTimes Iso8601.stored)
      (atomic env (InProcessTransport.call request) db)
      ((HttpTransport.call wire request).perform env db) := by
  cases request with
  | validateWorkflowDefinition definitionJson =>
    exact (validateWorkflowDefinition_relays definitionJson).call fun _ => rfl
  | registerWorkflowDefinition definitionJson =>
    exact (registerWorkflowDefinition_relays map).call fun _ => rfl
  | listWorkflowDefinitions => exact listWorkflowDefinitions_relays.call fun _ => rfl
  | startWorkflowExecution workflowName workflowVersion input =>
    exact (startWorkflowExecution_relays workflowName workflowVersion input).call fun _ => rfl
  | getWorkflowExecution workflowExecutionId =>
    exact (getWorkflowExecution_relays deliverable).call fun _ => rfl
  | cancelWorkflow workflowExecutionId =>
    exact (cancelWorkflow_relays deliverable).call fun _ => rfl
  | pollAndClaimWorkflowSteps workflowName workflowVersion workerId maxResults =>
    exact (pollAndClaimWorkflowSteps_relays workflowName workflowVersion workerId deliverable).call
      fun _ => rfl
  | keepAliveWorkflowStep workflowExecutionId stepName workerId =>
    exact (keepAliveWorkflowStep_relays workflowExecutionId stepName workerId).call fun _ => rfl
  | completeWorkflowStep workflowExecutionId stepName workerId stepOutput nextStepDelay =>
    exact (completeWorkflowStep_relays workflowExecutionId stepName workerId stepOutput
      nextStepDelay).call fun _ => rfl
  | failWorkflowStep workflowExecutionId stepName workerId reason =>
    exact (failWorkflowStep_relays workflowExecutionId stepName workerId reason).call fun _ => rfl

/-- The outcome of a call in process arrives over HTTP, with time stamps that are kept to the
microsecond from the epoch to the year 9999. -/
theorem http_relays_in_process {request : Request} (map : request.IsMap)
    (deliverable : request.Deliverable) : ∃ f : TimePoint → TimePoint,
      (∀ t : ℤ, 0 ≤ t → t < Iso8601.yearTenThousand → f t = t / 1000 * 1000) ∧
      Relays wire (Response.mapTimes f) (atomic env (InProcessTransport.call request) db)
        ((HttpTransport.call wire request).perform env db) :=
  ⟨Iso8601.stored, fun _ hnonneg hlt => Iso8601.stored_eq hnonneg hlt, call_relays map deliverable⟩

namespace Sample

def jsonWire : Wire where
  Text := Option Json
  empty := none
  toString _ := ""
  canonicalString := some
  accessError := .backendError
  parse
    | some value => .ok value
    | none => .error (.storage "expected a value")
  parse_canonicalString _ := rfl

/-- A routing logic that throws an exception of another class. -/
noncomputable def throwing (now : TimePoint) : Environment :=
  { scripted now 0 [] {} with
    answer := fun n q => match q with
      | .decideNextStep _ => .error (.outOfRange "map::at")
      | q => (scripted now 0 [] {}).answer n q }

noncomputable def started : List Call := begin (definition false 0)

noncomputable def claimed : List Call :=
  started ++ [poll 2000000 "first" (script 0 "ship" started)]

noncomputable def pollEnvironment : Environment := (poll 2000000 "first" (script 0 "ship" started)).env

def stepsOf : Except Exception Transport.Response → Option (List WorkflowStepExecution)
  | .ok (.steps steps) => some steps
  | _ => none

theorem eq_ok_of_stepsOf {x : Except Exception Transport.Response}
    {steps : List WorkflowStepExecution} (h : stepsOf x = some steps) : x = .ok (.steps steps) := by
  unfold stepsOf at h
  split at h
  · rw [Option.some_inj.mp h]
  · cases h

end Sample

theorem http_relays_in_process_poll : (∃ r, (atomic Sample.pollEnvironment
    (InProcessTransport.call (.pollAndClaimWorkflowSteps "order" 1 "first" 1))
    (Sample.after Sample.started)).1 = .ok (.steps r) ∧ r.length = 1) ∧
    ∃ f : TimePoint → TimePoint,
      (∀ t : ℤ, 0 ≤ t → t < Iso8601.yearTenThousand → f t = t / 1000 * 1000) ∧
      Relays Sample.jsonWire (Response.mapTimes f)
        (atomic Sample.pollEnvironment
          (InProcessTransport.call (.pollAndClaimWorkflowSteps "order" 1 "first" 1))
          (Sample.after Sample.started))
        ((HttpTransport.call Sample.jsonWire (.pollAndClaimWorkflowSteps "order" 1 "first" 1)).perform
          Sample.pollEnvironment (Sample.after Sample.started)) := by
  refine ⟨?_, http_relays_in_process trivial (show (1 : UInt64).toNat < 2 ^ 31 by decide)⟩
  have hlength : (Sample.stepsOf (atomic Sample.pollEnvironment
      (InProcessTransport.call (.pollAndClaimWorkflowSteps "order" 1 "first" 1))
      (Sample.after Sample.started)).1).map List.length = some 1 := by
    decide +kernel
  obtain ⟨r, hr, hone⟩ := Option.map_eq_some_iff.mp hlength
  exact ⟨r, Sample.eq_ok_of_stepsOf hr, hone⟩

theorem not_agrees {E : Engine schema} {wire : Wire} {env : Environment} {db : E.Db}
    {request : Request} (h : sameOutcome (atomic env (InProcessTransport.call request) db).1
      ((HttpTransport.call wire request).perform env db).1 = false) :
    ¬ Agrees wire env db request := by
  intro hagrees
  rw [hagrees.2] at h
  cases h

/-- An exception of another class, a number beyond an `int` and a time stamp with a year of five
digits do not come back as they are in process. -/
theorem http_not_in_process :
    ¬ Agrees Sample.jsonWire (Sample.throwing 3000000) (Sample.after Sample.claimed)
      (.completeWorkflowStep (Sample.id 0) "ship" "first" .null none) ∧
    ¬ Agrees Sample.jsonWire Sample.pollEnvironment (Sample.after Sample.started)
      (.pollAndClaimWorkflowSteps "order" 1 "first" 4294967296) ∧
    ¬ Agrees Sample.jsonWire (scripted Iso8601.yearTenThousand 1 [] {}) (Sample.after Sample.started)
      (.startWorkflowExecution "order" 1 .null) := by
  refine ⟨not_agrees ?_, not_agrees ?_, not_agrees ?_⟩
  · decide +kernel
  · decide +kernel
  · decide +kernel

end WorkflowEngine
