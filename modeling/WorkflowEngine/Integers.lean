import WorkflowEngine.HttpTransport
import WorkflowEngine.Polling

/-!
# Integers in a request

The server casts the numbers of a body to `int`, and the number of results on
to `std::size_t`, before anything looks at their range. What the service gets
is the number that was sent only if it fits.
-/

namespace WorkflowEngine
open OrderedMap Txn Txn.Program Orchestrator WorkflowJson WorkflowHttpServer

variable {wire : Wire} {E : Engine schema} {env : Environment} {db : E.Db} {req : HttpRequest wire}
  {o : Json.Object} {n m : Int64}

/-- `static_cast<std::size_t>(static_cast<int>(n))` -/
def toSize (n : Int64) : UInt64 := n.toInt32.toInt64.toUInt64

theorem toNat_toUInt64 (j : Int64) : (j.toUInt64.toNat : ℤ) = j.toInt % 2 ^ 64 := by
  have hbmod : j.toInt = (j.toUInt64.toNat : ℤ).bmod (2 ^ 64) := BitVec.toInt_eq_toNat_bmod _
  have hlt := j.toUInt64.toNat_lt
  rw [hbmod, show (2 : ℤ) ^ 64 = ((2 ^ 64 : ℕ) : ℤ) from rfl, Int.bmod_emod]
  exact (Int.emod_eq_of_lt (by omega) (by omega)).symm

theorem toSize_toNat (n : Int64) : ((toSize n).toNat : ℤ) = n.toInt32.toInt % 2 ^ 64 := by
  rw [toSize, toNat_toUInt64, Int32.toInt_toInt64]

theorem toInt32_le (h : 1 ≤ m) : m.toInt32.toInt ≤ m.toInt := by
  have hone : (1 : ℤ) ≤ m.toInt := Int64.le_iff_toInt_le.mp h
  rw [Int64.toInt_toInt32, Int.bmod_eq_emod]
  split_ifs
  · omega
  · omega

theorem toSize_le (h : 1 ≤ m) (hsize : (toSize m).toNat < 2 ^ 63) :
    ((toSize m).toNat : ℤ) ≤ m.toInt := by
  have hnat := toSize_toNat m
  have hle := toInt32_le h
  have hlow := m.toInt32.le_toInt
  have hhigh := m.toInt32.toInt_lt
  omega

/-- `POST /v1/workflow-executions` with an object whose version is this number. -/
structure StartRequest (req : HttpRequest wire) (o : Json.Object) (n : Int64) : Prop where
  method : req.method = .post
  path : req.path = "/v1/workflow-executions"
  body : wire.parse req.body = .ok (.object o)
  version : o.get? "workflowVersion" = some (.int64 n)

/-- `POST /v1/workflow-step-executions/poll-and-claim` with an object that holds these numbers. -/
structure PollRequest (req : HttpRequest wire) (o : Json.Object) (n m : Int64) : Prop where
  method : req.method = .post
  path : req.path = "/v1/workflow-step-executions/poll-and-claim"
  body : wire.parse req.body = .ok (.object o)
  version : o.get? "workflowVersion" = some (.int64 n)
  results : o.get? "maxResults" = some (.int64 m)

theorem requireInt_object {key : String} (h : o.get? key = some (.int64 n)) :
    requireInt (.object o) key = .ok n.toInt32 := by
  rw [requireInt, HttpTransport.requirePresent_eq h]
  rfl

theorem optionalJson_object (o : Json.Object) (key : String) :
    optionalJson (.object o) key = .ok ((o.get? key).getD (.object [])) := by
  rw [optionalJson, readOptional, Json.has_object, Json.Object.count_eq]
  cases hv : o.get? key with
  | none => rfl
  | some v =>
    rw [Json.at_object _ _ hv]
    rfl

theorem readMaxResults_object (h : o.get? "maxResults" = some (.int64 m)) :
    readMaxResults (.object o) = .ok (toSize m) := by
  rw [readMaxResults, readOptional, Json.has_object, Json.Object.count_eq, h, Json.at_object _ _ h]
  rfl

theorem StartRequest.handler (h : StartRequest req o n) : ∃ input, route req = some (do
    let workflowName ← lift (requireString (.object o) "workflowName")
    let execution ← startWorkflow workflowName n.toInt32 input
    return (201, .object [("execution", execution.toJson)])) := by
  refine ⟨(o.get? "input").getD (.object []), ?_⟩
  have hroute : route req = some (handleStart req) := by
    rw [route, h.method, h.path]
    rfl
  rw [hroute, handleStart, parseBody, h.body, lift_ok_bind, requireInt_object h.version,
    optionalJson_object]
  rfl

theorem PollRequest.handler (h : PollRequest req o n m) : route req = some (do
    let workflowName ← lift (requireString (.object o) "workflowName")
    let workerId ← lift (requireString (.object o) "workerId")
    let steps ← pollAndClaimWorkflowSteps workflowName n.toInt32 workerId (toSize m).toNat
    return (200, .object [("steps", .array (steps.map WorkflowStepExecution.toJson))])) := by
  have hroute : route req = some (handlePollAndClaim req) := by
    rw [route, h.method, h.path]
    rfl
  rw [hroute, handlePollAndClaim, parseBody, h.body, lift_ok_bind, requireInt_object h.version,
    readMaxResults_object h.results]
  rfl

/-- The server answers 400 and leaves the store as it is. -/
def Refused (env : Environment) (req : HttpRequest wire) (db : E.Db) : Prop :=
  status (serve env req db).1 = some 400 ∧ (serve env req db).2 = db

/-- A start that goes by the version that was sent. -/
structure StartKept (env : Environment) (req : HttpRequest wire) (db : E.Db) (n : Int64) : Prop where
  stored : ∀ id row, E.get (serve env req db).2 .executions id = some row →
    E.get db .executions id ≠ some row → row.fromRow.workflowVersion.toInt = n.toInt
  answered : ∀ e : WorkflowExecution,
    (serve env req db).1 = .ok (respond (201, .object [("execution", e.toJson)])) →
    e.workflowVersion.toInt = n.toInt
  refused : n < 1 → Refused env req db

/-- A poll that goes by the version and the number of results that were sent. -/
structure PollKept (env : Environment) (req : HttpRequest wire) (db : E.Db) (n m : Int64) : Prop where
  stored : ∀ k row, E.get (serve env req db).2 .steps k = some row →
    E.get db .steps k ≠ some row → row.fromRow.workflowVersion.toInt = n.toInt
  answered : ∀ claimed : List WorkflowStepExecution, (serve env req db).1 =
      .ok (respond (200, .object [("steps", .array (claimed.map WorkflowStepExecution.toJson))])) →
    (∀ s ∈ claimed, s.workflowVersion.toInt = n.toInt) ∧ (claimed.length : ℤ) ≤ m.toInt
  refused : n < 1 ∨ m < 1 → Refused env req db

/-- No vector has room for half of what a `std::size_t` counts, and one that has no room raises a
`std::length_error` or a `std::bad_alloc`. -/
structure Bounded (env : Environment) : Prop where
  room : ∀ t n, 2 ^ 63 ≤ n → env.answer t (.reserve n) ≠ .ok ()
  raises : ∀ t n e, env.answer t (.reserve n) = .error e → ∃ what, e = .other what

theorem respond_inj {reply reply' : Reply}
    (h : (respond reply : HttpResponse wire) = respond reply') : reply = reply' := by
  obtain ⟨hstatus, hbody⟩ := HttpResponse.mk.inj h
  have hparse := congrArg wire.parse hbody
  rw [wire.parse_canonicalString, wire.parse_canonicalString] at hparse
  exact Prod.ext hstatus (Except.ok.inj hparse)

theorem atomic_reply_ok {α : Type} {p : Op α} {f : α → Reply} {a : α} {db' : E.Db}
    (ha : atomic env p db = (.ok a, db')) :
    atomic env (p >>= fun a => pure (f a)) db = (.ok (f a), db') := by
  rw [atomic_bind_pure, ha]
  rfl

theorem atomic_reply_error {α : Type} {p : Op α} {f : α → Reply} {e : Exception} {db' : E.Db}
    (ha : atomic env p db = (.error e, db')) :
    atomic env (p >>= fun a => pure (f a)) db = (.error e, db') := by
  rw [atomic_bind_pure, ha]
  rfl

theorem status_le {e : Exception} {code : ℕ} (h : statusOf wire e = some code) : 400 ≤ code := by
  rw [statusOf] at h
  split at h
  case h_3 what _ =>
    obtain rfl := Option.some_inj.mp h
    split
    · decide
    · decide
  case h_5 => cases h
  all_goals
    obtain rfl := Option.some_inj.mp h
    decide

theorem not_answered_of_throws {handler : Op Reply} {e : Exception} {code : ℕ} {body : Json}
    (hroute : route req = some handler) (ha : atomic env handler db = (.error e, db))
    (hcode : code < 400) : (serve env req db).1 ≠ .ok (respond (code, body)) := by
  intro h
  have hstatus := (serve_throws hroute ha).1
  rw [h] at hstatus
  exact absurd (status_le hstatus.symm) (not_le.mpr hcode)

theorem refused_iff_of_throws {handler : Op Reply} {e : Exception} (hroute : route req = some handler)
    (ha : atomic env handler db = (.error e, db)) :
    Refused env req db ↔ statusOf wire e = some 400 := by
  obtain ⟨hstatus, hstore⟩ := serve_throws hroute ha
  exact ⟨fun h => hstatus.symm.trans h.1, fun h => ⟨hstatus.trans h, hstore⟩⟩

theorem startKept_of_throws {handler : Op Reply} {e : Exception} (hroute : route req = some handler)
    (ha : atomic env handler db = (.error e, db)) :
    StartKept env req db n ↔ (n < 1 → statusOf wire e = some 400) := by
  have hrefused := refused_iff_of_throws hroute ha
  refine ⟨fun h hlow => hrefused.mp (h.refused hlow), fun h => ⟨fun id row hrow hne => ?_,
    fun e' he' => absurd he' (not_answered_of_throws hroute ha (by decide)),
    fun hlow => hrefused.mpr (h hlow)⟩⟩
  rw [(serve_throws hroute ha).2] at hrow
  exact absurd hrow hne

theorem pollKept_of_throws {handler : Op Reply} {e : Exception} (hroute : route req = some handler)
    (ha : atomic env handler db = (.error e, db)) :
    PollKept env req db n m ↔ (n < 1 ∨ m < 1 → statusOf wire e = some 400) := by
  have hrefused := refused_iff_of_throws hroute ha
  refine ⟨fun h hlow => hrefused.mp (h.refused hlow), fun h => ⟨fun k row hrow hne => ?_,
    fun claimed hclaimed => absurd hclaimed (not_answered_of_throws hroute ha (by decide)),
    fun hlow => hrefused.mpr (h hlow)⟩⟩
  rw [(serve_throws hroute ha).2] at hrow
  exact absurd hrow hne

/-- Without the text the body is refused, and so it is with another value there, unless the
accessor raises an exception that is answered otherwise. -/
def TextSafe (wire : Wire) (o : Json.Object) (key : String) (low : Prop) (safe : String → Prop) :
    Prop :=
  match o.get? key with
  | none => True
  | some (.string text) => safe text
  | some _ => low → wire.accessError = .backendError ∨ wire.accessError = .invalidArgument

theorem statusOf_access {what : String} : statusOf wire (.access what) = some 400 ↔
    wire.accessError = .backendError ∨ wire.accessError = .invalidArgument := by
  rw [statusOf, caught]
  cases wire.accessError with
  | runtimeError =>
    simp only [Option.some.injEq, reduceCtorEq, or_self, iff_false]
    split_ifs
    · decide
    · decide
  | _ => simp

theorem textSafe_iff {key : String} {low kept : Prop} {safe : String → Prop}
    {f : String → Op Reply} (hroute : route req = some (lift (requireString (.object o) key) >>= f))
    (hthrows : ∀ {handler : Op Reply} {e : Exception}, route req = some handler →
      atomic env handler db = (.error e, db) → (kept ↔ (low → statusOf wire e = some 400)))
    (hsafe : ∀ text, route req = some (f text) → (kept ↔ safe text)) :
    kept ↔ TextSafe wire o key low safe := by
  rw [TextSafe]
  cases hv : o.get? key with
  | none =>
    have hread : requireString (.object o) key =
        .error (.invalidArgument ("missing required field: " ++ key)) := by
      rw [requireString, requirePresent, Json.has_object, Json.Object.count_eq, hv]
      rfl
    rw [hread] at hroute
    exact iff_of_true ((hthrows hroute rfl).mpr fun _ => rfl) trivial
  | some v =>
    have hread : requireString (.object o) key = v.asString := HttpTransport.requirePresent_eq hv
    rw [hread] at hroute
    cases v with
    | string text => exact hsafe text hroute
    | _ => exact (hthrows hroute rfl).trans (imp_congr_right fun _ => statusOf_access)

theorem validateWorkflowNameAndVersion_refuses {α : Type} {name : String} {version : Int32}
    {f : Unit → Op α} (h : name = "" ∨ version < 1) :
    ∃ what, atomic env (validateWorkflowNameAndVersion name version >>= f) db =
      (.error (.invalidArgument what), db) := by
  rw [validateWorkflowNameAndVersion, throwIf_bind]
  by_cases hname : name = ""
  · rw [if_pos hname]
    exact ⟨_, rfl⟩
  · rw [if_neg hname, throwIf, if_pos (h.resolve_left hname)]
    exact ⟨_, rfl⟩

theorem takeSingletonLock_frame {tx tx' : Tx E} {b : Bool} {e : WorkflowExecution} {u : Unit}
    {t : TableName} (ht : t ≠ .singletonLocks) (hr : Returns env (takeSingletonLock b e) tx u tx')
    (k : String) : E.get tx'.view t k = E.get tx.view t k := by
  rcases takeSingletonLock_cases hr with ⟨-, hview⟩ | ⟨-, hview, -⟩
  · rw [hview]
  · rw [hview, E.get_put_table _ _ ht]

theorem startWorkflow_begun {tx tx' : Tx E} {name : String} {version : Int32} {input : Json}
    {e : WorkflowExecution} (hr : Returns env (startWorkflow name version input) tx e tx') :
    e.workflowVersion = version ∧ ∀ id, E.get tx'.view .executions id =
      if id = e.workflowExecutionId then some e.toRow else E.get tx.view .executions id := by
  obtain ⟨row, id, tx₀, tx₁, -, hid, rfl, hlock, rfl⟩ := startWorkflow_cases hr
  refine ⟨rfl, fun k => ?_⟩
  have hframe : E.get tx₁.view .executions k = E.get tx.view .executions k := by
    rw [takeSingletonLock_frame (by decide) hlock, Tx.tick_view, (generateExecutionId_spec hid).2,
      Tx.noteKey_view]
  rw [Tx.stage_view, E.get_put_table _ _ (by decide), Tx.tick_view, Tx.stage_view, E.get_put, hframe]
  rfl

/-- The definition is there, and no execution under way that the lock of a singleton names. -/
def Startable (db : E.Db) (name : String) (version : Int32) : Prop :=
  ∃ row, E.get db .definitions (definitionKey name version) = some row ∧
    (row.fromRow.singleton = true → ∀ lock existing,
      E.get db .singletonLocks (singletonLockKey name version) = some lock →
      E.get db .executions lock.workflowExecutionId = some existing →
      existing.fromRow.status ≠ .running)

theorem startable_of_returns {tx' : Tx E} {name : String} {version : Int32} {input : Json}
    {e : WorkflowExecution}
    (hr : Returns env (startWorkflow name version input) (Tx.begin db) e tx') :
    Startable db name version := by
  obtain ⟨row, id, tx₀, tx₁, hrow, hid, rfl, hlock, -⟩ := startWorkflow_cases hr
  refine ⟨row, hrow, fun hsingle lock existing hheld hfound => ?_⟩
  have hview : tx₀.tick.view = db := (generateExecutionId_spec hid).2
  rcases takeSingletonLock_cases hlock with ⟨hshared, -⟩ | ⟨-, -, hfree⟩
  · rw [hsingle] at hshared
    cases hshared
  · rw [hview] at hfree
    exact hfree lock existing hheld hfound

theorem takeSingletonLock_throws {tx tx' : Tx E} {single : Bool} {execution : WorkflowExecution}
    {ex : Exception} (h : Throws env (takeSingletonLock single execution) tx ex tx') :
    (∃ what, ex = .runtimeError what) ∧ single = true ∧ ∃ lock existing,
      E.get tx.view .singletonLocks
        (singletonLockKey execution.workflowName execution.workflowVersion) = some lock ∧
      E.get tx.view .executions lock.workflowExecutionId = some existing ∧
      existing.fromRow.status = .running := by
  cases single with
  | false => exact absurd h (total_pure _).not_throws
  | true =>
    simp only [takeSingletonLock, if_true] at h
    obtain ⟨lock, tx₁, hr, h⟩ := (total_read _ _).throws_bind h
    obtain ⟨rfl, rfl⟩ := returns_getLock.mp hr
    replace h := h.head fun _ => total_putLock _
    cases hlock : E.get tx.view .singletonLocks
        (singletonLockKey execution.workflowName execution.workflowVersion) with
    | none =>
      rw [hlock] at h
      exact absurd h (total_pure _).not_throws
    | some lock =>
      rw [hlock] at h
      obtain ⟨found, tx₂, hr, h⟩ := (total_read _ _).throws_bind h
      obtain ⟨rfl, rfl⟩ := returns_getExecution.mp hr
      rw [Tx.noteKey_view] at h
      cases hrow : E.get tx.view .executions lock.workflowExecutionId with
      | none =>
        rw [hrow] at h
        exact absurd h (total_pure _).not_throws
      | some row =>
        rw [hrow] at h
        obtain ⟨hrunning, rfl, -⟩ := throws_throwIf.mp h
        exact ⟨⟨_, rfl⟩, rfl, lock, row, rfl, hrow, hrunning⟩

theorem startWorkflow_throws {tx' : Tx E} {name : String} {version : Int32} {input : Json}
    {ex : Exception} (hname : name ≠ "") (hversion : ¬ version < 1)
    (h : Throws env (startWorkflow name version input) (Tx.begin db) ex tx') :
    (∃ what, ex = .runtimeError what) ∧ ¬ Startable db name version := by
  rcases throws_bind.mp h with h | ⟨u, tx₁, hr, h⟩
  · exact absurd h (Returns.not_throws
      (returns_validateWorkflowNameAndVersion.mpr ⟨hname, hversion, rfl⟩ : Returns _ _ _ () _))
  obtain ⟨-, -, rfl⟩ := returns_validateWorkflowNameAndVersion.mp hr
  obtain ⟨found, tx₂, hr, h⟩ := (total_read _ _).throws_bind h
  obtain ⟨rfl, rfl⟩ := returns_getDefinition.mp hr
  rcases throws_bind.mp h with h | ⟨row, tx₂, hr, h⟩
  · obtain ⟨habsent, rfl, -⟩ := throws_orThrow.mp h
    refine ⟨⟨_, rfl⟩, fun startable => ?_⟩
    obtain ⟨row, hrow, -⟩ := startable
    exact absurd (hrow.symm.trans habsent) nofun
  obtain ⟨hrow, rfl⟩ := returns_orThrow.mp hr
  obtain ⟨id, tx₃, hid, h⟩ := total_generateExecutionId.throws_bind h
  obtain ⟨startedAt, tx₄, hr, h⟩ := (total_demand _).throws_bind h
  obtain ⟨rfl, rfl⟩ := returns_nowForStorage.mp hr
  replace h := h.head fun _ => (total_putExecution _).bind fun _ =>
    (total_makeStepExecution _ _ _ _ _).bind fun _ => (total_putStep _).bind fun _ => total_pure _
  have hview : tx₃.tick.view = db := (generateExecutionId_spec hid).2
  obtain ⟨hthrows, hsingle, lock, existing, hlock, hfound, hrunning⟩ := takeSingletonLock_throws h
  rw [hview] at hlock hfound
  refine ⟨hthrows, fun startable => ?_⟩
  obtain ⟨row', hrow', hfree⟩ := startable
  obtain rfl := Option.some_inj.mp (hrow'.symm.trans hrow)
  exact hfree hsingle lock existing hlock hfound hrunning

/-- The bodies whose version a start takes as it was sent, refuses, or can make nothing of. -/
def StartSafe (wire : Wire) (db : E.Db) (o : Json.Object) (n : Int64) : Prop :=
  TextSafe wire o "workflowName" (n < 1) fun name => name ≠ "" → ¬ n.toInt32 < 1 →
    1 ≤ n ∧ (n.toInt32.toInt = n.toInt ∨ ¬ Startable db name n.toInt32)

theorem toJson_workflowVersion {e e' : WorkflowExecution} (h : e.toJson = e'.toJson) :
    e.workflowVersion = e'.workflowVersion := by
  have hread := workflowExecutionFromJson_toJson e
  rw [h, workflowExecutionFromJson_toJson] at hread
  exact (congrArg WorkflowExecution.workflowVersion (Except.ok.inj hread)).symm

theorem toJson_steps {l l' : List WorkflowStepExecution}
    (h : l.map WorkflowStepExecution.toJson = l'.map WorkflowStepExecution.toJson) :
    l.map WorkflowStepExecution.workflowVersion = l'.map WorkflowStepExecution.workflowVersion := by
  have hread := mapM_map_eq_ok workflowStepExecutionFromJson_toJson l
  rw [h, mapM_map_eq_ok workflowStepExecutionFromJson_toJson] at hread
  have hstored := congrArg (List.map WorkflowStepExecution.workflowVersion) (Except.ok.inj hread)
  rw [List.map_map, List.map_map] at hstored
  exact hstored.symm

theorem statusOf_runtimeError (what : String) : statusOf wire (.runtimeError what) ≠ some 400 := by
  simp only [statusOf, caught]
  split_ifs
  · decide
  · decide

theorem startKept_of_returns {name : String} {version : Int32} {input : Json} {e : WorkflowExecution}
    {db' : E.Db} (hroute : route req = some (do
      let execution ← startWorkflow name version input
      return (201, .object [("execution", execution.toJson)])))
    (ha : atomic env (startWorkflow name version input) db = (.ok e, db')) :
    StartKept env req db n ↔ 1 ≤ n ∧ version.toInt = n.toInt := by
  have hserve := serve_returns hroute (atomic_reply_ok ha)
  obtain ⟨tx, hr, rfl⟩ := atomic_ok.mp ha
  obtain ⟨hversion, hexecutions⟩ := startWorkflow_begun hr
  constructor
  · intro h
    refine ⟨?_, hversion ▸ h.answered e (congrArg Prod.fst hserve)⟩
    by_contra hlow
    have hrefused := (h.refused (Int64.not_le.mp hlow)).1
    rw [hserve] at hrefused
    cases hrefused
  · intro h
    obtain ⟨hone, hkept⟩ := h
    refine ⟨fun id row hrow hne => ?_, fun e' he' => ?_,
      fun hlow => absurd hlow (Int64.not_lt.mpr hone)⟩
    · rw [hserve, hexecutions] at hrow
      split_ifs at hrow
      · obtain rfl := Option.some_inj.mp hrow
        rw [e.fromRow_toRow]
        exact (congrArg Int32.toInt hversion).trans hkept
      · exact absurd hrow hne
    · rw [hserve] at he'
      have hreply := respond_inj (Except.ok.inj he')
      have hjson : e.toJson = e'.toJson := by simpa using hreply
      exact (congrArg Int32.toInt ((toJson_workflowVersion hjson).symm.trans hversion)).trans hkept

theorem startKept_iff (hreq : StartRequest req o n) :
    StartKept env req db n ↔ StartSafe wire db o n := by
  obtain ⟨input, hroute⟩ := hreq.handler
  refine textSafe_iff hroute startKept_of_throws fun name hroute => ?_
  by_cases hnamed : name = "" ∨ n.toInt32 < 1
  · obtain ⟨what, ha⟩ : ∃ what, atomic env (startWorkflow name n.toInt32 input) db =
        (.error (.invalidArgument what), db) := validateWorkflowNameAndVersion_refuses hnamed
    exact iff_of_true ((startKept_of_throws hroute (atomic_reply_error ha)).mpr fun _ => rfl)
      fun hname hversion => absurd hnamed (not_or.mpr ⟨hname, hversion⟩)
  obtain ⟨hname, hversion⟩ := not_or.mp hnamed
  rw [imp_iff_right hname, imp_iff_right hversion]
  cases ha : atomic env (startWorkflow name n.toInt32 input) db with
  | mk result db' =>
    cases result with
    | error ex =>
      obtain ⟨⟨tx, hthrows⟩, rfl⟩ := atomic_error.mp ha
      obtain ⟨⟨what, rfl⟩, hnot⟩ := startWorkflow_throws hname hversion hthrows
      rw [startKept_of_throws hroute (atomic_reply_error ha), and_iff_left (.inr hnot),
        ← Int64.not_lt]
      exact imp_congr_right fun _ => iff_of_false (statusOf_runtimeError what) id
    | ok e =>
      obtain ⟨tx, hr, -⟩ := atomic_ok.mp ha
      rw [startKept_of_returns hroute ha, or_iff_left (not_not.mpr (startable_of_returns hr))]

theorem poll_refuses {name workerId : String} {version : Int32} {maxResults : ℕ}
    (h : (name = "" ∨ version < 1) ∨ workerId = "" ∨ maxResults = 0) :
    ∃ what, atomic env (pollAndClaimWorkflowSteps name version workerId maxResults) db =
      (.error (.invalidArgument what), db) := by
  by_cases hnamed : name = "" ∨ version < 1
  · exact validateWorkflowNameAndVersion_refuses hnamed
  obtain ⟨hname, hversion⟩ := not_or.mp hnamed
  rw [pollAndClaimWorkflowSteps, validateWorkflowNameAndVersion, validateWorkerId, throwIf, throwIf,
    if_neg hname, if_neg hversion]
  by_cases hworker : workerId = ""
  · rw [throwIf, if_pos hworker]
    exact ⟨_, rfl⟩
  · rw [throwIf, if_neg hworker, throwIf, if_pos ((h.resolve_left hnamed).resolve_left hworker)]
    exact ⟨_, rfl⟩

def polled (env : Environment) (db : E.Db) (name : String) (version : Int32) (maxResults : ℕ) :
    List WorkflowStepExecution :=
  claimable (env.answer 0 .clock) maxResults (candidatesIn env db name version)

def leaseError (d : WorkflowDefinition) (s : WorkflowStepExecution) : Option Exception :=
  match d.lease s.stepName with
  | .ok _ => none
  | .error ex => some ex

theorem claimSteps_throws {tx : Tx E} {d : WorkflowDefinition} {workerId : String} {now : TimePoint}
    {maxResults : ℕ} {claimed candidates : List WorkflowStepExecution} {ex : Exception}
    (listed : Listed tx.view candidates)
    (h : (claimable now (maxResults - claimed.length) candidates).findSome? (leaseError d) = some ex) :
    ∃ tx', Throws env (claimSteps d workerId now maxResults claimed candidates) tx ex tx' := by
  induction candidates generalizing tx claimed with
  | nil =>
    rw [claimable, List.filter_nil, List.take_nil] at h
    cases h
  | cons c candidates ih =>
    by_cases room : claimed.length < maxResults
    swap
    · rw [claimable_full room] at h
      cases h
    obtain ⟨row, hrow, hc⟩ := listed.rows c List.mem_cons_self
    obtain ⟨n, hn⟩ := Nat.exists_eq_succ_of_ne_zero (Nat.sub_ne_zero_of_lt room)
    cases hclaim : isClaimable c now with
    | false =>
      rw [claimable_cons_skip hclaim] at h
      have hlisted : Listed (tx.noteKey .steps c.stepKey.text).view candidates := by
        rw [Tx.noteKey_view]
        exact listed.tail
      obtain ⟨tx', hthrows⟩ := ih hlisted h
      exact ⟨tx', (claimSteps_skip hrow hc room hclaim).trans hthrows⟩
    | true =>
      rw [hn, claimable_cons_take hclaim, List.findSome?_cons] at h
      cases hlease : d.lease c.stepName with
      | error ex' =>
        simp only [leaseError, hlease, Option.some.injEq] at h
        subst h
        exact ⟨_, claimSteps_stop hrow hc room hclaim hlease⟩
      | ok lease =>
        simp only [leaseError, hlease] at h
        have hlength : maxResults -
            (claimed ++ [c.claimedBy workerId now (now.addSeconds lease)]).length = n := by
          rw [List.length_append, List.length_singleton]
          omega
        have hlisted : Listed ((tx.noteKey .steps c.stepKey.text).stage .steps
            (c.claimedBy workerId now (now.addSeconds lease)).toRow).view candidates := by
          rw [Tx.stage_view, Tx.noteKey_view]
          exact listed.put rfl
        obtain ⟨tx', hthrows⟩ := ih hlisted (hlength.symm ▸ h)
        exact ⟨tx', (claimSteps_claim hrow hc room hclaim hlease).trans hthrows⟩

theorem leases_of_leaseError {d : WorkflowDefinition} {steps : List WorkflowStepExecution}
    (h : steps.findSome? (leaseError d) = none) :
    ∀ s ∈ steps, ∃ lease, d.lease s.stepName = .ok lease := by
  intro s hs
  have hnone := List.findSome?_eq_none_iff.mp h s hs
  rw [leaseError] at hnone
  cases hlease : d.lease s.stepName with
  | ok lease => exact ⟨lease, rfl⟩
  | error ex =>
    rw [hlease] at hnone
    cases hnone

/-- A poll that gets to its loop claims what it comes to, or stops at the first lease that cannot
be given. -/
theorem poll_loops (keyed : Keyed db) {name workerId : String} {version : Int32} {maxResults : ℕ}
    {d : WorkflowDefinition}
    (polling : Polling env (Tx.begin db) name version workerId maxResults d) :
    match (polled env db name version maxResults).findSome? (leaseError d) with
    | some ex =>
      atomic env (pollAndClaimWorkflowSteps name version workerId maxResults) db = (.error ex, db)
    | none => ∃ claimed db',
      atomic env (pollAndClaimWorkflowSteps name version workerId maxResults) db =
        (.ok claimed, db') ∧
      List.Forall₂ (Leasing d workerId (env.answer 0 .clock)) (polled env db name version maxResults)
        claimed := by
  cases h : (polled env db name version maxResults).findSome? (leaseError d) with
  | some ex =>
    obtain ⟨tx₁, hview, hexec⟩ := exec_poll polling
    have hlisted : Listed tx₁.view (candidatesIn env db name version) :=
      hview.symm ▸ listed_candidates keyed env name version
    have ⟨tx', hthrows⟩ : ∃ tx', Throws env
        (claimSteps d workerId (env.answer 0 .clock) maxResults [] (candidatesIn env db name version))
        tx₁ ex tx' := claimSteps_throws hlisted h
    exact atomic_error.mpr ⟨⟨tx', hexec.trans hthrows⟩, rfl⟩
  | none =>
    obtain ⟨claimed, hclaimed⟩ := exists_claims workerId (env.answer 0 .clock) (leases_of_leaseError h)
    exact ⟨claimed, _, poll_atomic keyed polling hclaimed, hclaimed⟩

theorem claimed_version (enc : Encoded db) {tx' : Tx E} {name workerId : String} {version : Int32}
    {maxResults : ℕ} {claimed : List WorkflowStepExecution}
    (hr : Returns env (pollAndClaimWorkflowSteps name version workerId maxResults) (Tx.begin db)
      claimed tx') : ∀ s ∈ claimed, s.workflowVersion = version := by
  intro s hs
  obtain ⟨d, -, hclaims, -⟩ := poll_outcome enc.keyed hr
  obtain ⟨c, hc, lease, -, rfl⟩ := claim_of_mem hclaims s hs
  have hcandidate := List.mem_of_mem_filter (List.mem_of_mem_take hc)
  obtain ⟨row, rfl, hrow⟩ := candidate_row enc.keyed hcandidate
  exact (Prod.mk.inj (candidate_version enc hcandidate hrow)).2

theorem poll_changes (enc : Encoded db) {tx' : Tx E} {name workerId : String} {version : Int32}
    {maxResults : ℕ} {claimed : List WorkflowStepExecution}
    (hr : Returns env (pollAndClaimWorkflowSteps name version workerId maxResults) (Tx.begin db)
      claimed tx') {k : String} {row : WorkflowStepExecutionRow}
    (hrow : E.get tx'.view .steps k = some row) (hne : E.get db .steps k ≠ some row) :
    ∃ s ∈ claimed, row = s.toRow := by
  obtain ⟨d, -, hclaims, hview⟩ := poll_outcome enc.keyed hr
  have hkeys := claims_nodup hclaims (claimable_nodup enc.keyed env name version _ maxResults)
  rw [hview] at hrow
  by_cases hwritten : ∃ w ∈ claimed.map claimWrite, w.address = ⟨.steps, k⟩
  swap
  · rw [E.get_applyWrites_other fun w hw heq => hwritten ⟨w, hw, heq⟩] at hrow
    exact absurd hrow hne
  obtain ⟨w, hw, haddress⟩ := hwritten
  obtain ⟨s, hs, rfl⟩ := List.mem_map.mp hw
  have hget : E.get (E.applyWrites db (claimed.map claimWrite)) .steps s.toRow.key = some s.toRow :=
    E.get_applyWrites_mem (claimWrites_nodup hkeys) hw
  cases haddress
  exact ⟨s, hs, Option.some_inj.mp (hrow.symm.trans hget)⟩

theorem pollKept_of_returns (enc : Encoded db) {name workerId : String} {version : Int32}
    {maxResults : ℕ} {claimed : List WorkflowStepExecution} {db' : E.Db} (hroute : route req = some (do
      let steps ← pollAndClaimWorkflowSteps name version workerId maxResults
      return (200, .object [("steps", .array (steps.map WorkflowStepExecution.toJson))])))
    (ha : atomic env (pollAndClaimWorkflowSteps name version workerId maxResults) db =
      (.ok claimed, db')) :
    PollKept env req db n m ↔ ¬ (n < 1 ∨ m < 1) ∧ (claimed ≠ [] → version.toInt = n.toInt) ∧
      (claimed.length : ℤ) ≤ m.toInt := by
  have hserve := serve_returns hroute (atomic_reply_ok ha)
  obtain ⟨tx, hr, rfl⟩ := atomic_ok.mp ha
  have hversion := claimed_version enc hr
  constructor
  · intro h
    obtain ⟨hversions, hlength⟩ := h.answered claimed (congrArg Prod.fst hserve)
    refine ⟨fun hlow => ?_, fun hne => ?_, hlength⟩
    · have hrefused := (h.refused hlow).1
      rw [hserve] at hrefused
      cases hrefused
    · obtain ⟨s, hs⟩ := List.exists_mem_of_ne_nil claimed hne
      exact hversion s hs ▸ hversions s hs
  · intro h
    obtain ⟨hhigh, hkept, hlength⟩ := h
    have hversions : ∀ s ∈ claimed, s.workflowVersion.toInt = n.toInt := fun s hs =>
      (congrArg Int32.toInt (hversion s hs)).trans (hkept (List.ne_nil_of_mem hs))
    refine ⟨fun k row hrow hne => ?_, fun claimed' hclaimed => ?_, fun hlow => absurd hlow hhigh⟩
    · rw [hserve] at hrow
      obtain ⟨s, hs, rfl⟩ := poll_changes enc hr hrow hne
      rw [s.fromRow_toRow]
      exact hversions s hs
    · rw [hserve] at hclaimed
      have hreply := respond_inj (Except.ok.inj hclaimed)
      have hjson : claimed.map WorkflowStepExecution.toJson =
          claimed'.map WorkflowStepExecution.toJson := by simpa using hreply
      have hsame := toJson_steps hjson
      refine ⟨fun s hs => ?_, ?_⟩
      · obtain ⟨t, ht, hst⟩ := List.mem_map.mp (hsame ▸ List.mem_map_of_mem hs)
        exact hst ▸ hversions t ht
      · rwa [← List.length_map WorkflowStepExecution.toJson, ← hjson, List.length_map]

theorem poll_stops (bounded : Bounded env) {name workerId : String} {version : Int32}
    {maxResults : ℕ} (named : name ≠ "" ∧ ¬ version < 1 ∧ workerId ≠ "" ∧ maxResults ≠ 0)
    (hno : ∀ d, ¬ Polling env (Tx.begin db) name version workerId maxResults d) :
    ∃ ex, atomic env (pollAndClaimWorkflowSteps name version workerId maxResults) db =
      (.error ex, db) ∧ statusOf wire ex ≠ some 400 := by
  rcases returns_or_throws env (pollAndClaimWorkflowSteps name version workerId maxResults)
    (Tx.begin db) with ⟨claimed, tx, hr⟩ | ⟨ex, tx, h⟩
  · obtain ⟨row, tx₁, -, polling, -⟩ := polling_of_returns hr
    exact absurd polling (hno _)
  refine ⟨ex, atomic_error.mpr ⟨⟨tx, h⟩, rfl⟩, ?_⟩
  obtain ⟨hname, hversion, hworker, hmax⟩ := named
  have hchecks : Returns env (validateWorkflowNameAndVersion name version) (Tx.begin db) ()
      (Tx.begin db) := returns_validateWorkflowNameAndVersion.mpr ⟨hname, hversion, rfl⟩
  have hid : Returns env (validateWorkerId workerId) (Tx.begin db) () (Tx.begin db) :=
    returns_throwIf.mpr ⟨hworker, rfl⟩
  rw [Throws, pollAndClaimWorkflowSteps, exec_bind_of_returns hchecks, exec_bind_of_returns hid,
    exec_bind_of_returns (returns_throwIf.mpr ⟨hmax, rfl⟩ : Returns _ _ _ () _),
    exec_bind_of_returns (returns_getDefinition.mpr ⟨rfl, rfl⟩)] at h
  rcases throws_bind.mp h with h | ⟨row, tx₁, hr, h⟩
  · obtain ⟨-, rfl, -⟩ := throws_orThrow.mp h
    exact statusOf_runtimeError _
  obtain ⟨hrow, rfl⟩ := returns_orThrow.mp hr
  obtain ⟨now, tx₂, hr, h⟩ := (total_demand _).throws_bind h
  obtain ⟨rfl, rfl⟩ := returns_nowForStorage.mp hr
  obtain ⟨pending, tx₃, hr, h⟩ := (total_find _ _).throws_bind h
  obtain ⟨rfl, rfl⟩ := returns_querySteps.mp hr
  obtain ⟨running, tx₄, hr, h⟩ := (total_find _ _).throws_bind h
  obtain ⟨rfl, rfl⟩ := returns_querySteps.mp hr
  rcases throws_bind.mp h with h | ⟨u, tx₅, hr, h⟩
  · obtain ⟨room, tx₅, hr, h⟩ := (total_demand _).throws_bind h
    obtain ⟨rfl, rfl⟩ := returns_demand.mp hr
    obtain ⟨what, rfl⟩ := bounded.raises _ _ _ (throws_lift.mp h).1
    simp [statusOf, caught]
  · obtain ⟨room, tx₆, hr', hlift⟩ := returns_bind.mp hr
    obtain ⟨rfl, rfl⟩ := returns_demand.mp hr'
    exact absurd ⟨⟨hname, hversion, hworker, hmax⟩, ⟨row, hrow, rfl⟩, (returns_lift.mp hlift).1⟩
      (hno row.fromRow)

/-- The poll gets to its loop and can lease what it comes to, which is not nothing. -/
def ClaimsSome (env : Environment) (db : E.Db) (name : String) (version : Int32) (workerId : String)
    (maxResults : ℕ) : Prop :=
  ∃ d, Polling env (Tx.begin db) name version workerId maxResults d ∧
    polled env db name version maxResults ≠ [] ∧
    (polled env db name version maxResults).findSome? (leaseError d) = none

/-- The poll gets to its loop, and the first lease that it cannot give is refused as an argument is. -/
def LeaseRefused (wire : Wire) (env : Environment) (db : E.Db) (name : String) (version : Int32)
    (workerId : String) (maxResults : ℕ) : Prop :=
  ∃ d ex, Polling env (Tx.begin db) name version workerId maxResults d ∧
    (polled env db name version maxResults).findSome? (leaseError d) = some ex ∧
    statusOf wire ex = some 400

/-- The bodies whose numbers a poll takes as they were sent, refuses, or can make nothing of. -/
def PollSafe (wire : Wire) (env : Environment) (db : E.Db) (o : Json.Object) (n m : Int64) : Prop :=
  TextSafe wire o "workflowName" (n < 1 ∨ m < 1) fun name =>
    TextSafe wire o "workerId" (n < 1 ∨ m < 1) fun workerId =>
      name ≠ "" ∧ ¬ n.toInt32 < 1 ∧ workerId ≠ "" ∧ (toSize m).toNat ≠ 0 →
        ¬ (n < 1 ∨ m < 1) ∧ (n.toInt32.toInt = n.toInt ∨
          ¬ ClaimsSome env db name n.toInt32 workerId (toSize m).toNat) ∨
        LeaseRefused wire env db name n.toInt32 workerId (toSize m).toNat

theorem Orchestrator.Polling.unique {tx : Tx E} {name workerId : String} {version : Int32}
    {maxResults : ℕ} {d d' : WorkflowDefinition} (h : Polling env tx name version workerId maxResults d)
    (h' : Polling env tx name version workerId maxResults d') : d = d' := by
  obtain ⟨row, hrow, rfl⟩ := h.definition
  obtain ⟨row', hrow', rfl⟩ := h'.definition
  rw [Option.some_inj.mp (hrow.symm.trans hrow')]

theorem Orchestrator.Polling.claimsSome_iff {name workerId : String} {version : Int32}
    {maxResults : ℕ} {d : WorkflowDefinition}
    (h : Polling env (Tx.begin db) name version workerId maxResults d) :
    ClaimsSome env db name version workerId maxResults ↔
      polled env db name version maxResults ≠ [] ∧
        (polled env db name version maxResults).findSome? (leaseError d) = none := by
  refine ⟨fun hclaims => ?_, fun hleases => ⟨d, h, hleases⟩⟩
  obtain ⟨d', h', hleases⟩ := hclaims
  rwa [h.unique h']

theorem Orchestrator.Polling.leaseRefused_iff {name workerId : String} {version : Int32}
    {maxResults : ℕ} {d : WorkflowDefinition}
    (h : Polling env (Tx.begin db) name version workerId maxResults d) :
    LeaseRefused wire env db name version workerId maxResults ↔
      ∃ ex ∈ (polled env db name version maxResults).findSome? (leaseError d),
        statusOf wire ex = some 400 := by
  constructor
  · intro hrefused
    obtain ⟨d', ex, h', hrefused⟩ := hrefused
    rw [← h.unique h'] at hrefused
    exact ⟨ex, hrefused⟩
  · intro hrefused
    obtain ⟨ex, hrefused⟩ := hrefused
    exact ⟨d, ex, h, hrefused⟩

theorem polled_length (bounded : Bounded env) {name workerId : String} {version : Int32}
    {d : WorkflowDefinition}
    (h : Polling env (Tx.begin db) name version workerId (toSize m).toNat d) (hm : 1 ≤ m) :
    ((polled env db name version (toSize m).toNat).length : ℤ) ≤ m.toInt := by
  have hsize : (toSize m).toNat < 2 ^ 63 :=
    not_le.mp fun hlarge => bounded.room _ _ hlarge h.reserved
  have hle := toSize_le hm hsize
  have htake : (polled env db name version (toSize m).toNat).length ≤ (toSize m).toNat :=
    List.length_take_le _ _
  omega

theorem pollKept_of_stopped (bounded : Bounded env) {name workerId : String} {version : Int32}
    {maxResults : ℕ} (hroute : route req = some (do
      let steps ← pollAndClaimWorkflowSteps name version workerId maxResults
      return (200, .object [("steps", .array (steps.map WorkflowStepExecution.toJson))])))
    (named : name ≠ "" ∧ ¬ version < 1 ∧ workerId ≠ "" ∧ maxResults ≠ 0)
    (hno : ∀ d, ¬ Polling env (Tx.begin db) name version workerId maxResults d) :
    PollKept env req db n m ↔ ¬ (n < 1 ∨ m < 1) ∧ (version.toInt = n.toInt ∨
      ¬ ClaimsSome env db name version workerId maxResults) ∨
      LeaseRefused wire env db name version workerId maxResults := by
  obtain ⟨ex, ha, hstatus⟩ := @poll_stops wire _ env db bounded _ _ _ _ named hno
  have hclaims : ¬ ClaimsSome env db name version workerId maxResults := by
    intro h
    obtain ⟨d, polling, -⟩ := h
    exact hno d polling
  have hlease : ¬ LeaseRefused wire env db name version workerId maxResults := by
    intro h
    obtain ⟨d, ex, polling, -⟩ := h
    exact hno d polling
  rw [pollKept_of_throws hroute (atomic_reply_error ha), imp_iff_not hstatus, or_iff_left hlease,
    and_iff_left (.inr hclaims)]

theorem pollKept_of_polling (enc : Encoded db) (bounded : Bounded env) {name workerId : String}
    {version : Int32} {d : WorkflowDefinition} (hroute : route req = some (do
      let steps ← pollAndClaimWorkflowSteps name version workerId (toSize m).toNat
      return (200, .object [("steps", .array (steps.map WorkflowStepExecution.toJson))])))
    (polling : Polling env (Tx.begin db) name version workerId (toSize m).toNat d) :
    PollKept env req db n m ↔ ¬ (n < 1 ∨ m < 1) ∧ (version.toInt = n.toInt ∨
      ¬ ClaimsSome env db name version workerId (toSize m).toNat) ∨
      LeaseRefused wire env db name version workerId (toSize m).toNat := by
  have hloop := poll_loops enc.keyed polling
  rw [polling.claimsSome_iff, polling.leaseRefused_iff]
  cases hfirst : (polled env db name version (toSize m).toNat).findSome? (leaseError d) with
  | some ex =>
    simp only [hfirst] at hloop
    rw [pollKept_of_throws hroute (atomic_reply_error hloop), imp_iff_not_or]
    simp
  | none =>
    simp only [hfirst] at hloop
    obtain ⟨claimed, db', ha, hclaimed⟩ := hloop
    have hempty : polled env db name version (toSize m).toNat ≠ [] ↔ claimed ≠ [] := by
      rw [ne_eq, ← List.length_eq_zero_iff, hclaimed.length_eq, List.length_eq_zero_iff]
    have hlength : ¬ (n < 1 ∨ m < 1) → (claimed.length : ℤ) ≤ m.toInt := by
      intro hhigh
      rw [← hclaimed.length_eq]
      exact polled_length bounded polling (Int64.not_lt.mp (not_or.mp hhigh).2)
    have hleased : ¬ ∃ ex ∈ (none : Option Exception), statusOf wire ex = some 400 := by simp
    rw [pollKept_of_returns enc hroute ha, hempty, or_iff_left hleased]
    refine and_congr_right fun hhigh => ?_
    rw [and_iff_left (hlength hhigh), imp_iff_or_not, and_iff_left rfl]

theorem pollKept_iff (enc : Encoded db) (bounded : Bounded env) (hreq : PollRequest req o n m) :
    PollKept env req db n m ↔ PollSafe wire env db o n m := by
  refine textSafe_iff hreq.handler pollKept_of_throws fun name hroute => ?_
  refine textSafe_iff hroute pollKept_of_throws fun workerId hroute => ?_
  by_cases hnamed : (name = "" ∨ n.toInt32 < 1) ∨ workerId = "" ∨ (toSize m).toNat = 0
  · obtain ⟨what, ha⟩ := @poll_refuses _ env db _ _ _ _ hnamed
    refine iff_of_true ((pollKept_of_throws hroute (atomic_reply_error ha)).mpr fun _ => rfl) ?_
    tauto
  simp only [not_or] at hnamed
  obtain ⟨⟨hname, hversion⟩, hworker, hmax⟩ := hnamed
  rw [imp_iff_right ⟨hname, hversion, hworker, hmax⟩]
  by_cases hpolling : ∃ d, Polling env (Tx.begin db) name n.toInt32 workerId (toSize m).toNat d
  · obtain ⟨d, polling⟩ := hpolling
    exact pollKept_of_polling enc bounded hroute polling
  · exact pollKept_of_stopped bounded hroute ⟨hname, hversion, hworker, hmax⟩
      (not_exists.mp hpolling)

namespace Sample

/-- A vector has room for less than half of what a `std::size_t` counts. -/
noncomputable def capped : Environment :=
  { scripted 0 0 [] {} with
    answer := fun n q => match q with
      | .reserve m => if m < 2 ^ 63 then .ok () else .error (.other "vector")
      | q => (scripted 0 0 [] {}).answer n q }

theorem capped_bounded : Bounded capped := by
  have hcapped : ∀ t n, capped.answer t (.reserve n) =
      if n < 2 ^ 63 then .ok () else .error (.other "vector") := fun _ _ => rfl
  refine ⟨fun t n hn h => ?_, fun t n e h => ?_⟩
  · rw [hcapped, if_neg (not_lt.mpr hn)] at h
    cases h
  · rw [hcapped] at h
    split_ifs at h
    exact ⟨_, (Except.error.inj h).symm⟩

def startBody (version : Int64) : Json.Object :=
  [("workflowName", .string "order"), ("workflowVersion", .int64 version)]

def pollBody (version maxResults : Int64) : Json.Object :=
  [("workflowName", .string "order"), ("workflowVersion", .int64 version),
    ("workerId", .string "first"), ("maxResults", .int64 maxResults)]

def startRequest (wire : Wire) (body : Json.Object) : HttpRequest wire :=
  ⟨.post, "/v1/workflow-executions", wire.canonicalString (.object body)⟩

def pollRequest (wire : Wire) (version maxResults : Int64) : HttpRequest wire :=
  ⟨.post, "/v1/workflow-step-executions/poll-and-claim",
    wire.canonicalString (.object (pollBody version maxResults))⟩

end Sample

theorem sample_startRequest (wire : Wire) (h : o.get? "workflowVersion" = some (.int64 n)) :
    StartRequest (Sample.startRequest wire o) o n :=
  ⟨rfl, rfl, wire.parse_canonicalString _, h⟩

theorem sample_pollRequest (wire : Wire) (n m : Int64) :
    PollRequest (Sample.pollRequest wire n m) (Sample.pollBody n m) n m :=
  ⟨rfl, rfl, wire.parse_canonicalString _, by simp [Sample.pollBody, Json.Object.get?],
    by simp [Sample.pollBody, Json.Object.get?]⟩

/-- When the numbers of a request are taken as they were sent. -/
theorem integers_kept_iff (enc : Encoded db) (bounded : Bounded env) :
    (∀ (req : HttpRequest wire) o n, StartRequest req o n →
      (StartKept env req db n ↔ StartSafe wire db o n)) ∧
    (∀ (req : HttpRequest wire) o n m, PollRequest req o n m →
      (PollKept env req db n m ↔ PollSafe wire env db o n m)) :=
  ⟨fun _ _ _ hreq => startKept_iff hreq, fun _ _ _ _ hreq => pollKept_iff enc bounded hreq⟩

theorem integers_kept_iff_fitting :
    let db := Sample.after [Sample.register (Sample.definition false 0)]
    StartKept Sample.capped (Sample.startRequest Sample.jsonWire (Sample.startBody 1)) db 1 ∧
    StartKept Sample.capped (Sample.startRequest Sample.jsonWire
      [("workflowVersion", .int64 4294967297)]) db 4294967297 ∧
    PollKept Sample.capped (Sample.pollRequest Sample.jsonWire 1 1) db 1 1 := by
  intro db
  have reachable : Reachable Sample.store db := reachable_play (by decide +kernel)
  obtain ⟨hstart, hpoll⟩ := @integers_kept_iff Sample.jsonWire _ _ db reachable.sound.encoded
    Sample.capped_bounded
  refine ⟨?_, ?_, ?_⟩
  · refine (hstart _ _ 1 (sample_startRequest _ (by decide))).mpr ?_
    exact fun _ _ => ⟨by decide, .inl (by decide)⟩
  · refine (hstart _ _ _ (sample_startRequest _ (by decide))).mpr ?_
    exact trivial
  · refine (hpoll _ _ 1 1 (sample_pollRequest _ 1 1)).mpr ?_
    exact fun _ => .inl ⟨by decide, .inl (by decide)⟩

/-- The number 4294967297 starts an execution of version 1, and -1 for the number of results is no
argument error. -/
theorem integers_wrapped :
    let db := Sample.after [Sample.register (Sample.definition false 0)]
    let start := Sample.startRequest Sample.jsonWire (Sample.startBody 4294967297)
    let poll := Sample.pollRequest Sample.jsonWire 1 (-1)
    Reachable Sample.store db ∧ StartRequest start (Sample.startBody 4294967297) 4294967297 ∧
    PollRequest poll (Sample.pollBody 1 (-1)) 1 (-1) ∧
    (∃ row : WorkflowExecutionRow, Sample.store.get (serve Sample.capped start db).2 .executions
        (Sample.id 0) = some row ∧ row.workflowVersion = 1) ∧
    ¬ StartKept Sample.capped start db 4294967297 ∧
    status (serve Sample.capped poll db).1 = some 500 ∧ ¬ PollKept Sample.capped poll db 1 (-1) := by
  intro db start poll
  have hafter : (Sample.store.get (serve Sample.capped start db).2 .executions (Sample.id 0)).map
      WorkflowExecutionRow.workflowVersion = some 1 := by
    decide +kernel
  have hbefore : Sample.store.get db .executions (Sample.id 0) = none := by decide +kernel
  have hstatus : status (serve Sample.capped poll db).1 = some 500 := by decide +kernel
  obtain ⟨row, hrow, hone⟩ := Option.map_eq_some_iff.mp hafter
  refine ⟨reachable_play (by decide +kernel), sample_startRequest _ (by decide),
    sample_pollRequest _ _ _, ⟨row, hrow, hone⟩, ?_, hstatus, ?_⟩
  · intro h
    have hversion := h.stored (Sample.id 0) row hrow (hbefore ▸ nofun)
    have hfrom : row.fromRow.workflowVersion = row.workflowVersion.toInt32 := rfl
    rw [hfrom, hone] at hversion
    exact absurd hversion (by decide)
  · intro h
    have hrefused := (h.refused (.inr (by decide))).1
    rw [hstatus] at hrefused
    exact absurd hrefused (by decide)

end WorkflowEngine
