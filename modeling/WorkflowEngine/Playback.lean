import WorkflowEngine.Operations

/-!
# Runs that can be played

A list of calls played from a store is a run as soon as its starts are fresh,
which can be computed. `scripted` is an environment with a stopped clock and
given answers; the rows of a query arrive in the order of the script.
-/

namespace WorkflowEngine
open Txn

variable {E : Engine schema}

def play (E : Engine schema) (db : E.Db) (calls : List Call) : E.Db :=
  calls.foldl (fun db c => c.after db) db

def startedId : Except Exception Response → Option String
  | .ok (.execution e) => some e.workflowExecutionId
  | _ => none

theorem execution_of_startedId {result : Except Exception Response} {id : String}
    (h : startedId result = some id) :
    ∃ e, result = .ok (.execution e) ∧ e.workflowExecutionId = id := by
  unfold startedId at h
  split at h
  · exact ⟨_, rfl, Option.some_inj.mp h⟩
  · cases h

def Call.isFresh (c : Call) (db : E.Db) : Bool :=
  match c.operation with
  | .startWorkflow _ _ _ => (startedId (c.result db)).all fun id => (E.get db .executions id).isNone
  | _ => true

def allFresh (E : Engine schema) : E.Db → List Call → Bool
  | _, [] => true
  | db, c :: calls => c.isFresh db && allFresh E (c.after db) calls

theorem Call.fresh_of_isFresh {c : Call} {db : E.Db} (h : c.isFresh db = true) : c.Fresh db := by
  intro name version input e hop hr
  simp only [isFresh, hop, hr, startedId, Option.all_some, Option.isNone_iff_eq_none] at h
  exact h

theorem Call.fresh_of_not_start {c : Call} {db : E.Db}
    (h : ∀ name version input, c.operation ≠ .startWorkflow name version input) : c.Fresh db :=
  fun name version input _ hop _ => absurd hop (h name version input)

theorem calls_play {db : E.Db} {calls : List Call} (h : allFresh E db calls = true) :
    Calls E db calls (play E db calls) := by
  induction calls generalizing db with
  | nil => exact .nil
  | cons c calls ih =>
    simp only [allFresh, Bool.and_eq_true] at h
    have hstep : Call.Step db c (c.after db) := ⟨Call.fresh_of_isFresh h.1, rfl⟩
    exact Systems.Run.cons hstep (ih h.2)

theorem reachable_play {calls : List Call} (h : allFresh E E.empty calls = true) :
    Reachable E (play E E.empty calls) := ⟨calls, calls_play h⟩

def record (E : Engine schema) : E.Db → List Call → List Entry
  | _, [] => []
  | db, c :: calls => ⟨c, c.result db⟩ :: record E (c.after db) calls

theorem history_record {db : E.Db} {calls : List Call} (h : allFresh E db calls = true) :
    History E db (record E db calls) (play E db calls) := by
  induction calls generalizing db with
  | nil => exact .nil
  | cons c calls ih =>
    simp only [allFresh, Bool.and_eq_true] at h
    have hstep : Entry.Step db ⟨c, c.result db⟩ (c.after db) :=
      ⟨⟨Call.fresh_of_isFresh h.1, rfl⟩, rfl⟩
    exact Systems.Run.cons hstep (ih h.2)

theorem record_calls {db : E.Db} {calls : List Call} :
    (record E db calls).map Entry.call = calls := by
  induction calls generalizing db with
  | nil => rfl
  | cons c calls ih => exact congrArg (c :: ·) ih

theorem call_mem_of_record {db : E.Db} {calls : List Call} {x : Entry}
    (hx : x ∈ record E db calls) : x.call ∈ calls := by
  have hmem := List.mem_map_of_mem (f := Entry.call) hx
  rwa [record_calls] at hmem

theorem ClockFrom.stopped {t now : TimePoint} {c : Call} {calls : List Call}
    (hc : ∀ n, c.reading n = now) (ht : t ≤ now) (rest : ClockFrom now calls) :
    ClockFrom t (c :: calls) := by
  refine ⟨⟨ht.trans (hc 0).ge, ?_⟩, now, fun n => (hc n).le, rest⟩
  intro n m _
  rw [hc n, hc m]

theorem Call.returns {c : Call} {db : E.Db} (h : (c.result db).isOk = true) :
    ∃ r, c.result db = .ok r := by
  cases hr : c.result db with
  | ok r => exact ⟨r, rfl⟩
  | error e =>
    rw [hr] at h
    cases h

/-- Rows in the order of the script, if the script has them all. -/
noncomputable def arrangeBy {α : Type} [DecidableEq α] (script : List α) (rows : Multiset α) :
    List α :=
  if (script.filter (· ∈ rows) : Multiset α) = rows then script.filter (· ∈ rows) else rows.toList

theorem arrangeBy_coe {α : Type} [DecidableEq α] (script : List α) (rows : Multiset α) :
    (arrangeBy script rows : Multiset α) = rows := by
  unfold arrangeBy
  split_ifs with h
  · exact h
  · exact Multiset.coe_toList rows

noncomputable def scripted (now : TimePoint) (seed : UInt32)
    (script : List WorkflowStepExecutionRow) (decision : NextStepDecision) : Environment where
  answer _ q := match q with
    | .clock => now
    | .draw => seed
    | .reserve _ => .ok ()
    | .decideNextStep _ => .ok decision
  arrange t _ rows := match t, rows with
    | .definitions, rows => rows.toList
    | .executions, rows => rows.toList
    | .singletonLocks, rows => rows.toList
    | .steps, rows => arrangeBy script rows
  arrange_coe t _ rows := by
    cases t with
    | steps => exact arrangeBy_coe script rows
    | _ => exact Multiset.coe_toList rows

namespace Sample

abbrev store : Engine schema := Engine.finmap schema

def id (seed : UInt32) : String :=
  Orchestrator.formatExecutionId seed (seed &&& 0xFFFF) ((seed &&& 0x0FFF) ||| 0x4000)
    ((seed &&& 0x3FFF) ||| 0x8000) seed (seed &&& 0xFFFF)

def definition (singleton : Bool) (maxRetries : Int32) : WorkflowDefinition where
  workflowName := "order"
  workflowVersion := 1
  startWorkflowStepName := "ship"
  expectedExecutionTime := "PT1H"
  singleton := singleton
  steps := [{ name := "ship", expectedExecutionTime := some "PT30S", maxRetries := some maxRetries }]

noncomputable def register (d : WorkflowDefinition) : Call :=
  ⟨.registerWorkflowDefinition d, scripted 0 0 [] {}⟩

noncomputable def start (now : TimePoint) (seed : UInt32) : Call :=
  ⟨.startWorkflow "order" 1 .null, scripted now seed [] {}⟩

noncomputable def begin (d : WorkflowDefinition) : List Call := [register d, start 1000000 0]

noncomputable def after (calls : List Call) : store.Db := play store store.empty calls

/-- The rows of the attempts at a step, for a later call to find in this order. -/
noncomputable def script (seed : UInt32) (stepName : String) (calls : List Call) :
    List WorkflowStepExecutionRow :=
  [0, 1].filterMap fun attempt =>
    store.get (after calls) .steps (stepExecutionKey (id seed) stepName attempt)

noncomputable def poll (now : TimePoint) (workerId : String) (rows : List WorkflowStepExecutionRow) :
    Call :=
  ⟨.pollAndClaimWorkflowSteps "order" 1 workerId 1, scripted now 0 rows {}⟩

noncomputable def complete (now : TimePoint) (workerId : String) (decision : NextStepDecision) : Call :=
  ⟨.completeStep (id 0) "ship" workerId .null none, scripted now 0 [] decision⟩

noncomputable def cancel (now : TimePoint) (rows : List WorkflowStepExecutionRow) : Call :=
  ⟨.cancelWorkflow (id 0), scripted now 0 rows {}⟩

noncomputable def sweep (now : TimePoint) (rows : List WorkflowStepExecutionRow) : Call :=
  ⟨.sweepExpiredLeases, scripted now 0 rows {}⟩

noncomputable def reflagged : List Call :=
  begin (definition false 0) ++ [register (definition true 0)]

noncomputable def lapse : List Call :=
  let calls := begin (definition false 1)
  let claimed := calls ++ [poll 2000000 "first" (script 0 "ship" calls)]
  let swept := claimed ++ [sweep 20000000000 (script 0 "ship" claimed)]
  swept ++ [poll 21000000000 "first" (script 0 "ship" swept)]

/-- What follows the start of the order. -/
theorem calls_lapse :
    Calls store (after (begin (definition false 1))) (lapse.drop 2) (after lapse) := by
  have hplay : ∀ db : store.Db, Calls store db (lapse.drop 2) (play store db (lapse.drop 2)) :=
    fun db => calls_play rfl
  have hlapse : lapse = begin (definition false 1) ++ lapse.drop 2 := rfl
  have hafter : after lapse = play store (after (begin (definition false 1))) (lapse.drop 2) :=
    (congrArg after hlapse).trans List.foldl_append
  rw [hafter]
  exact hplay _

end Sample

end WorkflowEngine
