import WorkflowEngine.Simulation
import WorkflowEngine.Playback

/-!
# Active steps and terminal executions

In every reachable store a Running execution has exactly one active step row,
and an execution that has ended has none and is never touched again.
-/

namespace WorkflowEngine
open Txn Ledger

variable {E : Engine schema} {db db' : E.Db}

def activeSteps (E : Engine schema) (db : E.Db) (id : String) :
    Multiset WorkflowStepExecutionRow :=
  (E.rows db .steps).filter fun row : WorkflowStepExecutionRow =>
    row.workflowExecutionId = id ∧ row.fromRow.status.Active

theorem mem_activeSteps {id : String} {row : WorkflowStepExecutionRow} :
    row ∈ activeSteps E db id ↔ E.get db .steps row.key = some row ∧
      row.workflowExecutionId = id ∧ row.fromRow.status.Active := by
  rw [activeSteps, Multiset.mem_filter, E.mem_rows]
  rfl

theorem nodup_activeSteps (id : String) : (activeSteps E db id).Nodup :=
  (E.nodup_rows db .steps).filter _

theorem activeSteps_eq_zero {id : String} (h : Lifecycle (view db)) (enc : Encoded db)
    (hr : ∀ e, (view db).execution id = some e → e.status ≠ .running) :
    activeSteps E db id = 0 := by
  refine Multiset.eq_zero_of_forall_notMem fun row hrow => ?_
  obtain ⟨hget, hid, ha⟩ := mem_activeSteps.mp hrow
  have hstep := step_eq_some.mpr ⟨row, (enc.step_row hget).1, rfl⟩
  exact h.atRest hr row.fromRow.stepKey row.fromRow hid hstep ha

theorem activeSteps_eq_singleton {id : String} {e : WorkflowExecution} (h : Sound db)
    (he : (view db).execution id = some e) (hr : e.status = .running) :
    ∃ row : WorkflowStepExecutionRow, E.get db .steps e.currentKey.text = some row ∧
      activeSteps E db id = {row} ∧ row.fromRow.versionKey = e.versionKey ∧
      row.state = e.state := by
  obtain ⟨s, hs, ha⟩ := (h.lifecycle id).current_active e he hr
  obtain ⟨row, hrow, rfl, hkey⟩ := view_step.mp hs
  have hid : e.workflowExecutionId = id := (h.lifecycle id).execution_id e he
  have hown : row.key = e.currentKey.text := E.key_of_get _ _ _ _ hrow
  obtain ⟨e', he', -, hv, hst⟩ := h.lifecycle.current_of_active hs ha
  have hsame : e' = e := by
    obtain ⟨e₀, he₀, -, hk, -⟩ :=
      (h.lifecycle e.currentKey.workflowExecutionId).active_current _ _ rfl hs ha
    have hcur := he'.execution
    have hid' : e'.workflowExecutionId = id := by
      rw [← hid]
      exact (congrArg StepKey.workflowExecutionId (he'.step_key h.lifecycle)).symm.trans
        (congrArg StepKey.workflowExecutionId hkey)
    rw [hid', he] at hcur
    exact (Option.some_inj.mp hcur).symm
  subst hsame
  refine ⟨row, hrow, ?_, hv, hst⟩
  refine (Multiset.Nodup.ext (nodup_activeSteps id) (Multiset.nodup_singleton row)).mpr ?_
  intro row'
  rw [Multiset.mem_singleton, mem_activeSteps]
  constructor
  · intro h
    obtain ⟨hget', hid', ha'⟩ := h
    obtain ⟨hstep', -, htext'⟩ := h.encoded.step_row hget'
    have hcur := (h.lifecycle id).current_only he (step_eq_some.mpr ⟨row', hstep', rfl⟩) hid' ha'
    rw [htext', hcur, hrow] at hget'
    exact (Option.some_inj.mp hget').symm
  · intro h
    obtain rfl := h
    exact ⟨hown ▸ hrow, (congrArg StepKey.workflowExecutionId hkey).trans hid, ha⟩

/-- A Running execution has one active step row, its current attempt; an ended one has none. -/
theorem single_active_step (reachable : Reachable E db) {id : String}
    {execution : WorkflowExecutionRow} (found : E.get db .executions id = some execution) :
    (execution.fromRow.status = .running →
      ∃ step : WorkflowStepExecutionRow, activeSteps E db id = {step} ∧
        E.get db .steps (stepExecutionKey id execution.fromRow.currentStepName
          execution.fromRow.currentStepAttempt) = some step ∧
        step.workflowName = execution.workflowName ∧
        step.workflowVersion = execution.workflowVersion ∧
        step.state = execution.state) ∧
    (execution.fromRow.status ≠ .running → activeSteps E db id = 0) := by
  have sound := reachable.sound
  obtain ⟨he, hid, -⟩ := sound.encoded.execution found
  constructor
  · intro hr
    obtain ⟨row, hrow, hactive, hv, hst⟩ := activeSteps_eq_singleton sound he hr
    obtain ⟨e, rfl, -⟩ := sound.encoded.executions _ _ found
    obtain ⟨s, rfl, -⟩ := sound.encoded.steps _ _ hrow
    rw [WorkflowStepExecution.fromRow_toRow, WorkflowExecution.fromRow_toRow] at hv
    obtain ⟨hname, hversion⟩ := Prod.mk.inj hv
    refine ⟨_, hactive, ?_, hname, congrArg Int32.toInt64 hversion, hst⟩
    rw [← hid]
    exact hrow
  · intro hr
    refine activeSteps_eq_zero sound.lifecycle sound.encoded fun e he' => ?_
    rw [he] at he'
    obtain rfl := Option.some_inj.mp he'
    exact hr

theorem single_active_step_started : ∃ step : WorkflowStepExecutionRow,
    activeSteps Sample.store (Sample.after (Sample.begin (Sample.definition false 0)))
      (Sample.id 0) = {step} := by
  have reachable : Reachable Sample.store (Sample.after (Sample.begin (Sample.definition false 0))) :=
    reachable_play (by decide +kernel)
  have hstatus : (Sample.store.get (Sample.after (Sample.begin (Sample.definition false 0)))
      .executions (Sample.id 0)).map (fun row : WorkflowExecutionRow => row.fromRow.status) =
      some .running := by
    decide +kernel
  obtain ⟨execution, found, running⟩ := Option.map_eq_some_iff.mp hstatus
  obtain ⟨step, hstep, -⟩ := (single_active_step reachable found).1 running
  exact ⟨step, hstep⟩

namespace Ledger
variable {L L' : Ledger} {ev : Event} {id : String} {e : WorkflowExecution}

theorem Transition.running (h : Transition L ev L') (inv : Lifecycle L)
    (hid : ev.subject = some id) :
    L.execution id = none ∨ ∃ e, L.execution id = some e ∧ e.status = .running := by
  cases h with
  | register d => cases hid
  | start definition fresh unlocked running first attempt state =>
    obtain rfl := Option.some_inj.mp hid
    exact .inl fresh
  | @claim s d workerId now lease step claimable definition duration =>
    obtain rfl := Option.some_inj.mp hid
    obtain ⟨e, he, hr, -⟩ := (inv _).active_current _ _ rfl step (active_of_isClaimable claimable)
    exact .inr ⟨e, he, hr⟩
  | renew held definition duration =>
    obtain rfl := Option.some_inj.mp hid
    exact .inr ⟨_, held.execution, held.running⟩
  | finish held =>
    obtain rfl := Option.some_inj.mp hid
    exact .inr ⟨_, held.execution, held.running⟩
  | advance held definition defined =>
    obtain rfl := Option.some_inj.mp hid
    exact .inr ⟨_, held.execution, held.running⟩
  | retry failing definition found budget =>
    obtain rfl := Option.some_inj.mp hid
    exact .inr ⟨_, failing.current.execution, failing.current.running⟩
  | exhaust failing definition found spent =>
    obtain rfl := Option.some_inj.mp hid
    exact .inr ⟨_, failing.current.execution, failing.current.running⟩
  | cancel execution running =>
    obtain rfl := Option.some_inj.mp hid
    exact .inr ⟨_, execution, running⟩

theorem Transition.subject_ne (h : Transition L ev L') (inv : Lifecycle L)
    (he : L.execution id = some e) (hr : e.status ≠ .running) : ev.subject ≠ some id := by
  intro hid
  rcases h.running inv hid with hnone | ⟨e', he', hr'⟩
  · rw [he] at hnone
    cases hnone
  · rw [he] at he'
    obtain rfl := Option.some_inj.mp he'
    exact hr hr'

theorem subject_ne_of_run {evs : List Event} (h : Systems.Run Transition L evs L')
    (inv : Lifecycle L) (he : L.execution id = some e) (hr : e.status ≠ .running) :
    ∀ ev ∈ evs, ev.subject ≠ some id := by
  induction h with
  | nil => simp
  | snoc run last ih =>
    intro ev hev
    rcases List.mem_append.mp hev with hev | hev
    · exact ih ev hev
    · obtain rfl := List.mem_singleton.mp hev
      have same := frame_of_run run inv ih
      exact last.subject_ne (lifecycle_of_run run inv) (same.execution.trans he) hr

end Ledger

def Operation.target : Operation → Option String
  | .keepAliveStep id _ _ | .completeStep id _ _ _ _ | .failStep id _ _ _ | .cancelWorkflow id =>
      some id
  | _ => none

theorem Effect.target {L L' : Ledger} {now : TimePoint} {op : Operation} {r : Response}
    {evs : List Event} {id : String} (h : Effect L now op r evs L') (hid : op.target = some id) :
    ∃ ev ∈ evs, ev.subject = some id := by
  cases h with
  | keepAliveStep step => exact ⟨_, List.mem_singleton_self _, hid⟩
  | completeStep event step =>
    refine ⟨_, List.mem_singleton_self _, ?_⟩
    rcases event with rfl | ⟨next, rfl⟩ <;> exact hid
  | failStep event step =>
    refine ⟨_, List.mem_singleton_self _, ?_⟩
    rcases event with rfl | rfl <;> exact hid
  | cancelWorkflow step => exact ⟨_, List.mem_singleton_self _, hid⟩
  | _ => cases hid

theorem target_throws {c : Call} {id : String} {e : WorkflowExecution} (sound : Sound db)
    (he : (view db).execution id = some e) (hr : e.status ≠ .running)
    (hc : c.operation.target = some id) : ∃ ex, c.result db = .error ex := by
  have fresh : c.Fresh db := Call.fresh_of_not_start fun name version input hop => by
    rw [hop] at hc
    cases hc
  rcases Call.Step.cases ⟨fresh, rfl⟩ sound with ⟨r, evs, hres, heff, -⟩ | ⟨herr, -⟩
  · obtain ⟨ev, hev, hid⟩ := heff.target hc
    exact absurd hid (subject_ne_of_run heff.run sound.lifecycle he hr ev hev)
  · exact herr

theorem claims_of_poll {c : Call} {steps : List WorkflowStepExecution} (sound : Sound db)
    (hc : c.result db = .ok (.claimed steps)) :
    ∃ workerId L', Claims (view db) workerId c.now steps L' := by
  have fresh : c.Fresh db := by
    intro name version input e' _ hres
    rw [hc] at hres
    cases hres
  rcases Call.Step.cases ⟨fresh, rfl⟩ sound with ⟨r, evs, hres, heff, -⟩ | ⟨⟨ex, herr⟩, -⟩
  · rw [hc] at hres
    cases hres
    generalize hop : c.operation = op at heff
    cases heff with
    | pollAndClaimWorkflowSteps claims complete => exact ⟨_, _, claims⟩
  · rw [hc] at herr
    cases herr

theorem claimed_running {c : Call} {id : String} {e : WorkflowExecution}
    {steps : List WorkflowStepExecution} (sound : Sound db)
    (he : (view db).execution id = some e) (hr : e.status ≠ .running)
    (hc : c.result db = .ok (.claimed steps)) : ∀ s ∈ steps, s.workflowExecutionId ≠ id := by
  obtain ⟨workerId, L', claims⟩ := claims_of_poll sound hc
  intro s hs hid
  exact subject_ne_of_run claims.run sound.lifecycle he hr _ (List.mem_map.mpr ⟨s, hs, rfl⟩)
    (congrArg some hid)

/-- The rows of an ended execution stay as they are, and every request to it throws. -/
theorem terminal_execution_frozen (reachable : Reachable E db) {id : String}
    {execution : WorkflowExecutionRow} (found : E.get db .executions id = some execution)
    (ended : execution.fromRow.status ≠ .running) {calls : List Call}
    (later : Calls E db calls db') :
    E.get db' .executions id = some execution ∧
    (∀ row : WorkflowStepExecutionRow, row.workflowExecutionId = id →
      (row ∈ E.rows db' .steps ↔ row ∈ E.rows db .steps)) ∧
    (∀ c : Call, c.operation.target = some id → ∃ e, c.result db' = .error e) ∧
    (∀ (c : Call) (steps : List WorkflowStepExecution), c.result db' = .ok (.claimed steps) →
      ∀ s ∈ steps, s.workflowExecutionId ≠ id) := by
  have sound := reachable.sound
  have sound' := sound_of_calls later sound
  obtain ⟨he, -, -⟩ := sound.encoded.execution found
  obtain ⟨evs, hrun⟩ := run_of_calls later sound
  have same := frame_of_run hrun sound.lifecycle
    (subject_ne_of_run hrun sound.lifecycle he ended)
  have he' : (view db').execution id = some execution.fromRow := same.execution.trans he
  refine ⟨same.executionRow.trans found, ?_, fun c hc => target_throws sound' he' ended hc,
    fun c steps hc => claimed_running sound' he' ended hc⟩
  intro row hid
  rw [E.mem_rows, E.mem_rows]
  have hstep : ∀ {db : E.Db}, Encoded db → (E.get db .steps row.key = some row ↔
      (view db).stepRow row.fromRow.stepKey = some row ∧ row.key = row.fromRow.stepKey.text) := by
    intro db enc
    constructor
    · intro h
      obtain ⟨hs, -, ht⟩ := enc.step_row h
      exact ⟨hs, ht⟩
    · intro h
      obtain ⟨hs, ht⟩ := h
      rw [ht]
      exact (view_stepRow.mp hs).1
  have hkey : row.fromRow.stepKey.workflowExecutionId = id := hid
  refine (hstep sound'.encoded).trans (Iff.trans ?_ (hstep sound.encoded).symm)
  rw [same.stepRow _ hkey]

theorem terminal_execution_frozen_canceled :
    let calls := Sample.begin (Sample.definition false 0)
    let canceled := calls ++ [Sample.cancel 2000000 (Sample.script 0 "ship" calls)]
    ∃ e, (Sample.complete 4000000 "worker" {}).result
      (play Sample.store (Sample.after canceled) [Sample.poll 3000000 "worker" []]) = .error e := by
  intro calls canceled
  have reachable : Reachable Sample.store (Sample.after canceled) :=
    reachable_play (by decide +kernel)
  have hstatus : (Sample.store.get (Sample.after canceled) .executions (Sample.id 0)).map
      (fun row : WorkflowExecutionRow => row.fromRow.status) = some .canceled := by
    decide +kernel
  obtain ⟨execution, found, hcanceled⟩ := Option.map_eq_some_iff.mp hstatus
  have ended : execution.fromRow.status ≠ .running := by
    rw [hcanceled]
    decide
  exact (terminal_execution_frozen reachable found ended (calls_play (by decide +kernel))).2.2.1
    (Sample.complete 4000000 "worker" {}) rfl

end WorkflowEngine
