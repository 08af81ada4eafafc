import WorkflowEngine.Attempts
import WorkflowEngine.DataThreading
import WorkflowEngine.Sweeping
import WorkflowEngine.Txn.Success

/-!
# When a worker's request is accepted

A worker may renew, complete or fail the current attempt of a running
execution as long as it holds it. What else its request needs is a matter of
the registered definition and, for a completion, of the decision that the
workflow's logic takes.
-/

namespace WorkflowEngine
open Txn Txn.Program Orchestrator Ledger

theorem WorkflowDefinition.lease_ok {d : WorkflowDefinition} {name : String} {lease : Seconds}
    (h : d.lease name = .ok lease) :
    ∃ step, findStepDefinition d name = .ok step ∧ leaseDurationForStep step = .ok lease := by
  rw [WorkflowDefinition.lease] at h
  cases hf : findStepDefinition d name with
  | error ex =>
    rw [hf] at h
    cases h
  | ok step =>
    rw [hf] at h
    exact ⟨step, rfl, h⟩

def WorkflowExecution.completionContext (e : WorkflowExecution) (output : Json) :
    StepCompletionContext where
  workflowName := e.workflowName
  workflowVersion := e.workflowVersion
  workflowExecutionId := e.workflowExecutionId
  completedStepName := e.currentStepName
  input := e.input
  state := e.state
  stepOutput := output

theorem findStepDefinition_ok_iff {d : WorkflowDefinition} {name : String} :
    (∃ step, findStepDefinition d name = .ok step) ↔ stepDefinitionExists d name = true := by
  have h : Undefined d name ↔ ¬ stepDefinitionExists d name = true := undefined_iff
  unfold Undefined at h
  cases hf : findStepDefinition d name with
  | error ex =>
    have hnot := h.mp ⟨ex, hf⟩
    simp [hnot]
  | ok step =>
    rw [hf] at h
    simpa using h

namespace Orchestrator

variable {E : Engine schema} {env : Environment} {tx : Tx E} {id name workerId : String}

/-- A worker's request that passes every check the three requests have in common. -/
structure Requesting (env : Environment) (tx : Tx E) (id name workerId : String)
    (e : WorkflowExecution) (s : WorkflowStepExecution) (d : WorkflowDefinition) : Prop where
  named : id ≠ "" ∧ name ≠ "" ∧ workerId ≠ ""
  execution : ∃ row, E.get tx.view .executions id = some row ∧ row.fromRow = e
  running : e.status = .running
  current : e.currentStepName = name
  step : ∃ row, E.get tx.view .steps (stepExecutionKey id name e.currentStepAttempt) = some row ∧
    row.fromRow = s
  owned : Owned s workerId (env.answer tx.ticks .clock)
  definition : ∃ row, E.get tx.view .definitions
    (definitionKey e.workflowName e.workflowVersion) = some row ∧ row.fromRow = d

theorem keepAliveStep_succeeds : Succeeds env (keepAliveStep id name workerId) tx ↔
    ∃ e s d, Requesting env tx id name workerId e s d ∧ ∃ lease, d.lease name = .ok lease := by
  simp only [keepAliveStep, validateExecutionId, validateStepName, validateWorkerId, succeeds_bind,
    returns_throwIf, returns_getCurrentExecution, returns_getDefinitionOf, returns_getClaimedStep,
    returns_lift, returns_nowForStorage, returns_putStep]
  constructor
  · intro h
    obtain ⟨-, _, ⟨hid, rfl⟩, -, _, ⟨hname, rfl⟩, -, _, ⟨hworker, rfl⟩, e, _,
      ⟨he, hrun, hcur, rfl⟩, d, _, ⟨hd, rfl⟩, s, _, ⟨hs, hown, rfl⟩, step, _, ⟨hstep, rfl⟩, _, _,
      ⟨-, rfl⟩, lease, _, ⟨hlease, rfl⟩, -⟩ := h
    simp only [Tx.noteKey_view, Tx.noteKey_ticks] at hs hown hd
    exact ⟨e, s, d, ⟨⟨hid, hname, hworker⟩, he, hrun, hcur, hs, hown, hd⟩, lease,
      WorkflowDefinition.lease_eq hstep hlease⟩
  · intro h
    obtain ⟨e, s, d, ⟨⟨hid, hname, hworker⟩, he, hrun, hcur, hs, hown, hd⟩, lease, hlease⟩ := h
    obtain ⟨step, hstep, hlease⟩ := WorkflowDefinition.lease_ok hlease
    refine ⟨(), _, ⟨hid, rfl⟩, (), _, ⟨hname, rfl⟩, (), _, ⟨hworker, rfl⟩, e, _,
      ⟨he, hrun, hcur, rfl⟩, d, _, ⟨?_, rfl⟩, s, _, ⟨?_, ?_, rfl⟩, step, _, ⟨hstep, rfl⟩, _, _,
      ⟨rfl, rfl⟩, lease, _, ⟨hlease, rfl⟩, (), _, rfl, (total_pure _).succeeds⟩
    · rwa [Tx.noteKey_view]
    · simpa only [Tx.noteKey_view] using hs
    · simpa only [Tx.noteKey_ticks] using hown

theorem failStep_succeeds {reason : String} :
    Succeeds env (failStep id name workerId reason) tx ↔
      ∃ e s d, Requesting env tx id name workerId e s d ∧ stepDefinitionExists d name = true := by
  simp only [failStep, validateExecutionId, validateStepName, validateWorkerId, succeeds_bind,
    returns_throwIf, returns_getCurrentExecution, returns_getDefinitionOf, returns_getClaimedStep,
    returns_lift, returns_nowForStorage, returns_putStep]
  constructor
  · intro h
    obtain ⟨-, _, ⟨hid, rfl⟩, -, _, ⟨hname, rfl⟩, -, _, ⟨hworker, rfl⟩, e, _,
      ⟨he, hrun, hcur, rfl⟩, s, _, ⟨hs, hown, rfl⟩, d, _, ⟨hd, rfl⟩, step, _, ⟨hstep, rfl⟩, -⟩ := h
    simp only [Tx.noteKey_view, Tx.tick_view, Tx.noteKey_ticks] at hs hown hd
    exact ⟨e, s, d, ⟨⟨hid, hname, hworker⟩, he, hrun, hcur, hs, hown, hd⟩,
      findStepDefinition_ok_iff.mp ⟨step, hstep⟩⟩
  · intro h
    obtain ⟨e, s, d, ⟨⟨hid, hname, hworker⟩, he, hrun, hcur, hs, hown, hd⟩, hexists⟩ := h
    obtain ⟨step, hstep⟩ := findStepDefinition_ok_iff.mpr hexists
    refine ⟨(), _, ⟨hid, rfl⟩, (), _, ⟨hname, rfl⟩, (), _, ⟨hworker, rfl⟩, e, _,
      ⟨he, hrun, hcur, rfl⟩, s, _, ⟨?_, ?_, rfl⟩, d, _, ⟨?_, rfl⟩, step, _, ⟨hstep, rfl⟩, _, _,
      ⟨rfl, rfl⟩, (), _, rfl, ?_⟩
    · rwa [Tx.noteKey_view]
    · rwa [Tx.noteKey_ticks]
    · simpa only [Tx.noteKey_view, Tx.tick_view] using hd
    · refine Total.succeeds ?_
      split_ifs
      · exact (total_putExecution _).bind fun _ => (total_makeStepExecution _ _ _ _ _).bind fun _ =>
          (total_putStep _).bind fun _ => total_pure _
      · exact (total_demand _).bind fun _ => (total_putExecution _).bind fun _ => total_pure _

theorem succeeds_settle {d : WorkflowDefinition} {e : WorkflowExecution} {p : Op WorkflowExecution}
    {decision : NextStepDecision} {delay : Option Seconds} (hp : Total p) :
    Succeeds env (if decision.workflowComplete = true then p else advance d e decision delay) tx ↔
      Routed d decision := by
  rw [succeeds_iff_not_fails, fails_settle hp, not_not]

theorem completeStep_succeeds {output : Json} {delay : Option Seconds} :
    Succeeds env (completeStep id name workerId output delay) tx ↔
      ∃ e s d, Requesting env tx id name workerId e s d ∧ (∀ seconds ∈ delay, 0 < seconds) ∧
        ∃ decision, env.answer (tx.ticks + 1) (.decideNextStep (e.completionContext output)) =
          .ok decision ∧ Routed d decision := by
  simp only [completeStep, validateExecutionId, validateStepName, validateWorkerId, succeeds_bind,
    returns_throwIf, returns_getCurrentExecution, returns_getDefinitionOf, returns_getClaimedStep,
    returns_decideNextStep, returns_nowForStorage, returns_putStep]
  constructor
  · intro h
    obtain ⟨-, _, ⟨hid, rfl⟩, -, _, ⟨hname, rfl⟩, -, _, ⟨hworker, rfl⟩, -, _, ⟨hdelay, rfl⟩, e, _,
      ⟨he, hrun, rfl, rfl⟩, s, _, ⟨hs, hown, rfl⟩, d, _, ⟨hd, rfl⟩, decision, _, ⟨hdec, rfl⟩, _, _,
      ⟨-, rfl⟩, -, _, rfl, h⟩ := h
    simp only [Tx.noteKey_view, Tx.noteKey_ticks, Tx.tick_view, Tx.tick_ticks] at hs hown hd hdec
    rw [succeeds_settle] at h
    · exact ⟨e, s, d, ⟨⟨hid, hname, hworker⟩, he, hrun, rfl, hs, hown, hd⟩,
        fun seconds hseconds => not_le.mp fun hle => hdelay ⟨seconds, hseconds, hle⟩, decision, hdec,
        h⟩
    · exact (total_demand _).bind fun _ => (total_putExecution _).bind fun _ => total_pure _
  · intro h
    obtain ⟨e, s, d, ⟨⟨hid, hname, hworker⟩, he, hrun, rfl, hs, hown, hd⟩, hdelay, decision, hdec,
      hrouted⟩ := h
    refine ⟨(), _, ⟨hid, rfl⟩, (), _, ⟨hname, rfl⟩, (), _, ⟨hworker, rfl⟩, (), _, ⟨?_, rfl⟩, e, _,
      ⟨he, hrun, rfl, rfl⟩, s, _, ⟨?_, ?_, rfl⟩, d, _, ⟨?_, rfl⟩, decision, _, ⟨?_, rfl⟩, _, _,
      ⟨rfl, rfl⟩, (), _, rfl, ?_⟩
    · intro h
      obtain ⟨seconds, hseconds, hle⟩ := h
      exact absurd hle (not_le.mpr (hdelay seconds hseconds))
    · rwa [Tx.noteKey_view]
    · rwa [Tx.noteKey_ticks]
    · simpa only [Tx.noteKey_view, Tx.tick_view] using hd
    · rw [Tx.noteKey_ticks, Tx.tick_ticks, Tx.noteKey_ticks, Tx.noteKey_ticks]
      exact hdec
    · rw [succeeds_settle]
      · exact hrouted
      · exact (total_demand _).bind fun _ => (total_putExecution _).bind fun _ => total_pure _

theorem cancelWorkflow_succeeds : Succeeds env (cancelWorkflow id) tx ↔
    id ≠ "" ∧ ∃ row : WorkflowExecutionRow, E.get tx.view .executions id = some row ∧
      row.fromRow.status = .running := by
  simp only [cancelWorkflow, validateExecutionId, succeeds_bind, returns_throwIf,
    returns_getExecution, returns_orThrow, returns_nowForStorage, returns_querySteps, not_not]
  constructor
  · intro h
    obtain ⟨-, _, ⟨hid, rfl⟩, _, _, ⟨rfl, rfl⟩, row, _, ⟨hrow, rfl⟩, -, _, ⟨hrunning, rfl⟩, -⟩ := h
    exact ⟨hid, row, hrow, hrunning⟩
  · intro h
    obtain ⟨hid, row, hrow, hrunning⟩ := h
    refine ⟨(), _, ⟨hid, rfl⟩, _, _, ⟨rfl, rfl⟩, row, _, ⟨hrow, rfl⟩, (), _, ⟨hrunning, rfl⟩, _, _,
      ⟨rfl, rfl⟩, _, _, ⟨rfl, rfl⟩, ?_⟩
    simp only [← succeeds_bind]
    refine Total.succeeds ?_
    exact (total_cancelSteps _ _).bind fun _ => (total_putExecution _).bind fun _ => total_pure _

end Orchestrator

namespace Ledger

variable {L L' : Ledger} {ev : Event} {e e' : WorkflowExecution} {s : WorkflowStepExecution}

theorem known_of_setExecution {id : String} {found : WorkflowExecution}
    (h : (L'.setExecution e').execution id = some found) (he : L'.execution = L.execution)
    (hid : L.execution e'.workflowExecutionId = some e) : ∃ g, L.execution id = some g := by
  rw [setExecution_execution, he] at h
  split_ifs at h with heq
  · exact ⟨e, heq ▸ hid⟩
  · exact ⟨found, h⟩

theorem Transition.known {id : String} (h : Transition L ev L') (he : L'.execution id = some e) :
    (∃ g, L.execution id = some g) ∨ ∃ started b, ev = .started started b ∧
      started.workflowExecutionId = id := by
  cases h with
  | register d => exact .inl ⟨e, he⟩
  | @start d started createdAt =>
    rw [setStep_execution, setExecution_execution] at he
    split_ifs at he with hid
    · exact .inr ⟨started, _, rfl, hid.symm⟩
    · rw [execution, takeLock_executionRow] at he
      exact .inl ⟨e, he⟩
  | claim => exact .inl ⟨e, he⟩
  | renew => exact .inl ⟨e, he⟩
  | finish held => exact .inl (known_of_setExecution he rfl held.execution)
  | advance held => exact .inl (known_of_setExecution he rfl held.execution)
  | retry failing => exact .inl (known_of_setExecution he rfl failing.current.execution)
  | exhaust failing => exact .inl (known_of_setExecution he rfl failing.current.execution)
  | cancel execution => exact .inl (known_of_setExecution he rfl execution)

theorem known_of_run {id : String} {evs : List Event} (h : Systems.Run Transition L evs L')
    (he : L'.execution id = some e) : (∃ g, L.execution id = some g) ∨
      ∃ started b, Event.started started b ∈ evs ∧ started.workflowExecutionId = id := by
  induction h generalizing e with
  | nil => exact .inl ⟨e, he⟩
  | snoc run last ih =>
    rcases last.known he with ⟨g, hg⟩ | ⟨started, b, rfl, hid⟩
    · rcases ih hg with hknown | ⟨started, b, hmem, hid⟩
      · exact .inl hknown
      · exact .inr ⟨started, b, List.mem_append_left _ hmem, hid⟩
    · exact .inr ⟨started, b, List.mem_append_right _ (List.mem_singleton_self _), hid⟩

end Ledger

variable {E : Engine schema} {db db' : E.Db} {id name workerId : String}

theorem generated_ne_empty {env : Environment} {tx tx' : Tx E}
    (h : Returns env generateExecutionId tx id tx') : id ≠ "" := by
  simp only [generateExecutionId, draw, returns_bind, returns_demand, returns_pure] at h
  obtain ⟨_, _, ⟨-, rfl⟩, _, _, ⟨-, rfl⟩, _, _, ⟨-, rfl⟩, _, _, ⟨-, rfl⟩, _, _, ⟨-, rfl⟩, _, _,
    ⟨-, rfl⟩, rfl, rfl⟩ := h
  intro hempty
  have hlist := congrArg String.toList hempty
  simp [formatExecutionId] at hlist

def Identified (db : E.Db) : Prop := ∀ id e, (view db).execution id = some e → id ≠ ""

theorem Call.Step.identified {c : Call} (call : Call.Step db c db') (sound : Sound db)
    (h : Identified db) : Identified db' := by
  intro id e he
  rcases call.cases sound with ⟨r, evs, hr, heff, -⟩ | ⟨-, rfl⟩
  · rcases known_of_run heff.run he with ⟨g, hg⟩ | ⟨started, b, hmem, rfl⟩
    · exact h id g hg
    · obtain ⟨hop, rfl, -⟩ := heff.started hmem
      obtain ⟨tx, hret, -⟩ := Call.result_ok hr
      rw [hop] at hret
      simp only [Operation.program, returns_bind, returns_pure, Response.execution.injEq] at hret
      obtain ⟨_, _, hret, rfl, rfl⟩ := hret
      obtain ⟨_, id, _, _, -, hid, he, -⟩ := startWorkflow_cases hret
      rw [he]
      exact generated_ne_empty hid
  · exact h id e he

theorem Reachable.identified (reachable : Reachable E db) : Identified db := by
  obtain ⟨calls, run⟩ := reachable
  have hempty : Identified (E := E) E.empty := by
    intro id e he
    rw [view_empty] at he
    cases he
  exact (run.invariant (I := fun db => Sound db ∧ Identified db)
    (fun _ _ _ inv call => ⟨call.sound inv.1, call.identified inv.1 inv.2⟩) ⟨sound_empty, hempty⟩).2

theorem requesting_iff (sound : Sound db) {env : Environment} {e : WorkflowExecution}
    {s : WorkflowStepExecution} {d : WorkflowDefinition} :
    Requesting env (Tx.begin db) id name workerId e s d ↔
      (id ≠ "" ∧ name ≠ "" ∧ workerId ≠ "") ∧ (view db).Held e s workerId (env.answer 0 .clock) ∧
        e.workflowExecutionId = id ∧ e.currentStepName = name ∧
        (view db).definition e.versionKey = some d := by
  constructor
  · intro h
    obtain ⟨row, hrow, rfl⟩ := h.execution
    obtain ⟨step, hstep, rfl⟩ := h.step
    obtain ⟨definition, hdefinition, rfl⟩ := h.definition
    obtain ⟨hexec, hid, hplain⟩ := sound.encoded.execution hrow
    have hname := h.current
    obtain ⟨hs, -⟩ := sound.encoded.step (k := ⟨id, name, row.fromRow.currentStepAttempt⟩) hplain hstep
    have hkey : row.fromRow.currentKey = ⟨id, name, row.fromRow.currentStepAttempt⟩ := by
      rw [WorkflowExecution.currentKey, hid, hname]
    exact ⟨h.named, ⟨⟨hid ▸ hexec, h.running, hkey ▸ hs⟩, h.owned⟩, hid, hname,
      Encoded.definition (k := row.fromRow.versionKey) hdefinition⟩
  · intro h
    obtain ⟨named, held, rfl, rfl, hdefinition⟩ := h
    obtain ⟨row, hrow, he⟩ := view_execution.mp held.execution
    obtain ⟨step, hstep, hs, -⟩ := view_step.mp held.step
    obtain ⟨definition, hdef, hd⟩ := Option.map_eq_some_iff.mp hdefinition
    exact ⟨named, ⟨row, hrow, he⟩, held.running, rfl, ⟨step, hstep, hs⟩,
      held.toOwned, ⟨definition, hdef, hd⟩⟩

/-- What a worker's request asks of the definition and of the logic, beside the claim. -/
def Operation.Fits (env : Environment) (e : WorkflowExecution) (d : WorkflowDefinition) :
    Operation → Prop
  | .keepAliveStep _ name _ => ∃ lease, d.lease name = .ok lease
  | .completeStep _ _ _ output delay => (∀ seconds ∈ delay, 0 < seconds) ∧ ∃ decision,
      env.answer 1 (.decideNextStep (e.completionContext output)) = .ok decision ∧ Routed d decision
  | .failStep _ name _ _ => stepDefinitionExists d name = true
  | _ => False

theorem Call.result_isOk {c : Call} :
    (∃ r, c.result db = .ok r) ↔ Succeeds c.env c.operation.program (Tx.begin db) :=
  atomic_isOk

theorem request_succeeds {c : Call} (hc : c.operation.request = some (id, name, workerId)) :
    (∃ r, c.result db = .ok r) ↔ ∃ e s d, Requesting c.env (Tx.begin db) id name workerId e s d ∧
      c.operation.Fits c.env e d := by
  rw [Call.result_isOk]
  obtain ⟨op, env⟩ := c
  cases op with
  | keepAliveStep =>
    cases hc
    exact (succeeds_bind_total fun _ => total_pure _).trans keepAliveStep_succeeds
  | completeStep =>
    cases hc
    exact (succeeds_bind_total fun _ => total_pure _).trans completeStep_succeeds
  | failStep =>
    cases hc
    exact (succeeds_bind_total fun _ => total_pure _).trans failStep_succeeds
  | _ => cases hc

theorem request_accepted_iff (sound : Sound db) {c : Call}
    (hc : c.operation.request = some (id, name, workerId)) :
    (∃ r, c.result db = .ok r) ↔ (id ≠ "" ∧ name ≠ "" ∧ workerId ≠ "") ∧
      ∃ e s d, (view db).Held e s workerId c.now ∧ e.workflowExecutionId = id ∧
        e.currentStepName = name ∧ (view db).definition e.versionKey = some d ∧
        c.operation.Fits c.env e d := by
  simp only [request_succeeds hc, requesting_iff sound, Call.now, Call.reading]
  constructor
  · intro h
    obtain ⟨e, s, d, ⟨named, held, hid, hname, hd⟩, fits⟩ := h
    exact ⟨named, e, s, d, held, hid, hname, hd, fits⟩
  · intro h
    obtain ⟨named, e, s, d, held, hid, hname, hd, fits⟩ := h
    exact ⟨e, s, d, ⟨named, held, hid, hname, hd⟩, fits⟩

end WorkflowEngine
