import WorkflowEngine.Service
import WorkflowEngine.Txn.Effects

/-!
# Requests and operations

What a request asks of the orchestrator. Answering it is performing that
operation, and a request that asks for no operation leaves the store as it is.
-/

namespace WorkflowEngine
open Txn Txn.Program WorkflowJson

def Transport.Request.operation : Transport.Request → Option Operation
  | .validateWorkflowDefinition _ => none
  | .registerWorkflowDefinition definitionJson =>
    (parseWorkflowDefinition definitionJson).toOption.map .registerWorkflowDefinition
  | .listWorkflowDefinitions => none
  | .startWorkflowExecution workflowName workflowVersion input =>
    some (.startWorkflow workflowName workflowVersion input)
  | .getWorkflowExecution _ => none
  | .cancelWorkflow workflowExecutionId => some (.cancelWorkflow workflowExecutionId)
  | .pollAndClaimWorkflowSteps workflowName workflowVersion workerId maxResults =>
    some (.pollAndClaimWorkflowSteps workflowName workflowVersion workerId maxResults.toNat)
  | .keepAliveWorkflowStep workflowExecutionId stepName workerId =>
    some (.keepAliveStep workflowExecutionId stepName workerId)
  | .completeWorkflowStep workflowExecutionId stepName workerId stepOutput nextStepDelay =>
    some (.completeStep workflowExecutionId stepName workerId stepOutput
      (nextStepDelay.map Int64.toInt))
  | .failWorkflowStep workflowExecutionId stepName workerId reason =>
    some (.failStep workflowExecutionId stepName workerId reason)

/-- The response that carries what an operation returned. A sweep has none. -/
def Response.reply : Response → Option Transport.Response
  | .definition d => some (.definition d)
  | .execution e => some (.execution e)
  | .claimed steps => some (.steps steps)
  | .step s => some (.step s)
  | .swept _ => none

variable {E : Engine schema} {request : Transport.Request} {op : Operation}

theorem replies {α : Type} {p : Op α} {f : α → Transport.Response} {g : α → Response}
    (hfg : ∀ a, (g a).reply = some (f a)) (env : Environment) (db : E.Db) :
    (atomic env (p >>= fun a => pure (f a)) db).1.map some =
        (atomic env (p >>= fun a => pure (g a)) db).1.map Response.reply ∧
      (atomic env (p >>= fun a => pure (f a)) db).2 =
        (atomic env (p >>= fun a => pure (g a)) db).2 := by
  rw [atomic_bind_pure, atomic_bind_pure]
  refine ⟨?_, rfl⟩
  cases (atomic env p db).1 with
  | error e => rfl
  | ok a => exact congrArg Except.ok (hfg a).symm

theorem call_performs (h : request.operation = some op) (env : Environment) (db : E.Db) :
    (atomic env (InProcessTransport.call request) db).1.map some =
        ((⟨op, env⟩ : Call).result db).map Response.reply ∧
      (atomic env (InProcessTransport.call request) db).2 = (⟨op, env⟩ : Call).after db := by
  cases request with
  | registerWorkflowDefinition definitionJson =>
    obtain ⟨d, hd, rfl⟩ := Option.map_eq_some_iff.mp h
    have hparse : parseWorkflowDefinition definitionJson = .ok d := by
      cases hp : parseWorkflowDefinition definitionJson with
      | error e => rw [hp] at hd; cases hd
      | ok d' => rw [hp] at hd; exact congrArg Except.ok (Option.some_inj.mp hd)
    simp only [InProcessTransport.call, WorkflowService.registerWorkflowDefinition, hparse]
    exact replies (fun _ => rfl) env db
  | validateWorkflowDefinition | listWorkflowDefinitions | getWorkflowExecution => cases h
  | _ =>
    obtain rfl := Option.some_inj.mp h
    exact replies (fun _ => rfl) env db

end WorkflowEngine
