import WorkflowEngine.Loops

/-!
# Calls and runs on the ledger

A call that returns has the effect of its operation on the ledger, a call that
throws has none, and a run of calls is a run of transitions. Every reachable
store therefore holds a ledger with one active attempt for each Running
execution.
-/

namespace WorkflowEngine
open Txn Txn.Program Ledger

variable {E : Engine schema} {db db' : E.Db} {L L' : Ledger}

/-- What an operation that returned did, by the clock reading it decided by. -/
inductive Effect (L : Ledger) (now : TimePoint) :
    Operation → Response → List Event → Ledger → Prop
  | registerWorkflowDefinition (definition : WorkflowDefinition) :
      Effect L now (.registerWorkflowDefinition definition) (.definition definition)
        [.registered definition] (L.setDefinition definition)
  | startWorkflow {name : String} {version : Int32} {input : Json} {e : WorkflowExecution}
      {d : WorkflowDefinition} {L' : Ledger} (key : e.versionKey = (name, version))
      (given : e.input = input) (definition : L.definition (name, version) = some d)
      (step : Transition L (.started e d.singleton) L') :
      Effect L now (.startWorkflow name version input) (.execution e) [.started e d.singleton] L'
  | pollAndClaimWorkflowSteps {name : String} {version : Int32} {workerId : String}
      {maxResults : ℕ} {steps : List WorkflowStepExecution} {L' : Ledger}
      (claims : Claims L workerId now steps L')
      (complete : steps.length < maxResults → ∀ s, L.step s.stepKey = some s →
        s.versionKey = (name, version) → Orchestrator.isClaimable s now = true →
        ∃ t ∈ steps, t.stepKey = s.stepKey) :
      Effect L now (.pollAndClaimWorkflowSteps name version workerId maxResults) (.claimed steps)
        (steps.map fun s => .claimed s now) L'
  | keepAliveStep {workerId : String} {e : WorkflowExecution} {s : WorkflowStepExecution}
      {L' : Ledger} (step : Transition L (.renewed e.currentKey workerId now) L') :
      Effect L now (.keepAliveStep e.workflowExecutionId e.currentStepName workerId) (.step s)
        [.renewed e.currentKey workerId now] L'
  | completeStep {workerId : String} {output : Json} {delay : Option Seconds}
      {e r : WorkflowExecution} {ev : Event} {L' : Ledger}
      (event : ev = .finished e.currentKey workerId now ∨
        ∃ next, ev = .advanced e.currentKey workerId now next)
      (step : Transition L ev L') :
      Effect L now (.completeStep e.workflowExecutionId e.currentStepName workerId output delay)
        (.execution r) [ev] L'
  | failStep {workerId reason : String} {e r : WorkflowExecution} {ev : Event} {L' : Ledger}
      (event : ev = .retried e.currentKey (some workerId) now ∨
        ev = .exhausted e.currentKey (some workerId) now)
      (step : Transition L ev L') :
      Effect L now (.failStep e.workflowExecutionId e.currentStepName workerId reason)
        (.execution r) [ev] L'
  | cancelWorkflow {id : String} {r : WorkflowExecution} {L' : Ledger}
      (step : Transition L (.canceled id) L') :
      Effect L now (.cancelWorkflow id) (.execution r) [.canceled id] L'
  | sweepExpiredLeases {result : SweepResult} {evs : List Event} {L' : Ledger}
      (events : ∀ ev ∈ evs, ∃ key, SweepEvent now key ev)
      (run : Systems.Run Transition L evs L')
      (counted : result = evs.foldl SweepResult.record {})
      (swept : ∀ s, L.step s.stepKey = some s → Due L s now →
        ∃ t, L'.step s.stepKey = some t ∧ t.status = .failed) :
      Effect L now .sweepExpiredLeases (.swept result) evs L'

theorem Effect.run {now : TimePoint} {op : Operation} {r : Response} {evs : List Event}
    (h : Effect L now op r evs L') : Systems.Run Transition L evs L' := by
  cases h with
  | registerWorkflowDefinition d => exact .single (.register L d)
  | startWorkflow key given definition step => exact .single step
  | pollAndClaimWorkflowSteps claims complete => exact claims.run
  | keepAliveStep step => exact .single step
  | completeStep event step => exact .single step
  | failStep event step => exact .single step
  | cancelWorkflow step => exact .single step
  | sweepExpiredLeases events run counted swept => exact run

theorem Effect.not_registered {now : TimePoint} {op : Operation} {r : Response} {evs : List Event}
    (h : Effect L now op r evs L') (hop : ∀ d, op ≠ .registerWorkflowDefinition d) :
    ∀ ev ∈ evs, ∀ d, ev ≠ .registered d := by
  cases h with
  | registerWorkflowDefinition d => exact absurd rfl (hop d)
  | completeStep event step => rcases event with rfl | ⟨next, rfl⟩ <;> simp
  | failStep event step => rcases event with rfl | rfl <;> simp
  | sweepExpiredLeases events run counted swept =>
    intro ev hev d
    obtain ⟨key, rfl | rfl⟩ := events ev hev
    · nofun
    · nofun
  | _ => simp

theorem Call.effect {c : Call} {r : Response} (h : Holds db L) (inv : Lifecycle L)
    (fresh : c.Fresh db) (hr : c.result db = .ok r) :
    ∃ evs L', Effect L c.now c.operation r evs L' ∧ Holds (c.after db) L' := by
  obtain ⟨op, env⟩ := c
  obtain ⟨tx, hret, hview⟩ := Call.result_ok hr
  rw [← hview]
  cases op with
  | registerWorkflowDefinition d =>
    simp only [Operation.program, returns_bind, returns_pure] at hret
    obtain ⟨d', _, hret, rfl, rfl⟩ := hret
    obtain ⟨rfl, h'⟩ := registerWorkflowDefinition_refines h hret
    exact ⟨_, _, .registerWorkflowDefinition _, h'⟩
  | startWorkflow name version input =>
    simp only [Operation.program, returns_bind, returns_pure] at hret
    obtain ⟨e, _, hret, rfl, rfl⟩ := hret
    have hfresh : L.execution e.workflowExecutionId = none := by
      rw [← h.view_eq]
      simp only [execution, view, fresh name version input e rfl hr, Option.map_none]
    obtain ⟨hkey, hinput, -, d, L', hd, step, h'⟩ := startWorkflow_refines h hret hfresh
    exact ⟨_, _, .startWorkflow hkey hinput hd step, h'⟩
  | pollAndClaimWorkflowSteps name version workerId maxResults =>
    simp only [Operation.program, returns_bind, returns_pure] at hret
    obtain ⟨steps, _, hret, rfl, rfl⟩ := hret
    obtain ⟨L', claims, h', complete⟩ := pollAndClaimWorkflowSteps_refines h hret
    exact ⟨_, _, .pollAndClaimWorkflowSteps claims complete, h'⟩
  | keepAliveStep id name workerId =>
    simp only [Operation.program, returns_bind, returns_pure] at hret
    obtain ⟨s, _, hret, rfl, rfl⟩ := hret
    obtain ⟨e, L', rfl, rfl, step, h'⟩ := keepAliveStep_refines h hret
    exact ⟨_, _, .keepAliveStep step, h'⟩
  | completeStep id name workerId output delay =>
    simp only [Operation.program, returns_bind, returns_pure] at hret
    obtain ⟨_, _, hret, rfl, rfl⟩ := hret
    obtain ⟨e, ev, L', rfl, rfl, hev, step, h'⟩ := completeStep_refines h hret
    exact ⟨_, _, .completeStep hev step, h'⟩
  | failStep id name workerId reason =>
    simp only [Operation.program, returns_bind, returns_pure] at hret
    obtain ⟨_, _, hret, rfl, rfl⟩ := hret
    obtain ⟨e, ev, L', rfl, rfl, hev, step, h'⟩ := failStep_refines h hret
    exact ⟨_, _, .failStep hev step, h'⟩
  | cancelWorkflow id =>
    simp only [Operation.program, returns_bind, returns_pure] at hret
    obtain ⟨_, _, hret, rfl, rfl⟩ := hret
    obtain ⟨L', step, h'⟩ := cancelWorkflow_refines h hret
    exact ⟨_, _, .cancelWorkflow step, h'⟩
  | sweepExpiredLeases =>
    simp only [Operation.program, returns_bind, returns_pure] at hret
    obtain ⟨_, _, hret, rfl, rfl⟩ := hret
    obtain ⟨evs, L', hevs, run, h', hresult, hdone⟩ := sweepExpiredLeases_refines h inv hret
    exact ⟨_, _, .sweepExpiredLeases hevs run hresult hdone, h'⟩

structure Sound (db : E.Db) : Prop where
  encoded : Encoded db
  lifecycle : Lifecycle (view db)

theorem Sound.holds (h : Sound db) : Holds db (view db) := .self h.encoded

theorem sound_empty : Sound (E := E) E.empty :=
  ⟨encoded_empty, view_empty (E := E) ▸ lifecycle_empty⟩

/-- One call: it returned with its effect, or it threw and the store is as it was. -/
theorem Call.Step.cases {c : Call} (h : Call.Step db c db') (sound : Sound db) :
    (∃ r evs, c.result db = .ok r ∧ Effect (view db) c.now c.operation r evs (view db') ∧
      Encoded db') ∨ (∃ e, c.result db = .error e) ∧ db' = db := by
  obtain ⟨fresh, rfl⟩ := h
  cases hr : c.result db with
  | error e => exact .inr ⟨⟨e, rfl⟩, Call.result_error hr⟩
  | ok r =>
    obtain ⟨evs, L', heff, h'⟩ := c.effect sound.holds sound.lifecycle fresh hr
    obtain rfl := h'.view_eq
    exact .inl ⟨r, evs, rfl, heff, h'.encoded⟩

theorem Call.Step.run {c : Call} (h : Call.Step db c db') (sound : Sound db) :
    ∃ evs, Systems.Run Transition (view db) evs (view db') ∧ Encoded db' := by
  rcases h.cases sound with ⟨r, evs, -, heff, henc⟩ | ⟨-, rfl⟩
  · exact ⟨evs, heff.run, henc⟩
  · exact ⟨[], .nil, sound.encoded⟩

theorem Call.Step.sound {c : Call} (h : Call.Step db c db') (sound : Sound db) : Sound db' := by
  obtain ⟨evs, hrun, henc⟩ := h.run sound
  exact ⟨henc, lifecycle_of_run hrun sound.lifecycle⟩

theorem sound_of_calls {calls : List Call} (h : Calls E db calls db') (sound : Sound db) :
    Sound db' :=
  h.invariant (fun _ _ _ hs hstep => hstep.sound hs) sound

theorem Reachable.sound (h : Reachable E db) : Sound db := by
  obtain ⟨calls, hcalls⟩ := h
  exact sound_of_calls hcalls sound_empty

theorem run_of_calls {calls : List Call} (h : Calls E db calls db') (sound : Sound db) :
    ∃ evs, Systems.Run Transition (view db) evs (view db') := by
  obtain ⟨evs, L, hrun, hview, -⟩ := h.simulate
    (R := fun db L => L = view db ∧ Sound db) (fun s c t a ⟨ha, hs⟩ hstep => by
      subst ha
      obtain ⟨evs, hrun, -⟩ := hstep.run hs
      exact ⟨evs, _, hrun, rfl, hstep.sound hs⟩) ⟨rfl, sound⟩
  exact ⟨evs, hview ▸ hrun⟩

end WorkflowEngine
