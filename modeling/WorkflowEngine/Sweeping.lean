import WorkflowEngine.Executable
import WorkflowEngine.Leases
import WorkflowEngine.Staging

/-!
# Sweeps that complete

A sweep looks up the step of every attempt it has to fail in the definition
that is registered now. A definition that was registered again without a step
that some execution is at stops the sweep, and every later one.
-/

namespace WorkflowEngine
open Txn Txn.Program Ledger Orchestrator

variable {E : Engine schema} {db db' : E.Db}

/-- The current attempt of a Running execution, claimed under a lease that has run out, and the
definition registered for the execution. -/
structure Overdue (db : E.Db) (now : TimePoint) (row : WorkflowStepExecutionRow)
    (d : WorkflowDefinition) : Prop where
  found : E.get db .steps row.key = some row
  claimed : row.fromRow.status = .running
  lease : ∃ deadline, row.fromRow.leaseExpiresAt = some deadline ∧ deadline ≤ now
  execution : ∃ e : WorkflowExecutionRow, E.get db .executions row.workflowExecutionId = some e ∧
    e.fromRow.status = .running ∧ e.fromRow.currentKey = row.fromRow.stepKey ∧
    ∃ registered : WorkflowDefinitionRow, E.get db .definitions
      (definitionKey e.fromRow.workflowName e.fromRow.workflowVersion) = some registered ∧
      registered.fromRow = d

theorem mem_runningRows (sound : Sound db) {env : Environment} {row : WorkflowStepExecutionRow} :
    row ∈ runningRows env db ↔
      E.get db .steps row.key = some row ∧ row.fromRow.status = .running := by
  rw [runningRows, mem_arrange, expiredRunningStepsQuery_holds]
  refine and_congr_right fun hget => ?_
  obtain ⟨s, rfl, -⟩ := sound.encoded.steps _ row hget
  rw [WorkflowStepExecution.fromRow_toRow]
  change s.status.toString = "Running" ↔ s.status = .running
  cases s.status <;> simp [StepExecutionStatus.toString]

theorem overdue_iff (sound : Sound db) (env : Environment) {now : TimePoint}
    {row : WorkflowStepExecutionRow} {d : WorkflowDefinition} :
    Overdue db now row d ↔ row ∈ runningRows env db ∧ ∃ e, lapsed db now row = some (e, d) := by
  rw [mem_runningRows sound]
  simp only [lapsed_eq_some, lease_of_leaseExpired]
  constructor
  · intro h
    obtain ⟨e, he, hr, hk, hd⟩ := h.execution
    have hid : e.fromRow.workflowExecutionId = row.workflowExecutionId :=
      congrArg StepKey.workflowExecutionId hk
    exact ⟨⟨h.found, h.claimed⟩, e.fromRow, h.lease, ⟨e, he, rfl⟩, hr,
      congrArg StepKey.stepName hk, congrArg StepKey.attempt hk, hd⟩
  · intro ⟨⟨hfound, hclaimed⟩, e, hlease, ⟨found, hexec, hfrom⟩, hr, hname, hattempt, hd⟩
    subst hfrom
    obtain ⟨-, hid, -⟩ := sound.encoded.execution hexec
    refine ⟨hfound, hclaimed, hlease, found, hexec, hr, ?_, hd⟩
    simp only [WorkflowStepExecution.stepKey, WorkflowExecution.currentKey, hid, hname, hattempt]
    rfl

theorem sweepExpiredLeases_fails {env : Environment} {tx : Tx E} :
    Fails env sweepExpiredLeases tx ↔
      ∃ row ∈ runningRows env tx.view, Lost tx.view (env.answer tx.ticks .clock) row := by
  rw [sweepExpiredLeases, fails_bind]
  constructor
  · intro h
    rcases h with h | ⟨now, _, hnow, h⟩
    · exact absurd h (total_demand _).not_fails
    obtain ⟨rfl, rfl⟩ := returns_nowForStorage.mp hnow
    rcases fails_bind.mp h with h | ⟨rows, _, hrows, h⟩
    · exact absurd h (total_find _ _).not_fails
    obtain ⟨rfl, rfl⟩ := returns_querySteps.mp hrows
    have hlost := sweepSteps_fails.mp h
    exact hlost
  · intro h
    exact .inr ⟨_, _, returns_nowForStorage.mpr ⟨rfl, rfl⟩,
      fails_bind.mpr (.inr ⟨_, _, returns_querySteps.mpr ⟨rfl, rfl⟩, sweepSteps_fails.mpr h⟩)⟩

theorem undefined_iff {d : WorkflowDefinition} {stepName : String} :
    Undefined d stepName ↔ ¬ stepDefinitionExists d stepName = true := by
  unfold Undefined findStepDefinition stepDefinitionExists
  cases h : d.steps.find? fun step => step.name == stepName with
  | none => simpa using h
  | some step =>
    have hname := List.find?_some h
    simp only [reduceCtorEq, exists_false, false_iff, not_not, List.any_eq_true]
    exact ⟨step, List.mem_of_find?_eq_some h, hname⟩

theorem sweep_returns_iff {c : Call} (sound : Sound db) (hop : c.operation = .sweepExpiredLeases) :
    (∃ r, c.result db = .ok r) ↔
      ∀ row d, Overdue db c.now row d → stepDefinitionExists d row.stepName = true := by
  have hfails : (∃ e, c.result db = .error e) ↔ Fails c.env sweepExpiredLeases (Tx.begin db) := by
    constructor
    · intro h
      obtain ⟨e, he⟩ := h
      have hp : c.perform db = (.error e, c.after db) := Prod.ext he rfl
      obtain ⟨⟨tx, ht⟩, -⟩ := atomic_error.mp hp
      rw [hop, Operation.program] at ht
      rcases throws_bind.mp ht with ht | ⟨_, _, -, ht⟩
      · exact ⟨e, tx, ht⟩
      · exact absurd ht (total_pure _).not_throws
    · intro h
      obtain ⟨e, tx, ht⟩ := h
      have hprogram : Throws c.env c.operation.program (Tx.begin db) e tx := by
        rw [hop]
        exact throws_bind.mpr (.inl ht)
      exact ⟨e, congrArg Prod.fst (atomic_error.mpr ⟨⟨tx, hprogram⟩, rfl⟩)⟩
  have hok : (∃ r, c.result db = .ok r) ↔ ¬ ∃ e, c.result db = .error e := by
    cases c.result db <;> simp
  rw [hok, hfails, sweepExpiredLeases_fails]
  constructor
  · intro h row d overdue
    by_contra hnot
    obtain ⟨hrow, e, hlapsed⟩ := (overdue_iff sound c.env).mp overdue
    exact h ⟨row, hrow, e, d, hlapsed, undefined_iff.mpr hnot⟩
  · intro h lost
    obtain ⟨row, hrow, e, d, hlapsed, hundefined⟩ := lost
    have overdue : Overdue db c.now row d := (overdue_iff sound c.env).mpr ⟨hrow, e, hlapsed⟩
    exact undefined_iff.mp hundefined (h row d overdue)

/-- The sweep returns, and every attempt that was due has left the Running status. -/
structure Completes (db : E.Db) (c : Call) : Prop where
  returns : ∃ r, c.result db = .ok r
  swept : ∀ row d, Overdue db c.now row d →
    ∃ row', E.get (c.after db) .steps row.key = some row' ∧ row'.fromRow.status ≠ .running

theorem Overdue.due {now : TimePoint} {row : WorkflowStepExecutionRow} {d : WorkflowDefinition}
    (h : Overdue db now row d) (sound : Sound db) : Due (view db) row.fromRow now := by
  obtain ⟨e, he, hr, hk, registered, hd, -⟩ := h.execution
  obtain ⟨hex, hid, -⟩ := sound.encoded.execution he
  obtain ⟨hrow, -, -⟩ := sound.encoded.step_row h.found
  refine ⟨e.fromRow, registered.fromRow, ⟨⟨hid ▸ hex, hr, ?_⟩, h.claimed, h.lease⟩,
    Encoded.definition (k := e.fromRow.versionKey) hd⟩
  rw [hk]
  exact step_eq_some.mpr ⟨row, hrow, rfl⟩

/-- A sweep of the state completes exactly if the definitions registered now have the steps that
it has to fail. -/
theorem completes_iff {c : Call} (sound : Sound db) (hop : c.operation = .sweepExpiredLeases) :
    Completes db c ↔
      ∀ row d, Overdue db c.now row d → stepDefinitionExists d row.stepName = true := by
  rw [← sweep_returns_iff sound hop]
  constructor
  · exact Completes.returns
  · intro h
    obtain ⟨r, hr⟩ := h
    refine ⟨⟨r, hr⟩, fun row d overdue => ?_⟩
    obtain ⟨hrow, -, htext⟩ := sound.encoded.step_row overdue.found
    have fresh : c.Fresh db := Call.fresh_of_not_start fun name version input hstart => by
      rw [hop] at hstart
      cases hstart
    rcases Call.Step.cases ⟨fresh, rfl⟩ sound with ⟨r, evs, -, heff, -⟩ | ⟨⟨ex, herr⟩, -⟩
    · rw [hop] at heff
      cases heff with
      | sweepExpiredLeases events run counted swept =>
        obtain ⟨t, ht, hfailed⟩ :=
          swept row.fromRow (step_eq_some.mpr ⟨row, hrow, rfl⟩) (overdue.due sound)
        obtain ⟨row', hrow', rfl, -⟩ := view_step.mp ht
        refine ⟨row', htext ▸ hrow', ?_⟩
        rw [hfailed]
        decide
    · rw [hr] at herr
      cases herr

namespace Ledger
variable {L L' : Ledger} {ev : Event}

def Keeps (L : Ledger) (d : WorkflowDefinition) : Prop :=
  ∀ id e, L.execution id = some e → e.status = .running →
    e.versionKey = (d.workflowName, d.workflowVersion) →
    stepDefinitionExists d e.currentStepName = true

structure Placed (L : Ledger) : Prop where
  start : ∀ k d, L.definition k = some d → stepDefinitionExists d d.startWorkflowStepName = true
  current : ∀ id e d, L.execution id = some e → e.status = .running →
    L.definition e.versionKey = some d → stepDefinitionExists d e.currentStepName = true

theorem placed_empty : Placed empty := ⟨by simp [empty], by simp [empty, execution]⟩

theorem Placed.setExecution {e e' : WorkflowExecution} (h : Placed L)
    (he : L.execution e.workflowExecutionId = some e) (hv : e'.versionKey = e.versionKey)
    (hkept : e'.status = .running → e.status = .running ∧ e'.currentStepName = e.currentStepName) :
    Placed (L.setExecution e') := by
  refine ⟨h.start, fun id found d hfound hr hd => ?_⟩
  rw [setExecution_execution] at hfound
  split_ifs at hfound with hid
  · obtain rfl := Option.some_inj.mp hfound
    obtain ⟨hr', hname⟩ := hkept hr
    have hexists := h.current _ e d he hr' (hv ▸ hd)
    rwa [← hname] at hexists
  · exact h.current id found d hfound hr hd

theorem Transition.placed (h : Transition L ev L') (placed : Placed L)
    (hregister : ∀ d, ev = .registered d →
      stepDefinitionExists d d.startWorkflowStepName = true ∧ L.Keeps d) : Placed L' := by
  cases h with
  | register d =>
    obtain ⟨hstart, hkeeps⟩ := hregister d rfl
    constructor
    · intro k d' hd'
      rw [setDefinition_definition] at hd'
      split_ifs at hd'
      · exact Option.some_inj.mp hd' ▸ hstart
      · exact placed.start k d' hd'
    · intro id e d' he hr hd'
      rw [setDefinition_definition] at hd'
      split_ifs at hd' with hk
      · exact Option.some_inj.mp hd' ▸ hkeeps id e he hr hk
      · exact placed.current id e d' he hr hd'
  | @start d e createdAt definition fresh unlocked running first attempt state =>
    constructor
    · intro k d' hd'
      rw [setStep_definition, setExecution_definition, takeLock_definition] at hd'
      exact placed.start k d' hd'
    · intro id found d' hfound hr hd'
      rw [setStep_definition, setExecution_definition, takeLock_definition] at hd'
      rw [setStep_execution, setExecution_execution] at hfound
      split_ifs at hfound with hid
      · obtain rfl := Option.some_inj.mp hfound
        have hsame : d' = d := Option.some_inj.mp (hd'.symm.trans definition)
        rw [hsame]
        have hstart := placed.start _ d definition
        rw [← first] at hstart
        exact hstart
      · rw [execution, takeLock_executionRow] at hfound
        exact placed.current id found d' hfound hr hd'
  | claim => exact ⟨placed.start, placed.current⟩
  | renew => exact ⟨placed.start, placed.current⟩
  | finish held =>
    refine Placed.setExecution ⟨placed.start, placed.current⟩ held.execution rfl fun hr => ?_
    cases hr
  | @advance e s d workerId next now at_ createdAt scheduledAt output state input held definition
      defined =>
    refine ⟨placed.start, fun id found d' hfound hr hd' => ?_⟩
    rw [setStep_execution, setExecution_execution] at hfound
    split_ifs at hfound with hid
    · obtain rfl := Option.some_inj.mp hfound
      have hsame : d' = d := Option.some_inj.mp (hd'.symm.trans definition)
      exact hsame ▸ defined
    · exact placed.current id found d' hfound hr hd'
  | @retry e s d step workerId reason now at_ createdAt failing definition found budget =>
    have hretried : Placed (L.setExecution e.retried) := placed.setExecution
      failing.current.execution rfl fun _ => ⟨failing.current.running, rfl⟩
    exact ⟨hretried.start, hretried.current⟩
  | exhaust failing definition found spent =>
    refine Placed.setExecution ⟨placed.start, placed.current⟩ failing.current.execution rfl fun hr => ?_
    cases hr
  | cancel execution running =>
    refine Placed.setExecution ⟨placed.start, placed.current⟩ execution rfl fun hr => ?_
    cases hr

theorem placed_of_run {evs : List Event} (h : Systems.Run Transition L evs L')
    (hevs : ∀ ev ∈ evs, ∀ d, ev ≠ .registered d) (placed : Placed L) : Placed L' := by
  refine (h.always (P := fun ev => ∀ d, ev ≠ .registered d) (Q := fun _ => True)
    (fun L ev L' placed hev ht => ⟨ht.placed placed ?_, trivial⟩) hevs placed).1
  intro d hd
  exact absurd hd (hev d)

end Ledger

theorem Effect.placed {L L' : Ledger} {now : TimePoint} {op : Operation} {r : Response}
    {evs : List Event} (h : Effect L now op r evs L') (placed : Placed L)
    (hregister : ∀ d, op = .registerWorkflowDefinition d →
      stepDefinitionExists d d.startWorkflowStepName = true ∧ L.Keeps d) : Placed L' := by
  by_cases hop : ∃ d, op = .registerWorkflowDefinition d
  · obtain ⟨d, rfl⟩ := hop
    cases h with
    | registerWorkflowDefinition d =>
      refine (Transition.register L d).placed placed fun d' hd' => ?_
      exact Event.registered.inj hd' ▸ hregister d rfl
  · refine placed_of_run h.run (h.not_registered fun d hd => ?_) placed
    exact hop ⟨d, hd⟩

/-- The service parses a definition before it has it registered, and passes other requests on. -/
def Call.Served (c : Call) : Prop :=
  ∀ d, c.operation = .registerWorkflowDefinition d →
    ∃ value, WorkflowJson.parseWorkflowDefinition value = .ok d

/-- A registration keeps the steps that Running executions of its workflow name and version are
at. -/
def Call.KeepsSteps (c : Call) (db : E.Db) : Prop :=
  ∀ d, c.operation = .registerWorkflowDefinition d → ∀ id, ∀ e : WorkflowExecutionRow,
    E.get db .executions id = some e → e.fromRow.status = .running →
    e.fromRow.versionKey = (d.workflowName, d.workflowVersion) →
    stepDefinitionExists d e.fromRow.currentStepName = true

/-- The calls that clients of the service make. -/
abbrev Served (E : Engine schema) :=
  Systems.Run fun db c (db' : E.Db) => Call.Step db c db' ∧ c.Served

abbrev Kept (E : Engine schema) :=
  Systems.Run fun db c (db' : E.Db) => Call.Step db c db' ∧ c.Served ∧ c.KeepsSteps db

theorem Served.sound {calls : List Call} (run : Served E E.empty calls db) : Sound db :=
  run.invariant (fun _ _ _ sound step => step.1.sound sound) sound_empty

theorem Kept.placed {calls : List Call} (run : Kept E E.empty calls db) :
    Sound db ∧ Placed (view db) := by
  refine run.invariant (I := fun db => Sound db ∧ Placed (view db)) ?_
    ⟨sound_empty, view_empty (E := E) ▸ placed_empty⟩
  intro db c db' ⟨sound, placed⟩ ⟨step, served, keeps⟩
  refine ⟨step.sound sound, ?_⟩
  rcases step.cases sound with ⟨r, evs, -, heff, -⟩ | ⟨-, rfl⟩
  swap
  · exact placed
  refine heff.placed placed fun d hop => ⟨?_, ?_⟩
  · obtain ⟨value, hparse⟩ := served d hop
    exact stepDefinitionExists_iff.mpr (WorkflowJson.wellFormed_of_parse hparse).start
  · intro id e he hr hv
    obtain ⟨row, hrow, rfl⟩ := view_execution.mp he
    exact keeps d hop id row hrow hr hv

/-- After any calls to the service a sweep completes exactly if the definitions registered by then
have the steps it has to fail. It always does where registrations keep the steps in use. -/
theorem sweep_completes_iff {calls : List Call} {c : Call}
    (hop : c.operation = .sweepExpiredLeases) :
    (Served E E.empty calls db → (Completes db c ↔
      ∀ row d, Overdue db c.now row d → stepDefinitionExists d row.stepName = true)) ∧
    (Kept E E.empty calls db → Completes db c) := by
  constructor
  · intro run
    exact completes_iff run.sound hop
  · intro run
    obtain ⟨sound, placed⟩ := run.placed
    rw [completes_iff sound hop]
    intro row d overdue
    obtain ⟨e, he, hr, hk, registered, hd, rfl⟩ := overdue.execution
    have hname : e.fromRow.currentStepName = row.stepName := congrArg StepKey.stepName hk
    rw [← hname]
    exact placed.current _ _ _ (view_execution.mpr ⟨e, he, rfl⟩) hr
      (Encoded.definition (k := e.fromRow.versionKey) hd)

namespace Sample

noncomputable def shipping : List Call :=
  let started := [register (oneStepDefinition "ship" "PT30S"), start 1000000 0]
  started ++ [poll 2000000 "first" (script 0 "ship" started)]

noncomputable def dropped : List Call :=
  shipping ++ [register (oneStepDefinition "pack" "PT30S")]

end Sample

theorem served_register {name : String}
    (h : WorkflowJson.parseWorkflowDefinition (oneStep name "PT30S") =
      .ok (oneStepDefinition name "PT30S")) :
    (Sample.register (oneStepDefinition name "PT30S")).Served := by
  intro d hd
  exact ⟨_, Operation.registerWorkflowDefinition.inj hd ▸ h⟩

theorem served_of_rest {c : Call} (h : ∀ d, c.operation ≠ .registerWorkflowDefinition d) :
    c.Served := fun d hd => absurd hd (h d)

theorem rest_of_shipping {c : Call} (hc : c ∈ Sample.shipping.tail) :
    ∀ d, c.operation ≠ .registerWorkflowDefinition d := by
  simp only [Sample.shipping, List.cons_append, List.nil_append, List.tail_cons, List.mem_cons,
    List.not_mem_nil, or_false] at hc
  rcases hc with rfl | rfl
  · nofun
  · nofun

theorem served_shipping {c : Call} (h : c ∈ Sample.shipping) : c.Served := by
  rcases List.mem_cons.mp h with rfl | h
  · exact served_register (by decide +kernel)
  · exact served_of_rest (rest_of_shipping h)

theorem kept_of_registration {rest : List Call} {db : Sample.store.Db}
    (hrest : ∀ c ∈ rest, ∀ d, c.operation ≠ .registerWorkflowDefinition d)
    (run : Calls Sample.store Sample.store.empty
      (Sample.register (oneStepDefinition "ship" "PT30S") :: rest) db) :
    Kept Sample.store Sample.store.empty
      (Sample.register (oneStepDefinition "ship" "PT30S") :: rest) db := by
  obtain ⟨db₁, first, later⟩ := run.cons_inv
  refine Systems.Run.cons ⟨first, served_register (by decide +kernel), fun d hd id e he => ?_⟩
    (later.imp fun db c db' hc step => ⟨step, served_of_rest (hrest c hc), fun d hd => ?_⟩)
  · rw [Sample.store.get_empty] at he
    cases he
  · exact absurd hd (hrest c hc d)

theorem kept_shipping :
    Kept Sample.store Sample.store.empty Sample.shipping (Sample.after Sample.shipping) := by
  have run : Calls Sample.store Sample.store.empty Sample.shipping
      (Sample.after Sample.shipping) := calls_play (by decide +kernel)
  have hsplit : Sample.shipping = Sample.register (oneStepDefinition "ship" "PT30S") ::
      Sample.shipping.tail := rfl
  generalize Sample.after Sample.shipping = db at run ⊢
  rw [hsplit] at run ⊢
  exact kept_of_registration (fun c hc => rest_of_shipping hc) run

theorem sweep_completes_iff_kept :
    Completes (Sample.after Sample.shipping)
      (Sample.sweep 20000000000 (Sample.script 0 "ship" Sample.shipping)) ∧
    (Completes (Sample.after Sample.shipping)
      (Sample.sweep 20000000000 (Sample.script 0 "ship" Sample.shipping)) ↔
      ∀ row d, Overdue (Sample.after Sample.shipping)
        (Sample.sweep 20000000000 (Sample.script 0 "ship" Sample.shipping)).now row d →
          stepDefinitionExists d row.stepName = true) := by
  have kept := kept_shipping
  have served : Served Sample.store Sample.store.empty Sample.shipping
      (Sample.after Sample.shipping) :=
    kept.imp fun db c db' hc step => ⟨step.1, step.2.1⟩
  have hop : (Sample.sweep 20000000000 (Sample.script 0 "ship" Sample.shipping)).operation =
      .sweepExpiredLeases := rfl
  generalize Sample.sweep 20000000000 (Sample.script 0 "ship" Sample.shipping) = sweep at hop ⊢
  generalize Sample.after Sample.shipping = db at kept served ⊢
  exact ⟨(sweep_completes_iff hop).2 kept, (sweep_completes_iff hop).1 served⟩

/-- The step that is claimed is gone from the definition when its lease runs out. -/
theorem sweep_stopped_by_dropped_step :
    ¬ ∀ (db : Sample.store.Db) (calls : List Call) (c : Call),
      Served Sample.store Sample.store.empty calls db → c.operation = .sweepExpiredLeases →
      Completes db c := by
  intro hall
  have run : Calls Sample.store Sample.store.empty Sample.dropped
      (Sample.after Sample.dropped) := calls_play (by decide +kernel)
  have served : Served Sample.store Sample.store.empty Sample.dropped
      (Sample.after Sample.dropped) := by
    refine run.imp fun db c db' hc step => ⟨step, ?_⟩
    rcases List.mem_append.mp hc with hc | hc
    · exact served_shipping hc
    · rw [List.mem_singleton.mp hc]
      exact served_register (by decide +kernel)
  have hthrows : ((Sample.sweep 20000000000 (Sample.script 0 "ship" Sample.shipping)).result
      (Sample.after Sample.dropped)).isOk = false := by
    decide +kernel
  have hop : (Sample.sweep 20000000000 (Sample.script 0 "ship" Sample.shipping)).operation =
      .sweepExpiredLeases := rfl
  generalize Sample.sweep 20000000000 (Sample.script 0 "ship" Sample.shipping) = sweep
    at hop hthrows
  generalize Sample.after Sample.dropped = db at served hthrows
  obtain ⟨r, hr⟩ := (hall db Sample.dropped sweep served hop).returns
  rw [hr] at hthrows
  cases hthrows

end WorkflowEngine
