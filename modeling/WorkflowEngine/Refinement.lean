import WorkflowEngine.Outcomes

/-!
# Operations refine ledger transitions

An operation that returns takes the ledger through transitions: one for most
operations, one for each claimed step in a poll, one for each row that a sweep
fails. An operation that throws takes it nowhere.
-/

namespace WorkflowEngine
open Txn Txn.Program Orchestrator Ledger

variable {E : Engine schema} {env : Environment} {tx tx' : Tx E} {db db' : E.Db} {L L' : Ledger}

/-- The store is well formed and holds this ledger. -/
structure Holds (db : E.Db) (L : Ledger) : Prop where
  encoded : Encoded db
  view_eq : view db = L

theorem Holds.self (enc : Encoded db) : Holds db (view db) := ⟨enc, rfl⟩

theorem Holds.putDefinition (h : Holds db L) (d : WorkflowDefinition) :
    Holds (E.put db .definitions d.toRow) (L.setDefinition d) :=
  ⟨encoded_putDefinition h.encoded d, by rw [view_putDefinition, h.view_eq]⟩

theorem Holds.putExecution (h : Holds db L) (e : WorkflowExecution)
    (hp : PlainId e.workflowExecutionId) :
    Holds (E.put db .executions e.toRow) (L.setExecution e) :=
  ⟨encoded_putExecution h.encoded e hp, by rw [view_putExecution, h.view_eq]⟩

theorem Holds.putLock (h : Holds db L) (e : WorkflowExecution) :
    Holds (E.put db .singletonLocks (makeSingletonLock e)) (L.setLock e) :=
  ⟨encoded_putLock h.encoded e, by rw [view_putLock, h.view_eq]⟩

theorem Holds.putStep (h : Holds db L) (s : WorkflowStepExecution)
    (hp : PlainId s.workflowExecutionId) :
    Holds (E.put db .steps s.toRow) (L.setStep s) :=
  ⟨encoded_putStep h.encoded s hp, by rw [view_putStep h.encoded s hp, h.view_eq]⟩

theorem Holds.enter (h : Holds db L) {e : WorkflowExecution} (hp : PlainId e.workflowExecutionId)
    (hdb' : db' = E.put db .executions e.toRow) {input : Json} {createdAt : TimePoint}
    {scheduledAt : Option TimePoint} :
    Holds (E.put db' .steps (e.pendingStep input createdAt scheduledAt).toRow)
      ((L.setExecution e).setStep (e.pendingStep input createdAt scheduledAt)) := by
  rw [hdb']
  exact (h.putExecution e hp).putStep _ hp

theorem Holds.of_eq (h : Holds db L) (hv : db' = db) : Holds db' L := hv ▸ h

theorem WorkflowDefinition.lease_eq {d : WorkflowDefinition} {name : String} {step : WorkflowStep}
    {lease : Seconds}
    (hf : findStepDefinition d name = .ok step) (hl : leaseDurationForStep step = .ok lease) :
    d.lease name = .ok lease := by
  rw [WorkflowDefinition.lease, hf]
  exact hl

theorem registerWorkflowDefinition_refines {d r : WorkflowDefinition} (h : Holds tx.view L)
    (hr : Returns env (registerWorkflowDefinition d) tx r tx') :
    r = d ∧ Holds tx'.view (L.setDefinition d) := by
  obtain ⟨rfl, hv⟩ := registerWorkflowDefinition_cases hr
  exact ⟨rfl, (h.putDefinition r).of_eq hv⟩

theorem generateExecutionId_spec {id : String} (hr : Returns env generateExecutionId tx id tx') :
    PlainId id ∧ tx'.view = tx.view := by
  simp only [generateExecutionId, draw, returns_bind, returns_demand, returns_pure] at hr
  obtain ⟨_, _, ⟨-, rfl⟩, _, _, ⟨-, rfl⟩, _, _, ⟨-, rfl⟩, _, _, ⟨-, rfl⟩, _, _, ⟨-, rfl⟩, _, _,
    ⟨-, rfl⟩, rfl, rfl⟩ := hr
  exact ⟨formatExecutionId_plain _ _ _ _ _ _, rfl⟩

theorem checkSingletonLock_spec {name : String} {lock : Option WorkflowSingletonLockRow} {u : Unit}
    (hr : Returns env (checkSingletonLock name lock) tx u tx') :
    tx'.view = tx.view ∧ ∀ row existing, lock = some row →
      E.get tx.view .executions row.workflowExecutionId = some existing →
      existing.fromRow.status ≠ .running := by
  cases lock with
  | none =>
    obtain ⟨-, rfl⟩ := returns_pure.mp hr
    exact ⟨rfl, by simp⟩
  | some row =>
    simp only [checkSingletonLock, returns_bind, returns_getExecution] at hr
    obtain ⟨found, _, ⟨rfl, rfl⟩, hr⟩ := hr
    cases hf : E.get tx.view .executions row.workflowExecutionId with
    | none =>
      rw [hf] at hr
      obtain ⟨-, rfl⟩ := returns_pure.mp hr
      refine ⟨Tx.noteKey_view .., ?_⟩
      intro _ existing h he
      cases h
      rw [hf] at he
      cases he
    | some existing =>
      rw [hf] at hr
      obtain ⟨hs, rfl⟩ := returns_throwIf.mp hr
      refine ⟨Tx.noteKey_view .., ?_⟩
      intro _ existing' h he
      cases h
      rw [hf] at he
      cases he
      exact hs

theorem takeSingletonLock_cases {b : Bool} {e : WorkflowExecution} {u : Unit}
    (hr : Returns env (takeSingletonLock b e) tx u tx') :
    b = false ∧ tx'.view = tx.view ∨
    b = true ∧ tx'.view = E.put tx.view .singletonLocks (makeSingletonLock e) ∧
      ∀ row existing, E.get tx.view .singletonLocks
          (singletonLockKey e.workflowName e.workflowVersion) = some row →
        E.get tx.view .executions row.workflowExecutionId = some existing →
        existing.fromRow.status ≠ .running := by
  cases b with
  | false =>
    obtain ⟨-, rfl⟩ := returns_pure.mp hr
    exact .inl ⟨rfl, rfl⟩
  | true =>
    simp only [takeSingletonLock, if_true, returns_bind, returns_getLock, returns_putLock] at hr
    obtain ⟨lock, _, ⟨rfl, rfl⟩, _, _, hc, rfl⟩ := hr
    obtain ⟨hv, hfree⟩ := checkSingletonLock_spec hc
    rw [Tx.noteKey_view] at hv hfree
    refine .inr ⟨rfl, ?_, hfree⟩
    rw [Tx.stage_view, hv]

theorem takeSingletonLock_spec {b : Bool} {e : WorkflowExecution} {u : Unit}
    (h : Holds tx.view L) (hr : Returns env (takeSingletonLock b e) tx u tx') :
    (b = true → L.Unlocked e.versionKey) ∧ Holds tx'.view (L.takeLock b e) := by
  rcases takeSingletonLock_cases hr with ⟨rfl, hv⟩ | ⟨rfl, hv, hfree⟩
  · exact ⟨nofun, hv.symm ▸ h⟩
  · refine ⟨fun _ => ?_, hv.symm ▸ h.putLock e⟩
    intro id e' hlock he'
    rw [← h.view_eq] at hlock he'
    obtain ⟨row, hrow, rfl⟩ := Option.map_eq_some_iff.mp hlock
    obtain ⟨existing, hex, rfl⟩ := view_execution.mp he'
    exact hfree row existing hrow hex

theorem startWorkflow_refines {name : String} {version : Int32} {input : Json}
    {e : WorkflowExecution} (h : Holds tx.view L)
    (hr : Returns env (startWorkflow name version input) tx e tx')
    (fresh : L.execution e.workflowExecutionId = none) :
    e.versionKey = (name, version) ∧ e.input = input ∧ PlainId e.workflowExecutionId ∧
      ∃ d L', L.definition (name, version) = some d ∧
        Transition L (.started e d.singleton) L' ∧ Holds tx'.view L' := by
  obtain ⟨row, id, tx₀, tx₁, hrow, hid, rfl, hlock, rfl⟩ := startWorkflow_cases hr
  obtain ⟨hplain, hview⟩ := generateExecutionId_spec hid
  rw [Tx.noteKey_view] at hview
  have hL₀ : Holds tx₀.tick.view L := h.of_eq hview
  obtain ⟨hunlocked, hL₁⟩ := takeSingletonLock_spec hL₀ hlock
  have hd : L.definition (name, version) = some row.fromRow := by
    rw [← h.view_eq]
    exact Encoded.definition (k := (name, version)) hrow
  exact ⟨rfl, rfl, hplain, row.fromRow, _, hd, .start hd fresh hunlocked rfl rfl rfl rfl,
    hL₁.enter hplain rfl⟩

theorem held_of_request {tx₁ tx₂ tx₃ : Tx E} {id name workerId : String} {e : WorkflowExecution}
    {s : WorkflowStepExecution} (h : Holds tx.view L)
    (he : Returns env (getCurrentExecution id name) tx e tx₁)
    (hv : tx₂.view = tx₁.view) (ht : tx₂.ticks = tx₁.ticks)
    (hs : Returns env (getClaimedStep e id name workerId) tx₂ s tx₃) :
    e.workflowExecutionId = id ∧ e.currentStepName = name ∧ PlainId e.workflowExecutionId ∧
      PlainId s.workflowExecutionId ∧ L.Held e s workerId (env.answer tx.ticks .clock) ∧
      Holds tx₃.view L := by
  obtain ⟨hexec, hid, hplain, hrun, hname, hv₁, ht₁⟩ := getCurrentExecution_spec h.encoded he
  have hv₂ := hv.trans hv₁
  obtain ⟨hstep, hkey, hown, hv₃⟩ :=
    getClaimedStep_spec (h.of_eq hv₂).encoded hplain hs
  rw [ht, ht₁] at hown
  rw [hv₂, h.view_eq] at hstep
  rw [h.view_eq] at hexec
  have hsid : s.workflowExecutionId = id := congrArg StepKey.workflowExecutionId hkey
  subst hid hname
  exact ⟨rfl, rfl, hplain, hsid ▸ hplain, ⟨⟨hexec, hrun, hstep⟩, hown⟩,
    h.of_eq (hv₃.trans hv₂)⟩

theorem keepAliveStep_refines {id name workerId : String} {s' : WorkflowStepExecution}
    (h : Holds tx.view L) (hr : Returns env (keepAliveStep id name workerId) tx s' tx') :
    ∃ (e : WorkflowExecution) (L' : Ledger), e.workflowExecutionId = id ∧ e.currentStepName = name ∧
      Transition L (.renewed e.currentKey workerId (env.answer tx.ticks .clock)) L' ∧
      Holds tx'.view L' := by
  obtain ⟨e, tx₁, d, tx₂, s, tx₃, step, lease, he, hd, hs, hf, hl, rfl, hview⟩ :=
    keepAliveStep_cases hr
  have hv₁ := (getCurrentExecution_spec h.encoded he).2.2.2.2.2.1
  obtain ⟨hdef, hv, ht⟩ := getDefinitionOf_spec hd
  rw [hv₁, h.view_eq] at hdef
  obtain ⟨hid, hname, -, hplain, held, hL⟩ := held_of_request h he hv ht hs
  subst hname
  exact ⟨e, _, hid, rfl, .renew held hdef (WorkflowDefinition.lease_eq hf hl),
    (hL.putStep (s.renewedUntil _) hplain).of_eq hview⟩

theorem advance_spec {d : WorkflowDefinition} {e r : WorkflowExecution} {decision : NextStepDecision}
    {delay : Option Seconds} (h : Holds tx.view L) (hp : PlainId e.workflowExecutionId)
    (hr : Returns env (advance d e decision delay) tx r tx') :
    ∃ next createdAt scheduledAt, decision.nextStepName = some next ∧
      stepDefinitionExists d next = true ∧
      Holds tx'.view ((L.setExecution (e.movedTo e.state next)).setStep
        ((e.movedTo e.state next).pendingStep decision.nextStepInput createdAt
          scheduledAt)) := by
  obtain ⟨next, n, hnext, hdef, rfl, hv⟩ := advance_cases hr
  exact ⟨next, _, _, hnext, hdef, (h.enter (e := e.movedTo e.state next) hp rfl).of_eq hv⟩

theorem completeStep_refines {id name workerId : String} {output : Json} {delay : Option Seconds}
    {r : WorkflowExecution} (h : Holds tx.view L)
    (hr : Returns env (completeStep id name workerId output delay) tx r tx') :
    ∃ (e : WorkflowExecution) (ev : Event) (L' : Ledger), e.workflowExecutionId = id ∧
      e.currentStepName = name ∧
      (ev = .finished e.currentKey workerId (env.answer tx.ticks .clock) ∨
        ∃ next, ev = .advanced e.currentKey workerId (env.answer tx.ticks .clock) next) ∧
      Transition L ev L' ∧ Holds tx'.view L' := by
  obtain ⟨-, e, tx₁, s, tx₂, d, tx₃, decision, tx₄, he, hs, hd, -, hv₄, -, houtcome⟩ :=
    completeStep_cases hr
  obtain ⟨hid, hname, hpe, hps, held, hL⟩ := held_of_request h he rfl rfl hs
  obtain ⟨hdef, hv, -⟩ := getDefinitionOf_spec hd
  rw [hL.view_eq] at hdef
  have hL₁ := ((hL.of_eq hv).putStep (s.completedWith output _) hps).of_eq hv₄
  rcases houtcome with ⟨n, rfl, hv'⟩ | hadvance
  · exact ⟨e, _, _, hid, hname, .inl rfl, .finish held,
      (hL₁.putExecution (e.completedAtState decision.updatedState _) hpe).of_eq hv'⟩
  · obtain ⟨next, createdAt, scheduledAt, -, hnext, hL₂⟩ :=
      advance_spec (e := { e with state := decision.updatedState }) hL₁ hpe hadvance
    exact ⟨e, _, _, hid, hname, .inr ⟨next, rfl⟩, .advance held hdef hnext, hL₂⟩

theorem failStep_refines {id name workerId reason : String} {r : WorkflowExecution}
    (h : Holds tx.view L) (hr : Returns env (failStep id name workerId reason) tx r tx') :
    ∃ (e : WorkflowExecution) (ev : Event) (L' : Ledger), e.workflowExecutionId = id ∧
      e.currentStepName = name ∧
      (ev = .retried e.currentKey (some workerId) (env.answer tx.ticks .clock) ∨
        ev = .exhausted e.currentKey (some workerId) (env.answer tx.ticks .clock)) ∧
      Transition L ev L' ∧ Holds tx'.view L' := by
  obtain ⟨e, tx₁, s, tx₂, d, tx₃, step, db, he, hs, hd, hf, hdb, houtcome⟩ := failStep_cases hr
  obtain ⟨hid, hname, hpe, hps, held, hL⟩ := held_of_request h he rfl rfl hs
  obtain ⟨hdef, hv, -⟩ := getDefinitionOf_spec hd
  rw [hL.view_eq] at hdef
  subst hname
  have hL₁ := ((hL.of_eq hv).putStep (s.failedFor reason _) hps).of_eq hdb
  rcases houtcome with ⟨hbudget, rfl, n, hv'⟩ | ⟨hspent, n, rfl, hv'⟩
  · exact ⟨e, _, _, hid, rfl, .inl rfl, .retry (.reported held) hdef hf hbudget,
      (hL₁.enter (e := e.retried) hpe rfl).of_eq hv'⟩
  · exact ⟨e, _, _, hid, rfl, .inr rfl, .exhaust (.reported held) hdef hf hspent,
      (hL₁.putExecution (e.failedFor reason _) hpe).of_eq hv'⟩

end WorkflowEngine
