import WorkflowEngine.Sweeping

/-!
# A sweep fails each expired attempt

The sweep has its own copy of the transition that `failStep` performs. Both
write the same rows, up to the clock readings in them, and the rows of two
executions are written at different places. A sweep is therefore the failure of
each attempt that is due, in any order.
-/

namespace WorkflowEngine
open Txn Txn.Program Ledger Orchestrator

variable {E : Engine schema} {env : Environment} {tx tx' : Tx E} {db : E.Db}

namespace Orchestrator

def failAttempt (execution : WorkflowExecution) (stepExecution : WorkflowStepExecution)
    (stepName reason : String) : Op WorkflowExecution := do
  let workflowDefinition ← getDefinitionOf execution
  let stepDefinition ← lift (findStepDefinition workflowDefinition stepName)
  let completedAt ← nowForStorage
  let updatedStepExecution := { stepExecution with
    status := .failed
    failureReason := some reason
    leaseExpiresAt := none
    completedAt := some completedAt }
  putStep updatedStepExecution.toRow
  if execution.currentStepAttempt < maxRetriesForStep stepDefinition then do
    let updatedExecution := { execution with
      currentStepAttempt := execution.currentStepAttempt + 1 }
    putExecution updatedExecution.toRow
    let retry ← makeStepExecution updatedExecution stepName updatedExecution.currentStepAttempt
      updatedStepExecution.input none
    putStep retry.toRow
    return updatedExecution
  else do
    let completedAt ← nowForStorage
    let updatedExecution := { execution with
      status := .failed
      failureReason := some reason
      completedAt := some completedAt }
    putExecution updatedExecution.toRow
    return updatedExecution

/-- `failStep` without the checks of its arguments and of the claim. -/
def failUnclaimed (workflowExecutionId stepName reason : String) : Op WorkflowExecution := do
  let execution ← getCurrentExecution workflowExecutionId stepName
  let stepExecution ← orThrow
    (← getStep (stepExecutionKey workflowExecutionId stepName execution.currentStepAttempt))
    (.runtimeError ("workflow step execution not found: " ++ stepName))
  failAttempt execution stepExecution.fromRow stepName reason

theorem failStep_eq (workflowExecutionId stepName workerId reason : String) :
    failStep workflowExecutionId stepName workerId reason = (do
      validateExecutionId workflowExecutionId
      validateStepName stepName
      validateWorkerId workerId
      let execution ← getCurrentExecution workflowExecutionId stepName
      let stepExecution ← getClaimedStep execution workflowExecutionId stepName workerId
      failAttempt execution stepExecution stepName reason) := rfl

theorem returns_tick {α : Type} {p : Op α} {a : α} :
    (∃ tx₁, Returns env p tx.tick a tx₁ ∧ tx₁.view = db) ↔
      ∃ tx₁, Returns env.later p tx a tx₁ ∧ tx₁.view = db := by
  simp only [Returns, exec_tick]
  constructor
  · intro h
    obtain ⟨tx₁, hexec, rfl⟩ := h
    obtain ⟨hresult, rfl⟩ := Prod.mk.inj hexec
    exact ⟨_, Prod.ext hresult rfl, rfl⟩
  · intro h
    obtain ⟨tx₁, hexec, rfl⟩ := h
    rw [hexec]
    exact ⟨_, rfl, rfl⟩

end Orchestrator

/-- The worker holds the attempt that the execution is at, by the first reading of the clock. -/
def ClaimHeld (env : Environment) (db : E.Db) (id stepName workerId : String) : Prop :=
  ∃ (e : WorkflowExecutionRow) (s : WorkflowStepExecutionRow),
    E.get db .executions id = some e ∧
    E.get db .steps (stepExecutionKey id stepName e.fromRow.currentStepAttempt) = some s ∧
    Owned s.fromRow workerId (env.answer 0 .clock)

/-- `failStep` is the transition after its checks, which read the clock once. -/
theorem failStep_performs {id stepName workerId reason : String} {r : WorkflowExecution}
    {db' : E.Db} :
    atomic env (failStep id stepName workerId reason) db = (.ok r, db') ↔
      (id ≠ "" ∧ stepName ≠ "" ∧ workerId ≠ "" ∧ ClaimHeld env db id stepName workerId) ∧
        atomic env.later (failUnclaimed id stepName reason) db = (.ok r, db') := by
  rw [failStep_eq, atomic_ok, atomic_ok]
  simp only [failUnclaimed, validateExecutionId, validateStepName, validateWorkerId, returns_bind,
    returns_throwIf, returns_getCurrentExecution, returns_getClaimedStep, returns_getStep,
    returns_orThrow]
  constructor
  · intro h
    obtain ⟨tx₁, ⟨-, _, ⟨hid, rfl⟩, -, _, ⟨hname, rfl⟩, -, _, ⟨hworker, rfl⟩, e, _,
      ⟨⟨row, hrow, rfl⟩, hrunning, hcurrent, rfl⟩, s, _, ⟨⟨found, hfound, rfl⟩, howned, rfl⟩, h⟩, rfl⟩ := h
    rw [Tx.noteKey_view] at hfound
    rw [Tx.noteKey_ticks] at howned
    obtain ⟨tx₂, h, hview⟩ := returns_tick.mp ⟨_, h, rfl⟩
    refine ⟨⟨hid, hname, hworker, row, found, hrow, hfound, howned⟩, tx₂, ?_, hview⟩
    exact ⟨_, _, ⟨⟨row, hrow, rfl⟩, hrunning, hcurrent, rfl⟩, _, _, ⟨rfl, rfl⟩, found, _,
      ⟨(Tx.noteKey_view (Tx.begin db) _ _).symm ▸ hfound, rfl⟩, h⟩
  · intro h
    obtain ⟨⟨hid, hname, hworker, row, found, hrow, hfound, howned⟩, tx₁, ⟨e, _,
      ⟨⟨row', hrow', rfl⟩, hrunning, hcurrent, rfl⟩, _, _, ⟨rfl, rfl⟩, found', _, ⟨hfound', rfl⟩, h⟩,
      rfl⟩ := h
    obtain rfl := Option.some_inj.mp (hrow.symm.trans hrow')
    rw [Tx.noteKey_view] at hfound'
    obtain rfl := Option.some_inj.mp (hfound.symm.trans hfound')
    obtain ⟨tx₂, h, hview⟩ := returns_tick.mpr ⟨_, h, rfl⟩
    exact ⟨tx₂, ⟨(), _, ⟨hid, rfl⟩, (), _, ⟨hname, rfl⟩, (), _, ⟨hworker, rfl⟩, _, _,
      ⟨⟨row, hrow, rfl⟩, hrunning, hcurrent, rfl⟩, _, _,
      ⟨⟨found, (Tx.noteKey_view (Tx.begin db) _ _).symm ▸ hfound, rfl⟩, by rwa [Tx.noteKey_ticks], rfl⟩, h⟩,
      hview⟩

def WorkflowExecution.Retries (e : WorkflowExecution) (d : WorkflowDefinition) : Prop :=
  match findStepDefinition d e.currentStepName with
  | .ok step => e.currentStepAttempt < maxRetriesForStep step
  | .error _ => False

instance (e : WorkflowExecution) (d : WorkflowDefinition) : Decidable (e.Retries d) := by
  unfold WorkflowExecution.Retries
  split <;> infer_instance

theorem WorkflowExecution.retries_iff {e : WorkflowExecution} {d : WorkflowDefinition}
    {step : WorkflowStep} (h : findStepDefinition d e.currentStepName = .ok step) :
    e.Retries d ↔ e.currentStepAttempt < maxRetriesForStep step := by
  rw [Retries, h]

/-- The failed attempt, and the next one or the failed execution; the second reading of the clock is
for those. -/
def failureWrites (reason : String) (s : WorkflowStepExecution) (e : WorkflowExecution)
    (d : WorkflowDefinition) (failedAt at_ : TimePoint) : List (Write schema) :=
  ⟨.steps, (s.failedFor reason failedAt).toRow⟩ ::
    if e.Retries d then
      [⟨.executions, e.retried.toRow⟩, ⟨.steps, (e.retried.pendingStep s.input at_ none).toRow⟩]
    else [⟨.executions, (e.failedFor reason at_).toRow⟩]

def SweepResult.tally (result : SweepResult) (retried : Bool) : SweepResult :=
  if retried then { result with retriedCount := result.retriedCount + 1 }
  else { result with failedCount := result.failedCount + 1 }

section Failure
variable {e : WorkflowExecution} {s : WorkflowStepExecution} {d : WorkflowDefinition}
  {step : WorkflowStep} {now : TimePoint} {result : SweepResult} {reason : String}

theorem failAttempt_writes (env : Environment) (tx : Tx E) (reason : String)
    (s : WorkflowStepExecution) {row : WorkflowDefinitionRow}
    (hrow : E.get tx.view .definitions (definitionKey e.workflowName e.workflowVersion) = some row)
    (hstep : findStepDefinition row.fromRow e.currentStepName = .ok step) :
    ∃ r tx', Returns env (failAttempt e s e.currentStepName reason) tx r tx' ∧
      tx'.view = E.applyWrites tx.view (failureWrites reason s e row.fromRow
        (env.answer tx.ticks .clock) (env.answer (tx.ticks + 1) .clock)) := by
  set tx₁ := tx.noteKey .definitions (definitionKey e.workflowName e.workflowVersion) with htx₁
  have hview : tx₁.view = tx.view := Tx.noteKey_view ..
  have hticks : tx₁.ticks = tx.ticks := Tx.noteKey_ticks ..
  let tx₂ := tx₁.tick.stage .steps (s.failedFor reason (env.answer tx₁.ticks .clock)).toRow
  have hbefore : ∀ {r : WorkflowExecution} {tx' : Tx E}, Returns env (if e.currentStepAttempt <
      maxRetriesForStep step then do
        putExecution e.retried.toRow
        let retry ← makeStepExecution e.retried e.currentStepName e.retried.currentStepAttempt
          s.input none
        putStep retry.toRow
        return e.retried
      else do
        let completedAt ← nowForStorage
        putExecution (e.failedFor reason completedAt).toRow
        return e.failedFor reason completedAt) tx₂ r tx' →
      Returns env (failAttempt e s e.currentStepName reason) tx r tx' := by
    intro r tx' h
    refine returns_bind.mpr ⟨_, tx₁, returns_getDefinitionOf.mpr ⟨⟨row, hrow, rfl⟩, rfl⟩, ?_⟩
    refine returns_bind.mpr ⟨step, tx₁, returns_lift.mpr ⟨hstep, rfl⟩, ?_⟩
    refine returns_bind.mpr ⟨_, _, returns_nowForStorage.mpr ⟨rfl, rfl⟩, ?_⟩
    exact returns_bind.mpr ⟨(), tx₂, returns_putStep.mpr rfl, h⟩
  rw [← hticks, ← hview, failureWrites]
  by_cases hbudget : e.currentStepAttempt < maxRetriesForStep step
  · rw [if_pos ((WorkflowExecution.retries_iff hstep).mpr hbudget)]
    rw [if_pos hbudget] at hbefore
    let tx₃ := tx₂.stage .executions e.retried.toRow
    let retry := e.retried.pendingStep s.input (env.answer tx₃.ticks .clock) none
    refine ⟨e.retried, tx₃.tick.stage .steps retry.toRow, hbefore ?_, rfl⟩
    refine returns_bind.mpr ⟨(), tx₃, returns_putExecution.mpr rfl, ?_⟩
    refine returns_bind.mpr ⟨retry, _, (returns_makeStepExecution rfl rfl).mpr ⟨rfl, rfl⟩, ?_⟩
    exact returns_bind.mpr ⟨(), _, returns_putStep.mpr rfl, returns_pure.mpr ⟨rfl, rfl⟩⟩
  · rw [if_neg (mt (WorkflowExecution.retries_iff hstep).mp hbudget)]
    rw [if_neg hbudget] at hbefore
    let failed := e.failedFor reason (env.answer tx₂.ticks .clock)
    refine ⟨failed, tx₂.tick.stage .executions failed.toRow, hbefore ?_, rfl⟩
    refine returns_bind.mpr ⟨_, _, returns_nowForStorage.mpr ⟨rfl, rfl⟩, ?_⟩
    exact returns_bind.mpr ⟨(), _, returns_putExecution.mpr rfl, returns_pure.mpr ⟨rfl, rfl⟩⟩

theorem failExpiredStep_writes (env : Environment) (tx : Tx E) (now : TimePoint)
    (result : SweepResult) (hname : e.currentStepName = s.stepName)
    (hstep : findStepDefinition d e.currentStepName = .ok step) :
    ∃ at_ tx', Returns env (failExpiredStep now result s e d) tx
        (result.tally (decide (e.Retries d))) tx' ∧
      tx'.view = E.applyWrites tx.view (failureWrites "lease expired" s e d now at_) := by
  obtain ⟨result', tx', hr⟩ :=
    failExpiredStep_returns env tx now result e (s := s) (hname ▸ hstep)
  obtain ⟨step', _, hstep', rfl, houtcome⟩ := failExpiredStep_cases hr
  obtain rfl : step' = step := Except.ok.inj (hstep'.symm.trans (hname ▸ hstep))
  rcases houtcome with ⟨hbudget, rfl, n, retry, hretry, rfl⟩ | ⟨hspent, rfl, rfl⟩
  · obtain rfl := hretry hname
    have hretries := (WorkflowExecution.retries_iff hstep).mpr hbudget
    rw [decide_eq_true hretries]
    refine ⟨env.answer n .clock, _, hr, ?_⟩
    rw [failureWrites, if_pos hretries]
    rfl
  · have hretries := mt (WorkflowExecution.retries_iff hstep).mp hspent
    rw [decide_eq_false hretries]
    refine ⟨now, _, hr, ?_⟩
    rw [failureWrites, if_neg hretries]
    rfl

end Failure

section Due
variable {now : TimePoint} {row row' : WorkflowStepExecutionRow} {db₁ : E.Db}
  {times : WorkflowStepExecutionRow → TimePoint × TimePoint}
  {rows : List WorkflowStepExecutionRow} {result : SweepResult}

def failureOf (db : E.Db) (now : TimePoint)
    (times : WorkflowStepExecutionRow → TimePoint × TimePoint) (row : WorkflowStepExecutionRow) :
    List (Write schema) :=
  match lapsed db now row with
  | none => []
  | some (e, d) => failureWrites "lease expired" row.fromRow e d (times row).1 (times row).2

def failures (db : E.Db) (now : TimePoint)
    (times : WorkflowStepExecutionRow → TimePoint × TimePoint)
    (rows : List WorkflowStepExecutionRow) : List (Write schema) :=
  rows.flatMap (failureOf db now times)

def retriedBy (db : E.Db) (now : TimePoint) (row : WorkflowStepExecutionRow) : Bool :=
  match lapsed db now row with
  | none => false
  | some (e, d) => decide (e.Retries d)

def failedBy (db : E.Db) (now : TimePoint) (row : WorkflowStepExecutionRow) : Bool :=
  match lapsed db now row with
  | none => false
  | some (e, d) => !decide (e.Retries d)

/-- The step that a sweep looks up is there. -/
def Defined (db : E.Db) (now : TimePoint) (row : WorkflowStepExecutionRow) : Prop :=
  ∀ e d, lapsed db now row = some (e, d) →
    ∃ step, findStepDefinition d e.currentStepName = .ok step

theorem lapsed_congr
    (hexec : E.get db₁ .executions row.workflowExecutionId =
      E.get db .executions row.workflowExecutionId)
    (hdef : ∀ k, E.get db₁ .definitions k = E.get db .definitions k) :
    lapsed db₁ now row = lapsed db now row := by
  simp only [lapsed, hexec, hdef]

theorem mem_failureWrites {reason : String} {s : WorkflowStepExecution} {e : WorkflowExecution}
    {d : WorkflowDefinition} {t₁ t₂ : TimePoint} {w : Write schema}
    (hw : w ∈ failureWrites reason s e d t₁ t₂) :
    w.address = ⟨.steps, s.toRow.key⟩ ∨ w.address = ⟨.executions, e.workflowExecutionId⟩ ∨
      e.Retries d ∧ w.address = ⟨.steps, e.retried.currentKey.text⟩ := by
  rcases List.mem_cons.mp hw with rfl | hw
  · exact .inl rfl
  split_ifs at hw with hretries
  · rcases List.mem_pair.mp hw with rfl | rfl
    · exact .inr (.inl rfl)
    · refine .inr (.inr ⟨hretries, ?_⟩)
      change (⟨.steps, (e.retried.pendingStep s.input t₂ none).toRow.key⟩ : schema.Address) = _
      rw [WorkflowStepExecution.key_toRow_text, WorkflowExecution.pendingStep_stepKey]
  · obtain rfl := List.mem_singleton.mp hw
    exact .inr (.inl rfl)

theorem get_failureWrites {reason : String} {s : WorkflowStepExecution} {e : WorkflowExecution}
    {d : WorkflowDefinition} {t₁ t₂ : TimePoint} {t : TableName} {k : String}
    (hexec : t = .executions → k ≠ e.workflowExecutionId)
    (hsteps : t = .steps → k ≠ s.toRow.key ∧ (e.Retries d → k ≠ e.retried.currentKey.text)) :
    E.get (E.applyWrites db (failureWrites reason s e d t₁ t₂)) t k = E.get db t k := by
  refine E.get_applyWrites_other fun w hw heq => ?_
  rcases mem_failureWrites hw with h | h | ⟨hretries, h⟩
  · cases heq.symm.trans h
    exact (hsteps rfl).1 rfl
  · cases heq.symm.trans h
    exact hexec rfl rfl
  · cases heq.symm.trans h
    exact (hsteps rfl).2 hretries rfl

theorem lapsed_applyWrites {e : WorkflowExecution} {d : WorkflowDefinition}
    {s : WorkflowStepExecution} {t₁ t₂ : TimePoint} {reason : String}
    (hne : row.workflowExecutionId ≠ e.workflowExecutionId) :
    lapsed (E.applyWrites db (failureWrites reason s e d t₁ t₂)) now row = lapsed db now row :=
  lapsed_congr (get_failureWrites (fun _ => hne) nofun) fun _ => get_failureWrites nofun nofun

theorem lapsed_id {e : WorkflowExecution} {d : WorkflowDefinition}
    (h : lapsed db now row = some (e, d)) : e.workflowExecutionId = row.workflowExecutionId := by
  obtain ⟨-, ⟨found, hfound, rfl⟩, -⟩ := lapsed_eq_some.mp h
  exact E.key_of_get db .executions _ found hfound

theorem failures_cons {e : WorkflowExecution} {d : WorkflowDefinition}
    (h : lapsed db now row = some (e, d)) (hnot : row ∉ rows)
    (times : WorkflowStepExecutionRow → TimePoint × TimePoint) (t₁ t₂ : TimePoint) :
    ∃ times', failures db now times' (row :: rows) =
      failureWrites "lease expired" row.fromRow e d t₁ t₂ ++ failures db now times rows := by
  let times' := fun r => if r = row then (t₁, t₂) else times r
  have hhead : failureOf db now times' row =
      failureWrites "lease expired" row.fromRow e d t₁ t₂ := by
    simp only [failureOf, h, times', if_true]
  have htail : failures db now times' rows = failures db now times rows := by
    refine List.flatMap_congr fun r hr => ?_
    have hne : r ≠ row := fun heq => hnot (heq ▸ hr)
    simp only [failureOf, times', if_neg hne]
  refine ⟨times', ?_⟩
  rw [← hhead, ← htail]
  rfl

theorem tally_cons {e : WorkflowExecution} {d : WorkflowDefinition}
    (h : lapsed db now row = some (e, d)) :
    ({ retriedCount := (result.tally (decide (e.Retries d))).retriedCount +
        (rows.filter (retriedBy db now)).length
       failedCount := (result.tally (decide (e.Retries d))).failedCount +
        (rows.filter (failedBy db now)).length } : SweepResult) =
    { retriedCount := result.retriedCount + ((row :: rows).filter (retriedBy db now)).length
      failedCount := result.failedCount + ((row :: rows).filter (failedBy db now)).length } := by
  simp only [List.filter_cons, retriedBy, failedBy, h, SweepResult.tally]
  by_cases hretries : e.Retries d
  · simp [hretries, Nat.add_assoc, Nat.add_comm 1]
  · simp [hretries, Nat.add_assoc, Nat.add_comm 1]

theorem sweepSteps_writes (env : Environment) (tx : Tx E) (result : SweepResult)
    (hids : (rows.map WorkflowStepExecutionRow.workflowExecutionId).Nodup)
    (hsame : ∀ row ∈ rows, lapsed tx.view now row = lapsed db now row)
    (hdefined : ∀ row ∈ rows, Defined db now row) :
    ∃ times tx', Returns env (sweepSteps now result rows) tx
        { retriedCount := result.retriedCount + (rows.filter (retriedBy db now)).length
          failedCount := result.failedCount + (rows.filter (failedBy db now)).length } tx' ∧
      tx'.view = E.applyWrites tx.view (failures db now times rows) := by
  induction rows generalizing tx result with
  | nil => exact ⟨fun _ => (now, now), tx, returns_pure.mpr ⟨rfl, rfl⟩, rfl⟩
  | cons row rows ih =>
    obtain ⟨hid, hids⟩ := List.nodup_cons.mp hids
    have hmem : row ∈ row :: rows := List.mem_cons_self
    have hrest : ∀ row' ∈ rows, row' ∈ row :: rows := fun row' h => List.mem_cons_of_mem _ h
    obtain ⟨tx₁, hview, -, -, hexec⟩ := sweepStep_exec env tx now result row
    rw [hsame row hmem] at hexec
    cases hl : lapsed db now row with
    | none =>
      rw [hl] at hexec
      obtain ⟨times, tx', hr, hview'⟩ := ih tx₁ result hids
        (fun row' h => by rw [hview, hsame row' (hrest row' h)])
        fun row' h => hdefined row' (hrest row' h)
      refine ⟨times, tx', returns_bind.mpr ⟨result, tx₁, hexec, ?_⟩, ?_⟩
      · simpa only [List.filter_cons, retriedBy, failedBy, hl, Bool.false_eq_true, if_false] using hr
      · rw [hview', hview, failures, failures, List.flatMap_cons, failureOf, hl, List.nil_append]
    | some found =>
      obtain ⟨e, d⟩ := found
      rw [hl] at hexec
      obtain ⟨step, hstep⟩ := hdefined row hmem e d hl
      have hname : e.currentStepName = row.fromRow.stepName := (lapsed_eq_some.mp hl).2.2.2.1
      obtain ⟨at_, tx₂, hr₂, hview₂⟩ := failExpiredStep_writes env tx₁ now result hname hstep
      have hne : ∀ row' ∈ rows, row'.workflowExecutionId ≠ e.workflowExecutionId := by
        intro row' h heq
        exact hid (List.mem_map.mpr ⟨row', h, heq.trans (lapsed_id hl)⟩)
      obtain ⟨times, tx', hr, hview'⟩ := ih tx₂ (result.tally (decide (e.Retries d))) hids
        (fun row' h => by
          rw [hview₂, lapsed_applyWrites (hne row' h), hview, hsame row' (hrest row' h)])
        fun row' h => hdefined row' (hrest row' h)
      have hnot : row ∉ rows := fun hrow => hid (List.mem_map.mpr ⟨row, hrow, rfl⟩)
      obtain ⟨times', hlist⟩ := failures_cons hl hnot times now at_
      refine ⟨times', tx', returns_bind.mpr ⟨_, tx₂, hexec.trans hr₂, ?_⟩, ?_⟩
      · rwa [tally_cons hl] at hr
      · rw [hview', hview₂, hview, hlist, E.applyWrites_append]

end Due

def OfExecution (id : String) (a : schema.Address) : Prop :=
  a = ⟨.executions, id⟩ ∨ ∃ k : StepKey, k.workflowExecutionId = id ∧ a = ⟨.steps, k.text⟩

theorem OfExecution.unique {id id' : String} {a : schema.Address} (h : OfExecution id a)
    (h' : OfExecution id' a) (hp : PlainId id) (hp' : PlainId id') : id = id' := by
  rcases h with rfl | ⟨k, rfl, rfl⟩
  · rcases h' with h' | ⟨k', -, h'⟩
    · cases h'
      rfl
    · cases h'
  · rcases h' with h' | ⟨k', rfl, h'⟩
    · cases h'
    · have htext : k.text = k'.text := eq_of_heq (Sigma.mk.inj h').2
      rw [(StepKey.text_inj hp hp').mp htext]

section Places
variable {e : WorkflowExecution} {s : WorkflowStepExecution} {d : WorkflowDefinition}
  {t₁ t₂ : TimePoint} {reason : String} {w : Write schema}

theorem ofExecution_failureWrites (hid : s.workflowExecutionId = e.workflowExecutionId)
    (hw : w ∈ failureWrites reason s e d t₁ t₂) : OfExecution e.workflowExecutionId w.address := by
  rcases mem_failureWrites hw with h | h | ⟨-, h⟩
  · rw [WorkflowStepExecution.key_toRow_text] at h
    exact .inr ⟨s.stepKey, hid, h⟩
  · exact .inl h
  · exact .inr ⟨e.retried.currentKey, rfl, h⟩

theorem nodup_failureWrites (hp : PlainId e.workflowExecutionId) (hcurrent : s.stepKey = e.currentKey) :
    ((failureWrites reason s e d t₁ t₂).map Write.address).Nodup := by
  have hfailed : (⟨.steps, (s.failedFor reason t₁).toRow⟩ : Write schema).address =
      ⟨.steps, e.currentKey.text⟩ := by
    rw [← hcurrent, ← WorkflowStepExecution.key_toRow_text]
    rfl
  have hretry : (⟨.steps, (e.retried.pendingStep s.input t₂ none).toRow⟩ : Write schema).address =
      ⟨.steps, e.retried.currentKey.text⟩ := by
    rw [← WorkflowExecution.pendingStep_stepKey e.retried s.input t₂ none,
      ← WorkflowStepExecution.key_toRow_text]
    rfl
  have hne : e.currentKey.text ≠ e.retried.currentKey.text := fun htext =>
    e.currentKey_retried_ne ((StepKey.text_inj hp hp).mp htext).symm
  rw [failureWrites, List.map_cons, hfailed]
  split_ifs
  · simp only [List.map_cons, List.map_nil, hretry]
    simp [Write.address, hne]
  · simp [Write.address]

end Places

section Attempts
variable {now : TimePoint} {row row' : WorkflowStepExecutionRow} {e : WorkflowExecution}
  {d : WorkflowDefinition} {times : WorkflowStepExecutionRow → TimePoint × TimePoint}
  {rows : List WorkflowStepExecutionRow} {w : Write schema}

structure Apart (db : E.Db) (rows : List WorkflowStepExecutionRow) : Prop where
  found : ∀ row ∈ rows, E.get db .steps row.key = some row
  ids : (rows.map WorkflowStepExecutionRow.workflowExecutionId).Nodup

theorem Apart.of_subset {rows' : List WorkflowStepExecutionRow} (h : Apart db rows)
    (hsubset : ∀ row ∈ rows', row ∈ rows) (hnodup : rows'.Nodup) : Apart db rows' := by
  refine ⟨fun row hrow => h.found row (hsubset row hrow),
    hnodup.map_on fun row hrow row' hrow' hid => ?_⟩
  exact List.inj_on_of_nodup_map h.ids (hsubset row hrow) (hsubset row' hrow') hid

theorem apart_runningRows (sound : Sound db) (env : Environment) : Apart db (runningRows env db) := by
  refine ⟨fun row hrow => ((mem_runningRows sound).mp hrow).1,
    (nodup_arrange env db _).map_on fun row hrow row' hrow' hid => ?_⟩
  obtain ⟨hfound, hclaimed⟩ := (mem_runningRows sound).mp hrow
  obtain ⟨hfound', hclaimed'⟩ := (mem_runningRows sound).mp hrow'
  obtain ⟨hview, -, htext⟩ := sound.encoded.step_row hfound
  obtain ⟨hview', -, htext'⟩ := sound.encoded.step_row hfound'
  obtain ⟨e, current, hkey, -⟩ :=
    sound.lifecycle.current_of_active (step_eq_some.mpr ⟨row, hview, rfl⟩) (.inr hclaimed)
  obtain ⟨e', current', hkey', -⟩ :=
    sound.lifecycle.current_of_active (step_eq_some.mpr ⟨row', hview', rfl⟩) (.inr hclaimed')
  have hexec : e.workflowExecutionId = e'.workflowExecutionId :=
    (congrArg StepKey.workflowExecutionId hkey).trans
      (hid.trans (congrArg StepKey.workflowExecutionId hkey').symm)
  have hsame : (view db).execution e.workflowExecutionId = some e' := hexec ▸ current'.execution
  obtain rfl := Option.some_inj.mp (current.execution.symm.trans hsame)
  have hkeys : row.key = row'.key := by rw [htext, htext', ← hkey, ← hkey']
  exact Option.some_inj.mp (hfound.symm.trans (hkeys ▸ hfound'))

theorem lapsed_current (sound : Sound db) (hfound : E.get db .steps row.key = some row)
    (h : lapsed db now row = some (e, d)) :
    row.fromRow.stepKey = e.currentKey ∧ PlainId e.workflowExecutionId ∧ e.status = .running := by
  obtain ⟨-, -, hrunning, hname, hattempt, -⟩ := lapsed_eq_some.mp h
  have hid := lapsed_id h
  have hplain : PlainId row.workflowExecutionId := (sound.encoded.step_row hfound).2.1
  refine ⟨?_, hid ▸ hplain, hrunning⟩
  rw [WorkflowExecution.currentKey, hid, hname, hattempt]
  rfl

theorem mem_failureOf (hw : w ∈ failureOf db now times row) : ∃ e d,
    lapsed db now row = some (e, d) ∧
      w ∈ failureWrites "lease expired" row.fromRow e d (times row).1 (times row).2 := by
  unfold failureOf at hw
  cases h : lapsed db now row with
  | none =>
    rw [h] at hw
    cases hw
  | some found => exact ⟨found.1, found.2, rfl, by simpa only [h] using hw⟩

theorem ofExecution_failureOf (hw : w ∈ failureOf db now times row) :
    OfExecution row.workflowExecutionId w.address := by
  obtain ⟨e, d, h, hw⟩ := mem_failureOf hw
  rw [← lapsed_id h]
  exact ofExecution_failureWrites (lapsed_id h).symm hw

theorem nodup_failures (sound : Sound db) (apart : Apart db rows) :
    ((failures db now times rows).map Write.address).Nodup := by
  rw [failures, List.map_flatMap, List.nodup_flatMap]
  have hplain : ∀ row ∈ rows, PlainId row.workflowExecutionId := fun row hrow =>
    (sound.encoded.step_row (apart.found row hrow)).2.1
  constructor
  · intro row hrow
    unfold failureOf
    cases h : lapsed db now row with
    | none => exact List.nodup_nil
    | some found =>
      obtain ⟨hkey, hp, -⟩ := lapsed_current sound (apart.found row hrow) h
      exact nodup_failureWrites hp hkey
  · refine (List.Nodup.of_map _ apart.ids).pairwise_of_forall_ne
      fun row hrow row' hrow' hne a ha ha' => ?_
    obtain ⟨w, hw, rfl⟩ := List.mem_map.mp ha
    obtain ⟨w', hw', hsame⟩ := List.mem_map.mp ha'
    have hid : row.workflowExecutionId = row'.workflowExecutionId :=
      (ofExecution_failureOf hw).unique (hsame ▸ ofExecution_failureOf hw') (hplain row hrow)
        (hplain row' hrow')
    exact hne (List.inj_on_of_nodup_map apart.ids hrow hrow' hid)

end Attempts

/-- Every registered definition has the current step of its Running executions. -/
def StepsDefined (db : E.Db) : Prop :=
  ∀ id, ∀ e : WorkflowExecutionRow, ∀ d : WorkflowDefinitionRow,
    E.get db .executions id = some e → e.fromRow.status = .running →
    E.get db .definitions (definitionKey e.fromRow.workflowName e.fromRow.workflowVersion) = some d →
    stepDefinitionExists d.fromRow e.fromRow.currentStepName = true

theorem StepsDefined.defined (h : StepsDefined db) (now : TimePoint)
    (row : WorkflowStepExecutionRow) : Defined db now row := by
  intro e d hlapsed
  obtain ⟨-, ⟨found, hfound, rfl⟩, hrunning, -, -, registered, hregistered, rfl⟩ :=
    lapsed_eq_some.mp hlapsed
  have hexists := h _ found registered hfound hrunning hregistered
  cases hstep : findStepDefinition registered.fromRow found.fromRow.currentStepName with
  | ok step => exact ⟨step, rfl⟩
  | error ex => exact absurd hexists (undefined_iff.mp ⟨ex, hstep⟩)

def sweepCounts (db : E.Db) (now : TimePoint) (rows : List WorkflowStepExecutionRow) : SweepResult where
  retriedCount := (rows.filter (retriedBy db now)).length
  failedCount := (rows.filter (failedBy db now)).length

theorem sweep_spec {c : Call} (sound : Sound db) (hop : c.operation = .sweepExpiredLeases)
    (hdefined : ∀ row ∈ runningRows c.env db, Defined db c.now row) :
    c.result db = .ok (.swept (sweepCounts db c.now (runningRows c.env db))) ∧
    ∃ times, c.after db = E.applyWrites db (failures db c.now times (runningRows c.env db)) := by
  let tx₀ := (Tx.begin db).tick.noteQuery .steps expiredRunningStepsQuery
  have hsame : ∀ row ∈ runningRows c.env db, lapsed tx₀.view c.now row = lapsed db c.now row :=
    fun _ _ => rfl
  obtain ⟨times, tx', hr, hview⟩ := sweepSteps_writes c.env tx₀ {}
    (apart_runningRows sound c.env).ids hsame hdefined
  simp only [Nat.zero_add] at hr
  have hsweep : Returns c.env sweepExpiredLeases (Tx.begin db)
      (sweepCounts db c.now (runningRows c.env db)) tx' := by
    refine returns_bind.mpr ⟨_, _, returns_nowForStorage.mpr ⟨rfl, rfl⟩, ?_⟩
    exact returns_bind.mpr ⟨_, _, returns_querySteps.mpr ⟨rfl, rfl⟩, hr⟩
  have hprogram : Returns c.env c.operation.program (Tx.begin db)
      (.swept (sweepCounts db c.now (runningRows c.env db))) tx' := by
    rw [hop]
    exact returns_bind.mpr ⟨_, _, hsweep, returns_pure.mpr ⟨rfl, rfl⟩⟩
  have hperform := atomic_ok.mpr ⟨tx', hprogram, rfl⟩
  exact ⟨congrArg Prod.fst hperform, times, (congrArg Prod.snd hperform).trans hview⟩

section Failing
variable {now : TimePoint} {row : WorkflowStepExecutionRow} {e : WorkflowExecution}
  {d : WorkflowDefinition} {step : WorkflowStep}

/-- The transition of `failStep` at an attempt, with the reason that a sweep gives. -/
def FailsExpired (db : E.Db) (x : WorkflowStepExecutionRow × Environment) (db' : E.Db) : Prop :=
  ∃ r, atomic x.2 (failUnclaimed x.1.workflowExecutionId x.1.stepName "lease expired") db =
    (.ok r, db')

theorem failsExpired_writes (env : Environment) (hfound : E.get db .steps row.key = some row)
    (hkey : row.key = e.currentKey.text) (h : lapsed db now row = some (e, d))
    (hstep : findStepDefinition d e.currentStepName = .ok step) :
    FailsExpired db (row, env) (E.applyWrites db (failureWrites "lease expired" row.fromRow e d
      (env.answer 0 .clock) (env.answer 1 .clock))) := by
  obtain ⟨-, ⟨found, hexec, rfl⟩, hrunning, hname, -, registered, hregistered, rfl⟩ :=
    lapsed_eq_some.mp h
  have hid := lapsed_id h
  set tx₁ := (Tx.begin db).noteKey .executions row.workflowExecutionId with htx₁
  set tx₂ := tx₁.noteKey .steps (stepExecutionKey row.workflowExecutionId row.stepName
    found.fromRow.currentStepAttempt) with htx₂
  have hview : tx₂.view = db := (Tx.noteKey_view ..).trans (Tx.noteKey_view ..)
  have hticks : tx₂.ticks = 0 := (Tx.noteKey_ticks ..).trans (Tx.noteKey_ticks ..)
  have hplace : stepExecutionKey row.workflowExecutionId row.stepName
      found.fromRow.currentStepAttempt = row.key := by
    rw [hkey, ← hid, ← hname]
    rfl
  obtain ⟨r, tx', hr, hview'⟩ := failAttempt_writes env tx₂ "lease expired" row.fromRow
    (by rwa [hview]) hstep
  refine ⟨r, atomic_ok.mpr ⟨tx', ?_, ?_⟩⟩
  · refine returns_bind.mpr ⟨found.fromRow, tx₁,
      returns_getCurrentExecution.mpr ⟨⟨found, hexec, rfl⟩, hrunning, hname, rfl⟩, ?_⟩
    refine returns_bind.mpr ⟨some row, tx₂, returns_getStep.mpr ⟨?_, rfl⟩, ?_⟩
    · rw [Tx.noteKey_view, hplace, ← hfound]
      rfl
    refine returns_bind.mpr ⟨row, tx₂, returns_orThrow.mpr ⟨rfl, rfl⟩, ?_⟩
    rw [hname] at hr
    exact hr
  · rw [hview', hview, hticks]

theorem keeps_failureWrites {db₁ : E.Db} {s : WorkflowStepExecution} {reason : String}
    {t₁ t₂ : TimePoint} (sound : Sound db) (hfound : E.get db .steps row.key = some row)
    (hid : s.workflowExecutionId = e.workflowExecutionId) (hp : PlainId e.workflowExecutionId)
    (hne : row.workflowExecutionId ≠ e.workflowExecutionId) :
    lapsed (E.applyWrites db₁ (failureWrites reason s e d t₁ t₂)) now row = lapsed db₁ now row ∧
    E.get (E.applyWrites db₁ (failureWrites reason s e d t₁ t₂)) .steps row.key =
      E.get db₁ .steps row.key := by
  obtain ⟨-, hplain, htext⟩ := sound.encoded.step_row hfound
  refine ⟨lapsed_applyWrites hne, E.get_applyWrites_other fun w hw haddress => hne ?_⟩
  have hrow : OfExecution row.workflowExecutionId w.address :=
    .inr ⟨row.fromRow.stepKey, rfl, htext ▸ haddress⟩
  exact hrow.unique (ofExecution_failureWrites hid hw) hplain hp

theorem failsExpired_run {xs : List (WorkflowStepExecutionRow × Environment)} {db₁ : E.Db}
    (sound : Sound db) (apart : Apart db (xs.map Prod.fst))
    (hdue : ∀ x ∈ xs, ∃ e d, lapsed db now x.1 = some (e, d))
    (hdefined : ∀ row, Defined db now row)
    (hsame : ∀ x ∈ xs, lapsed db₁ now x.1 = lapsed db now x.1 ∧
      E.get db₁ .steps x.1.key = some x.1) :
    ∃ times, Systems.Run FailsExpired db₁ xs
      (E.applyWrites db₁ (failures db now times (xs.map Prod.fst))) := by
  induction xs generalizing db₁ with
  | nil => exact ⟨fun _ => (now, now), .nil⟩
  | cons x xs ih =>
    obtain ⟨row, env⟩ := x
    rw [List.map_cons] at apart
    obtain ⟨hid, -⟩ := List.nodup_cons.mp apart.ids
    have hrest : Apart db (xs.map Prod.fst) := apart.of_subset
      (fun row' h => List.mem_cons_of_mem _ h) (List.Nodup.of_map _ apart.ids).of_cons
    obtain ⟨e, d, hl⟩ := hdue (row, env) List.mem_cons_self
    obtain ⟨hlapsed, hfound⟩ := hsame (row, env) List.mem_cons_self
    obtain ⟨step, hstep⟩ := hdefined row e d hl
    have hstored : E.get db .steps row.key = some row := apart.found row List.mem_cons_self
    obtain ⟨hcurrent, hplain, -⟩ := lapsed_current sound hstored hl
    have hkey : row.key = e.currentKey.text := hcurrent ▸ (sound.encoded.step_row hstored).2.2
    set db₂ := E.applyWrites db₁ (failureWrites "lease expired" row.fromRow e d
      (env.answer 0 .clock) (env.answer 1 .clock)) with hdb₂
    have hfirst : FailsExpired db₁ (row, env) db₂ :=
      failsExpired_writes env hfound hkey (hlapsed.trans hl) hstep
    have hne : ∀ x ∈ xs, x.1.workflowExecutionId ≠ e.workflowExecutionId := by
      intro x hx heq
      exact hid (List.mem_map.mpr ⟨x.1, List.mem_map.mpr ⟨x, hx, rfl⟩, heq.trans (lapsed_id hl)⟩)
    have hsame' : ∀ x ∈ xs, lapsed db₂ now x.1 = lapsed db now x.1 ∧
        E.get db₂ .steps x.1.key = some x.1 := by
      intro x hx
      obtain ⟨hlapsed', hfound'⟩ := hsame x (List.mem_cons_of_mem _ hx)
      rw [← hlapsed', ← hfound']
      exact keeps_failureWrites sound (hrest.found x.1 (List.mem_map.mpr ⟨x, hx, rfl⟩))
        (lapsed_id hl).symm hplain (hne x hx)
    obtain ⟨times, hrun⟩ := ih hrest (fun x hx => hdue x (List.mem_cons_of_mem _ hx)) hsame'
    have hnot : row ∉ xs.map Prod.fst := fun hrow => hid (List.mem_map.mpr ⟨row, hrow, rfl⟩)
    obtain ⟨times', hlist⟩ :=
      failures_cons hl hnot times (env.answer 0 .clock) (env.answer 1 .clock)
    refine ⟨times', ?_⟩
    rw [List.map_cons, hlist, E.applyWrites_append]
    exact Systems.Run.cons hfirst hrun

end Failing

/-- A row without the reading of the clock that its failure took, or its making. -/
def forgetClock : (t : TableName) → schema.Row t → schema.Row t
  | .definitions, row => row
  | .executions, row =>
    if row.status = WorkflowExecutionStatus.failed.toString then { row with completedAt := none }
    else row
  | .singletonLocks, row => row
  | .steps, row =>
    if row.status = StepExecutionStatus.failed.toString then { row with completedAt := none }
    else if row.status = StepExecutionStatus.pending.toString then { row with createdAt := none }
    else row

section Clock
variable {now : TimePoint} {row : WorkflowStepExecutionRow} {e : WorkflowExecution}
  {d : WorkflowDefinition} {times times' : WorkflowStepExecutionRow → TimePoint × TimePoint}
  {rows rows' : List WorkflowStepExecutionRow} {w : Write schema}

theorem forgetClock_failedStep (s : WorkflowStepExecution) (reason : String) (t u : TimePoint) :
    forgetClock .steps (s.failedFor reason t).toRow =
      forgetClock .steps (s.failedFor reason u).toRow := by
  simp only [forgetClock, WorkflowStepExecution.toRow, WorkflowStepExecution.failedFor, if_true]

theorem forgetClock_pendingStep (e : WorkflowExecution) (input : Json) (t u : TimePoint) :
    forgetClock .steps (e.pendingStep input t none).toRow =
      forgetClock .steps (e.pendingStep input u none).toRow := by
  have hne : StepExecutionStatus.pending.toString ≠ StepExecutionStatus.failed.toString := by
    simp [StepExecutionStatus.toString]
  simp only [forgetClock, WorkflowStepExecution.toRow, WorkflowExecution.pendingStep, if_neg hne,
    if_true]

theorem forgetClock_failedExecution (e : WorkflowExecution) (reason : String) (t u : TimePoint) :
    forgetClock .executions (e.failedFor reason t).toRow =
      forgetClock .executions (e.failedFor reason u).toRow := by
  simp only [forgetClock, WorkflowExecution.toRow, WorkflowExecution.failedFor, if_true]

theorem alikeWrite_step {s s' : WorkflowStepExecution} (hkey : s.stepKey = s'.stepKey)
    (hforget : forgetClock .steps s.toRow = forgetClock .steps s'.toRow) :
    Engine.AlikeWrite (σ := schema) forgetClock ⟨.steps, s.toRow⟩ ⟨.steps, s'.toRow⟩ := by
  refine ⟨.steps, s.toRow, s'.toRow, rfl, rfl, ?_, hforget⟩
  change s.toRow.key = s'.toRow.key
  rw [s.key_toRow_text, s'.key_toRow_text, hkey]

theorem alikeWrite_execution {e e' : WorkflowExecution}
    (hid : e.workflowExecutionId = e'.workflowExecutionId)
    (hforget : forgetClock .executions e.toRow = forgetClock .executions e'.toRow) :
    Engine.AlikeWrite (σ := schema) forgetClock ⟨.executions, e.toRow⟩ ⟨.executions, e'.toRow⟩ := by
  refine ⟨.executions, e.toRow, e'.toRow, rfl, rfl, ?_, hforget⟩
  change e.toRow.key = e'.toRow.key
  exact hid

theorem alike_failureWrites {reason : String} {s : WorkflowStepExecution} (t₁ t₂ u₁ u₂ : TimePoint) :
    List.Forall₂ (Engine.AlikeWrite forgetClock) (failureWrites reason s e d t₁ t₂)
      (failureWrites reason s e d u₁ u₂) := by
  refine .cons (alikeWrite_step rfl (forgetClock_failedStep s reason t₁ u₁)) ?_
  split_ifs
  · refine .cons (alikeWrite_execution rfl rfl) ?_
    exact .cons (alikeWrite_step rfl (forgetClock_pendingStep e.retried s.input t₂ u₂)) .nil
  · exact .cons (alikeWrite_execution rfl (forgetClock_failedExecution e reason t₂ u₂)) .nil

theorem alike_failures :
    List.Forall₂ (Engine.AlikeWrite forgetClock) (failures db now times rows)
      (failures db now times' rows) := by
  induction rows with
  | nil => exact .nil
  | cons row rows ih =>
    rw [failures, failures, List.flatMap_cons, List.flatMap_cons]
    refine List.rel_append ?_ ih
    unfold failureOf
    cases lapsed db now row with
    | none => exact .nil
    | some found => exact alike_failureWrites ..

theorem alike_of_perm (sound : Sound db) (apart : Apart db rows) (h : rows.Perm rows') :
    Engine.Alike forgetClock (E.applyWrites db (failures db now times rows))
      (E.applyWrites db (failures db now times' rows')) := by
  have horder : Engine.Alike forgetClock (E.applyWrites db (failures db now times rows))
      (E.applyWrites db (failures db now times rows')) :=
    Engine.alike_of_get (E.get_applyWrites_perm (nodup_failures sound apart) (h.flatMap_right _))
  exact horder.trans ((Engine.alike_of_get fun _ _ => rfl).applyWrites alike_failures)

theorem failureWrites_subset (hrow : row ∈ rows) (h : lapsed db now row = some (e, d))
    (hw : w ∈ failureWrites "lease expired" row.fromRow e d (times row).1 (times row).2) :
    w ∈ failures db now times rows := by
  refine List.mem_flatMap.mpr ⟨row, hrow, ?_⟩
  rw [failureOf, h]
  exact hw

theorem execution_after (sound : Sound db) (apart : Apart db rows) (hrow : row ∈ rows)
    (h : lapsed db now row = some (e, d)) :
    E.get (E.applyWrites db (failures db now times rows)) .executions row.workflowExecutionId =
      some (if e.Retries d then e.retried.toRow
        else (e.failedFor "lease expired" (times row).2).toRow) := by
  have hnodup : ((failures db now times rows).map Write.address).Nodup := nodup_failures sound apart
  rw [← lapsed_id h]
  by_cases hretries : e.Retries d
  · rw [if_pos hretries]
    refine E.get_applyWrites_mem hnodup (w := ⟨.executions, e.retried.toRow⟩) ?_
    refine failureWrites_subset hrow h (List.mem_cons_of_mem _ ?_)
    rw [if_pos hretries]
    exact List.mem_cons_self
  · rw [if_neg hretries]
    refine E.get_applyWrites_mem hnodup
      (w := ⟨.executions, (e.failedFor "lease expired" (times row).2).toRow⟩) ?_
    refine failureWrites_subset hrow h (List.mem_cons_of_mem _ ?_)
    rw [if_neg hretries]
    exact List.mem_cons_self

theorem not_running_failureWrites {reason : String} {s : WorkflowStepExecution} {t₁ t₂ : TimePoint}
    (hw : ⟨.steps, row⟩ ∈ failureWrites reason s e d t₁ t₂) : row.fromRow.status ≠ .running := by
  rcases List.mem_cons.mp hw with h | hw
  · cases h
    rw [WorkflowStepExecution.fromRow_toRow]
    nofun
  split_ifs at hw
  · rcases List.mem_pair.mp hw with h | h
    · cases h
    · cases h
      rw [WorkflowStepExecution.fromRow_toRow]
      nofun
  · cases List.mem_singleton.mp hw

end Clock

section Sweep
variable {c c' : Call} {now : TimePoint} {row : WorkflowStepExecutionRow} {e : WorkflowExecution}
  {d : WorkflowDefinition} {times : WorkflowStepExecutionRow → TimePoint × TimePoint}
  {l rows : List WorkflowStepExecutionRow}

theorem failures_due (rows : List WorkflowStepExecutionRow) :
    failures db now times (rows.filter fun row => (lapsed db now row).isSome) =
      failures db now times rows := by
  induction rows with
  | nil => rfl
  | cons row rows ih =>
    rw [List.filter_cons]
    cases h : lapsed db now row with
    | none =>
      have hhead : failureOf db now times row = [] := by rw [failureOf, h]
      calc failures db now times (rows.filter fun row => (lapsed db now row).isSome)
          = [] ++ failures db now times rows := ih
        _ = failures db now times (row :: rows) := by rw [← hhead]; rfl
    | some found => exact congrArg (failureOf db now times row ++ ·) ih

theorem sweepCounts_due (rows : List WorkflowStepExecutionRow) :
    sweepCounts db now (rows.filter fun row => (lapsed db now row).isSome) =
      sweepCounts db now rows := by
  have hretried : ∀ row ∈ rows, ((retriedBy db now row && (lapsed db now row).isSome) =
      retriedBy db now row) := by
    intro row _
    unfold retriedBy
    cases lapsed db now row <;> simp
  have hfailed : ∀ row ∈ rows, ((failedBy db now row && (lapsed db now row).isSome) =
      failedBy db now row) := by
    intro row _
    unfold failedBy
    cases lapsed db now row <;> simp
  rw [sweepCounts, sweepCounts, List.filter_filter, List.filter_filter,
    List.filter_congr hretried, List.filter_congr hfailed]

theorem apart_lapsedRows (sound : Sound db) (env : Environment) (now : TimePoint) :
    Apart db (lapsedRows env db now) :=
  (apart_runningRows sound env).of_subset (fun _ hrow => List.mem_of_mem_filter hrow)
    ((nodup_arrange env db _).filter _)

theorem sweep_lapsedRows (sound : Sound db) (hop : c.operation = .sweepExpiredLeases)
    (hdefined : ∀ row ∈ runningRows c.env db, Defined db c.now row) :
    c.result db = .ok (.swept (sweepCounts db c.now (lapsedRows c.env db c.now))) ∧
    ∃ times, c.after db = E.applyWrites db (failures db c.now times (lapsedRows c.env db c.now)) := by
  obtain ⟨hresult, times, hafter⟩ := sweep_spec sound hop hdefined
  refine ⟨?_, times, ?_⟩
  · rw [lapsedRows, sweepCounts_due, hresult]
  · rw [lapsedRows, failures_due, hafter]

/-- The attempts that are due at the time, in some order. -/
structure AllOverdue (db : E.Db) (now : TimePoint) (l : List WorkflowStepExecutionRow) : Prop where
  nodup : l.Nodup
  mem : ∀ row, row ∈ l ↔ ∃ d, Overdue db now row d

theorem allOverdue_lapsedRows (sound : Sound db) (env : Environment) (now : TimePoint) :
    AllOverdue db now (lapsedRows env db now) := by
  refine ⟨(nodup_arrange env db _).filter _, fun row => ?_⟩
  rw [lapsedRows, List.mem_filter, Option.isSome_iff_exists]
  constructor
  · intro h
    obtain ⟨hrow, ⟨e, d⟩, hlapsed⟩ := h
    exact ⟨d, (overdue_iff sound env).mpr ⟨hrow, e, hlapsed⟩⟩
  · intro h
    obtain ⟨d, overdue⟩ := h
    obtain ⟨hrow, e, hlapsed⟩ := (overdue_iff sound env).mp overdue
    exact ⟨hrow, (e, d), hlapsed⟩

theorem AllOverdue.perm {l' : List WorkflowStepExecutionRow} (h : AllOverdue db now l)
    (h' : AllOverdue db now l') : l.Perm l' :=
  (List.perm_ext_iff_of_nodup h.nodup h'.nodup).mpr fun row => (h.mem row).trans (h'.mem row).symm

theorem AllOverdue.lapsed (h : AllOverdue db now l) (sound : Sound db) (env : Environment)
    (hrow : row ∈ l) : row ∈ runningRows env db ∧ ∃ e d, lapsed db now row = some (e, d) := by
  obtain ⟨d, overdue⟩ := (h.mem row).mp hrow
  obtain ⟨hrunning, e, hlapsed⟩ := (overdue_iff sound env).mp overdue
  exact ⟨hrunning, e, d, hlapsed⟩

theorem not_ofExecution_definition {id k : String} : ¬ OfExecution id ⟨.definitions, k⟩ := by
  rintro (h | ⟨_, -, h⟩) <;> cases h

theorem lapsed_after (sound : Sound db) {env : Environment}
    (hget : E.get (E.applyWrites db (failures db now times (lapsedRows env db now))) .steps row.key =
      some row) (hrunning : row.fromRow.status = .running) :
    lapsed (E.applyWrites db (failures db now times (lapsedRows env db now))) now row = none := by
  have hnot : ⟨.steps, row⟩ ∉ failures db now times (lapsedRows env db now) := by
    intro hw
    obtain ⟨row', -, hw⟩ := List.mem_flatMap.mp hw
    obtain ⟨e, d, -, hw⟩ := mem_failureOf hw
    exact not_running_failureWrites hw hrunning
  have hold : E.get db .steps row.key = some row :=
    (E.mem_of_get_applyWrites hget).resolve_right hnot
  have hmem : row ∈ runningRows env db := (mem_runningRows sound).mpr ⟨hold, hrunning⟩
  have hplain : PlainId row.workflowExecutionId := (sound.encoded.step_row hold).2.1
  cases h : lapsed db now row with
  | some found =>
    obtain ⟨e, d⟩ := found
    -- The attempt was due, and its failure is what is found at its place.
    have hdue : row ∈ lapsedRows env db now := List.mem_filter.mpr ⟨hmem, by simp [h]⟩
    have hw : ⟨.steps, (row.fromRow.failedFor "lease expired" (times row).1).toRow⟩ ∈
        failures db now times (lapsedRows env db now) :=
      failureWrites_subset hdue h List.mem_cons_self
    have hnodup : ((failures db now times (lapsedRows env db now)).map Write.address).Nodup :=
      nodup_failures sound (apart_lapsedRows sound env now)
    have hfound : E.get (E.applyWrites db (failures db now times (lapsedRows env db now))) .steps
        (row.fromRow.failedFor "lease expired" (times row).1).toRow.key =
          some (row.fromRow.failedFor "lease expired" (times row).1).toRow :=
      E.get_applyWrites_mem hnodup hw
    have hkey : (row.fromRow.failedFor "lease expired" (times row).1).toRow.key = row.key := by
      rw [WorkflowStepExecution.key_toRow_text, (sound.encoded.step_row hold).2.2]
      rfl
    rw [hkey] at hfound
    rw [← Option.some_inj.mp (hget.symm.trans hfound)] at hw
    exact absurd hw hnot
  | none =>
    have hdefs : ∀ k, E.get (E.applyWrites db (failures db now times (lapsedRows env db now)))
        .definitions k = E.get db .definitions k := by
      intro k
      refine E.get_applyWrites_other fun w hw haddress => ?_
      obtain ⟨row', -, hw⟩ := List.mem_flatMap.mp hw
      exact not_ofExecution_definition (haddress ▸ ofExecution_failureOf hw)
    have hexec : E.get (E.applyWrites db (failures db now times (lapsedRows env db now)))
        .executions row.workflowExecutionId = E.get db .executions row.workflowExecutionId := by
      refine E.get_applyWrites_other fun w hw haddress => ?_
      obtain ⟨row', hrow', hw⟩ := List.mem_flatMap.mp hw
      obtain ⟨hmem', hdue⟩ := List.mem_filter.mp hrow'
      have hplain' := (sound.encoded.step_row ((apart_runningRows sound env).found row' hmem')).2.1
      have hid : row'.workflowExecutionId = row.workflowExecutionId :=
        (ofExecution_failureOf hw).unique (.inl haddress) hplain' hplain
      have hsame : row' = row :=
        List.inj_on_of_nodup_map (apart_runningRows sound env).ids hmem' hmem hid
      rw [hsame, h] at hdue
      cases hdue
    rw [lapsed_congr hexec hdefs, h]

def executionStatus (db : E.Db) (id : String) : Option WorkflowExecutionStatus :=
  (E.get db .executions id).map fun row => row.fromRow.status

def statusCounts (db : E.Db) (l : List WorkflowStepExecutionRow) : SweepResult where
  retriedCount :=
    (l.filter fun row => executionStatus db row.workflowExecutionId = some .running).length
  failedCount :=
    (l.filter fun row => executionStatus db row.workflowExecutionId = some .failed).length

theorem statusCounts_perm {l' : List WorkflowStepExecutionRow} (h : l.Perm l') :
    statusCounts db l = statusCounts db l' := by
  rw [statusCounts, statusCounts, (h.filter _).length_eq, (h.filter _).length_eq]

theorem status_after (sound : Sound db) (apart : Apart db rows) (hrow : row ∈ rows)
    (h : lapsed db now row = some (e, d)) :
    executionStatus (E.applyWrites db (failures db now times rows)) row.workflowExecutionId =
      some (if e.Retries d then .running else .failed) := by
  have hrunning : e.status = .running := (lapsed_current sound (apart.found row hrow) h).2.2
  rw [executionStatus, execution_after sound apart hrow h]
  split_ifs
  · rw [Option.map_some, WorkflowExecution.fromRow_toRow]
    exact congrArg some hrunning
  · rw [Option.map_some, WorkflowExecution.fromRow_toRow]
    rfl

theorem sweepCounts_eq (sound : Sound db) (apart : Apart db rows)
    (hdue : ∀ row ∈ rows, ∃ e d, lapsed db now row = some (e, d)) :
    sweepCounts db now rows =
      statusCounts (E.applyWrites db (failures db now times rows)) rows := by
  rw [sweepCounts, statusCounts]
  congr 2
  · refine List.filter_congr fun row hrow => ?_
    obtain ⟨e, d, h⟩ := hdue row hrow
    rw [status_after sound apart hrow h, retriedBy, h]
    by_cases hretries : e.Retries d <;> simp [hretries]
  · refine List.filter_congr fun row hrow => ?_
    obtain ⟨e, d, h⟩ := hdue row hrow
    rw [status_after sound apart hrow h, failedBy, h]
    by_cases hretries : e.Retries d <;> simp [hretries]

/-- The places that failing the attempt writes: its own, that of its execution, and that of the
attempt which the execution waits for then. -/
def Rewrites (db' : E.Db) (row : WorkflowStepExecutionRow) (a : schema.Address) : Prop :=
  a = ⟨.steps, row.key⟩ ∨ a = ⟨.executions, row.workflowExecutionId⟩ ∨
    ∃ e : WorkflowExecutionRow, E.get db' .executions row.workflowExecutionId = some e ∧
      e.fromRow.status = .running ∧ a = ⟨.steps, e.fromRow.currentKey.text⟩

theorem rewrites_failures {w : Write schema} (sound : Sound db) (apart : Apart db rows)
    (hw : w ∈ failures db now times rows) : ∃ row ∈ rows,
      Rewrites (E.applyWrites db (failures db now times rows)) row w.address := by
  obtain ⟨row, hrow, hw⟩ := List.mem_flatMap.mp hw
  obtain ⟨e, d, h, hw⟩ := mem_failureOf hw
  obtain ⟨-, -, hrunning⟩ := lapsed_current sound (apart.found row hrow) h
  refine ⟨row, hrow, ?_⟩
  rcases mem_failureWrites hw with haddress | haddress | ⟨hretries, haddress⟩
  · rw [WorkflowStepExecution.key_toRow_text,
      ← (sound.encoded.step_row (apart.found row hrow)).2.2] at haddress
    exact .inl haddress
  · exact .inr (.inl (lapsed_id h ▸ haddress))
  · have hexec : E.get (E.applyWrites db (failures db now times rows)) .executions
        row.workflowExecutionId = _ := execution_after sound apart hrow h
    rw [if_pos hretries] at hexec
    refine .inr (.inr ⟨e.retried.toRow, hexec, ?_, ?_⟩)
    · rw [WorkflowExecution.fromRow_toRow]
      exact hrunning
    · rw [WorkflowExecution.fromRow_toRow]
      exact haddress

/-- The call does to the store what failing the attempts does, and nothing else. -/
structure FailsEach (db : E.Db) (c : Call) (l : List WorkflowStepExecutionRow) : Prop where
  alike : ∀ xs : List (WorkflowStepExecutionRow × Environment), xs.map Prod.fst = l →
    ∃ db', Systems.Run FailsExpired db xs db' ∧ Engine.Alike forgetClock (c.after db) db'
  others : ∀ t k, (∀ row ∈ l, ¬ Rewrites (c.after db) row ⟨t, k⟩) →
    E.get (c.after db) t k = E.get db t k
  executions : (l.map WorkflowStepExecutionRow.workflowExecutionId).Nodup
  counted : c.result db = .ok (.swept (statusCounts (c.after db) l))

theorem sweep_failsEach (sound : Sound db) (defined : StepsDefined db)
    (hop : c.operation = .sweepExpiredLeases) (h : AllOverdue db c.now l) : FailsEach db c l := by
  obtain ⟨hresult, times, hafter⟩ :=
    sweep_lapsedRows sound hop fun row _ => defined.defined c.now row
  have apart := apart_lapsedRows sound c.env c.now
  have hperm : l.Perm (lapsedRows c.env db c.now) :=
    h.perm (allOverdue_lapsedRows sound c.env c.now)
  have hdue : ∀ row ∈ l, ∃ e d, lapsed db c.now row = some (e, d) :=
    fun row hrow => (h.lapsed sound c.env hrow).2
  have apart' : Apart db l := apart.of_subset (fun row hrow => hperm.mem_iff.mp hrow) h.nodup
  constructor
  · intro xs hxs
    have hmem : ∀ x ∈ xs, x.1 ∈ l := fun x hx => hxs ▸ List.mem_map.mpr ⟨x, hx, rfl⟩
    have hsame : ∀ x ∈ xs, lapsed db c.now x.1 = lapsed db c.now x.1 ∧
        E.get db .steps x.1.key = some x.1 := fun x hx => ⟨rfl, apart'.found x.1 (hmem x hx)⟩
    obtain ⟨times', hrun⟩ := failsExpired_run sound (hxs ▸ apart') (fun x hx => hdue x.1 (hmem x hx))
      (defined.defined c.now) hsame
    refine ⟨_, hrun, ?_⟩
    rw [hafter, hxs]
    exact (alike_of_perm sound apart' hperm).symm
  · intro t k hnot
    rw [hafter] at hnot ⊢
    refine E.get_applyWrites_other fun w hw haddress => ?_
    obtain ⟨row, hrow, hrewrites⟩ := rewrites_failures sound apart hw
    exact hnot row (hperm.mem_iff.mpr hrow) (haddress ▸ hrewrites)
  · exact apart'.ids
  · have hdue' : ∀ row ∈ lapsedRows c.env db c.now, ∃ e d, lapsed db c.now row = some (e, d) :=
      fun row hrow => hdue row (hperm.mem_iff.mpr hrow)
    have hcounts : sweepCounts db c.now (lapsedRows c.env db c.now) =
        statusCounts (E.applyWrites db (failures db c.now times (lapsedRows c.env db c.now)))
          (lapsedRows c.env db c.now) := sweepCounts_eq sound apart hdue'
    rw [hresult, hcounts, ← hafter, statusCounts_perm hperm]

theorem sweep_order (sound : Sound db) (defined : StepsDefined db)
    (hop : c.operation = .sweepExpiredLeases) (hop' : c'.operation = .sweepExpiredLeases)
    (hnow : c'.now = c.now) :
    c'.result db = c.result db ∧ Engine.Alike forgetClock (c.after db) (c'.after db) := by
  obtain ⟨hresult, times, hafter⟩ :=
    sweep_lapsedRows sound hop fun row _ => defined.defined c.now row
  obtain ⟨hresult', times', hafter'⟩ :=
    sweep_lapsedRows sound hop' fun row _ => defined.defined c'.now row
  rw [hnow] at hresult' hafter'
  have hperm : (lapsedRows c.env db c.now).Perm (lapsedRows c'.env db c.now) :=
    (allOverdue_lapsedRows sound c.env c.now).perm (allOverdue_lapsedRows sound c'.env c.now)
  constructor
  · have hcounts : sweepCounts db c.now (lapsedRows c'.env db c.now) =
        sweepCounts db c.now (lapsedRows c.env db c.now) := by
      rw [sweepCounts, sweepCounts, (hperm.filter _).length_eq, (hperm.filter _).length_eq]
    rw [hresult', hcounts, hresult]
  · rw [hafter, hafter']
    exact alike_of_perm sound (apart_lapsedRows sound c.env c.now) hperm

/-- A second sweep at the same time finds nothing to do. -/
theorem sweep_again (sound : Sound db) (defined : StepsDefined db)
    (hop : c.operation = .sweepExpiredLeases) (hop' : c'.operation = .sweepExpiredLeases)
    (hnow : c'.now = c.now) :
    c'.result (c.after db) = .ok (.swept {}) ∧ c'.after (c.after db) = c.after db := by
  obtain ⟨-, times, hafter⟩ := sweep_lapsedRows sound hop fun row _ => defined.defined c.now row
  have fresh : c.Fresh db := Call.fresh_of_not_start fun name version input hstart => by
    rw [hop] at hstart
    cases hstart
  have sound' : Sound (c.after db) := Call.Step.sound ⟨fresh, rfl⟩ sound
  have hnone : ∀ row ∈ runningRows c'.env (c.after db), lapsed (c.after db) c'.now row = none := by
    intro row hrow
    obtain ⟨hget, hrunning⟩ := (mem_runningRows sound').mp hrow
    rw [hnow]
    rw [hafter] at hget ⊢
    exact lapsed_after sound hget hrunning
  have hempty : lapsedRows c'.env (c.after db) c'.now = [] := by
    refine List.filter_eq_nil_iff.mpr fun row hrow => ?_
    simp [hnone row hrow]
  obtain ⟨hresult', times', hafter'⟩ := sweep_lapsedRows sound' hop' fun row hrow e d hlapsed => by
    rw [hnone row hrow] at hlapsed
    cases hlapsed
  rw [hempty] at hresult' hafter'
  exact ⟨hresult', hafter'⟩

end Sweep

/-- Where the registered definitions have the steps in use, a sweep is the failure of each attempt
that is due, by what `failStep` does after its checks. A second sweep does nothing. -/
theorem sweep_fails_each {c : Call} (reachable : Reachable E db) (defined : StepsDefined db)
    (hop : c.operation = .sweepExpiredLeases) :
    (∀ (env : Environment) (row : WorkflowStepExecutionRow) (workerId : String) (db₁ db₂ : E.Db),
      (∃ r, atomic env (failStep row.workflowExecutionId row.stepName workerId "lease expired") db₁ =
        (.ok r, db₂)) ↔
      (row.workflowExecutionId ≠ "" ∧ row.stepName ≠ "" ∧ workerId ≠ "" ∧
        ClaimHeld env db₁ row.workflowExecutionId row.stepName workerId) ∧
      FailsExpired db₁ (row, env.later) db₂) ∧
    (∃ l, AllOverdue db c.now l) ∧ (∀ l, AllOverdue db c.now l → FailsEach db c l) ∧
    ∀ c' : Call, c'.operation = .sweepExpiredLeases → c'.now = c.now →
      (c'.result db = c.result db ∧ Engine.Alike forgetClock (c.after db) (c'.after db)) ∧
      c'.result (c.after db) = .ok (.swept {}) ∧ c'.after (c.after db) = c.after db := by
  have sound := reachable.sound
  refine ⟨fun env row workerId db₁ db₂ => ?_,
    ⟨_, allOverdue_lapsedRows sound c.env c.now⟩, fun l h => sweep_failsEach sound defined hop h,
    fun c' hop' hnow =>
      ⟨sweep_order sound defined hop hop' hnow, sweep_again sound defined hop hop' hnow⟩⟩
  simp only [failStep_performs, exists_and_left, FailsExpired]

theorem Ledger.Placed.stepsDefined (placed : Placed (view db)) : StepsDefined db :=
  fun id e _ he hr hd => placed.current id e.fromRow _ (view_execution.mpr ⟨e, he, rfl⟩) hr
    (Encoded.definition (k := e.fromRow.versionKey) hd)

noncomputable def Sample.twoShippings : List Call :=
  let started := [register (oneStepDefinition "ship" "PT30S"), start 1000000 0, start 1500000 1]
  started ++ [⟨.pollAndClaimWorkflowSteps "order" 1 "first" 2,
    scripted 2000000 0 (script 0 "ship" started ++ script 1 "ship" started) {}⟩]

noncomputable def Sample.twoExpired : Call :=
  sweep 20000000000 (script 1 "ship" twoShippings ++ script 0 "ship" twoShippings)

theorem kept_twoShippings : Kept Sample.store Sample.store.empty Sample.twoShippings
    (Sample.after Sample.twoShippings) := by
  have run : Calls Sample.store Sample.store.empty Sample.twoShippings
      (Sample.after Sample.twoShippings) := calls_play (by decide +kernel)
  have hsplit : Sample.twoShippings = Sample.register (oneStepDefinition "ship" "PT30S") ::
      Sample.twoShippings.tail := rfl
  generalize Sample.after Sample.twoShippings = db at run ⊢
  rw [hsplit] at run ⊢
  refine kept_of_registration (fun c hc => ?_) run
  simp only [Sample.twoShippings, List.cons_append, List.nil_append, List.tail_cons, List.mem_cons,
    List.not_mem_nil, or_false] at hc
  rcases hc with rfl | rfl | rfl
  · nofun
  · nofun
  · nofun

theorem sweep_fails_each_shipping : ∃ l : List WorkflowStepExecutionRow, l.length = 2 ∧
    FailsEach (Sample.after Sample.twoShippings) Sample.twoExpired l := by
  have kept := kept_twoShippings
  have hop : Sample.twoExpired.operation = .sweepExpiredLeases := rfl
  have htwo : (lapsedRows Sample.twoExpired.env (Sample.after Sample.twoShippings)
      Sample.twoExpired.now).length = 2 := by
    decide +kernel
  generalize Sample.twoExpired = sweep at hop htwo ⊢
  generalize Sample.after Sample.twoShippings = db at kept htwo ⊢
  obtain ⟨sound, placed⟩ := kept.placed
  have reachable : Reachable Sample.store db := ⟨_, kept.imp fun _ _ _ _ step => step.1⟩
  exact ⟨_, htwo, (sweep_fails_each reachable placed.stepsDefined hop).2.2.1 _
    (allOverdue_lapsedRows sound sweep.env sweep.now)⟩

end WorkflowEngine
