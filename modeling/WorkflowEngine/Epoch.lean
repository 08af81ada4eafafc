import WorkflowEngine.RowShapes
import WorkflowEngine.Staging
import WorkflowEngine.Txn.Contract

/-!
# Rows of a clock that counts from the epoch

A time stamp comes back from the store as it is once it has come back from it
before, if the clock never reads a time before its epoch. The step rows of a
reachable store are therefore read and written back unchanged, and the
definitions in it have names and versions.
-/

namespace WorkflowEngine
open Txn Txn.Program Orchestrator

/-- The record can be read back from its row again and again. -/
structure WorkflowStepExecution.Lasting (s : WorkflowStepExecution) : Prop where
  leaseExpiresAt : ∀ t ∈ s.leaseExpiresAt, Iso8601.stored (Iso8601.stored t) = Iso8601.stored t
  createdAt : ∀ t ∈ s.createdAt, Iso8601.stored (Iso8601.stored t) = Iso8601.stored t
  scheduledAt : ∀ t ∈ s.scheduledAt, Iso8601.stored (Iso8601.stored t) = Iso8601.stored t
  startedAt : ∀ t ∈ s.startedAt, Iso8601.stored (Iso8601.stored t) = Iso8601.stored t
  completedAt : ∀ t ∈ s.completedAt, Iso8601.stored (Iso8601.stored t) = Iso8601.stored t

theorem storedTime_storedTime {value : Option TimePoint}
    (h : ∀ t ∈ value, Iso8601.stored (Iso8601.stored t) = Iso8601.stored t) :
    storedTime (storedTime value) = storedTime value := by
  cases value with
  | none => rfl
  | some t => exact congrArg some (h t rfl)

theorem lasting_of_storedTime {value : Option TimePoint} (h : storedTime value = value) :
    ∀ t ∈ value, Iso8601.stored (Iso8601.stored t) = Iso8601.stored t := by
  intro t ht
  rw [Option.mem_def.mp ht] at h
  exact congrArg Iso8601.stored (Option.some_inj.mp h)

namespace WorkflowStepExecution
variable {s : WorkflowStepExecution}

theorem Lasting.stored (h : s.Lasting) : s.stored.stored = s.stored := by
  simp only [WorkflowStepExecution.stored, storedTime_storedTime h.leaseExpiresAt,
    storedTime_storedTime h.createdAt, storedTime_storedTime h.scheduledAt,
    storedTime_storedTime h.startedAt, storedTime_storedTime h.completedAt]

theorem lasting_of_stored (h : s.stored = s) : s.Lasting where
  leaseExpiresAt := lasting_of_storedTime (congrArg WorkflowStepExecution.leaseExpiresAt h)
  createdAt := lasting_of_storedTime (congrArg WorkflowStepExecution.createdAt h)
  scheduledAt := lasting_of_storedTime (congrArg WorkflowStepExecution.scheduledAt h)
  startedAt := lasting_of_storedTime (congrArg WorkflowStepExecution.startedAt h)
  completedAt := lasting_of_storedTime (congrArg WorkflowStepExecution.completedAt h)

end WorkflowStepExecution

theorem lasting_of_nonneg {value : Option TimePoint} (h : ∀ t ∈ value, 0 ≤ t) :
    ∀ t ∈ value, Iso8601.stored (Iso8601.stored t) = Iso8601.stored t :=
  fun t ht => Iso8601.stored_stored (h t ht)

theorem lasting_some {now : TimePoint} (h : 0 ≤ now) :
    ∀ t ∈ some now, Iso8601.stored (Iso8601.stored t) = Iso8601.stored t :=
  lasting_of_nonneg fun _ ht => Option.mem_some_iff.mp ht ▸ h

theorem WorkflowStepExecution.Lasting.ended {s s' : WorkflowStepExecution} {at_ : TimePoint}
    (h : s.Lasting) (hat : 0 ≤ at_)
    (hs : s' = { s with
      status := s'.status, workerId := s'.workerId, failureReason := s'.failureReason
      output := s'.output, leaseExpiresAt := none, completedAt := some at_ } := by rfl) :
    s'.Lasting := by
  rw [hs]
  exact ⟨by simp, h.createdAt, h.scheduledAt, h.startedAt, lasting_some hat⟩

def fromEpoch : Contract schema Question Question.Answer where
  row
    | .definitions, row => row.fromRow.workflowName ≠ "" ∧ ¬ row.fromRow.workflowVersion < 1
    | .steps, row => row.fromRow.stored = row.fromRow
    | .executions, _ => True
    | .singletonLocks, _ => True
  answer
    | .clock, now => (0 : ℤ) ≤ now
    | .draw, _ => True
    | .reserve _, _ => True
    | .decideNextStep _, _ => True

theorem TimePoint.addSeconds_nonneg {t : TimePoint} {s : Seconds} (ht : 0 ≤ t) (hs : 0 ≤ s) :
    0 ≤ t.addSeconds s :=
  Int.add_nonneg ht (Int.mul_nonneg hs (by decide))

theorem keeps_nowForStorage : Keeps fromEpoch (fun now => (0 : ℤ) ≤ now) nowForStorage :=
  keeps_demand Question.clock

theorem keeps_getStep (k : String) :
    Keeps fromEpoch (fun r => ∀ row ∈ r, row.fromRow.Lasting) (getStep k) :=
  (keeps_read (σ := schema) .steps k).imp fun _ hr _ hrow =>
    WorkflowStepExecution.lasting_of_stored (hr _ hrow)

theorem keeps_querySteps (q : QuerySpec) :
    Keeps fromEpoch (fun rows => ∀ row ∈ rows, row.fromRow.Lasting) (querySteps q) :=
  (keeps_find (σ := schema) .steps q).imp fun _ hrows _ hrow =>
    WorkflowStepExecution.lasting_of_stored (hrows _ hrow)

theorem keeps_putStep {s : WorkflowStepExecution} (h : s.Lasting) :
    Keeps fromEpoch (fun _ => True) (putStep s.toRow) := by
  refine keeps_store (σ := schema) (t := .steps) ?_
  change s.toRow.fromRow.stored = s.toRow.fromRow
  rw [s.fromRow_toRow]
  exact h.stored

theorem keeps_putExecution (row : WorkflowExecutionRow) :
    Keeps fromEpoch (fun _ => True) (putExecution row) := ⟨trivial, trivial⟩

theorem keeps_makeStepExecution (e : WorkflowExecution) (name : String) (attempt : Int32)
    (input : Json) {scheduledAt : Option TimePoint} (h : ∀ t ∈ scheduledAt, 0 ≤ t) :
    Keeps fromEpoch WorkflowStepExecution.Lasting
      (makeStepExecution e name attempt input scheduledAt) := by
  refine keeps_nowForStorage.bind fun createdAt hcreated => ?_
  exact keeps_pure ⟨nofun, lasting_some hcreated, lasting_of_nonneg h, nofun, nofun⟩

theorem keeps_validateWorkflowNameAndVersion (name : String) (version : Int32) :
    Keeps fromEpoch (fun _ => name ≠ "" ∧ ¬ version < 1)
      (validateWorkflowNameAndVersion name version) := by
  refine (keeps_throwIf _ _).bind fun _ hname => ?_
  exact (keeps_throwIf _ _).imp fun _ hversion => ⟨hname, hversion⟩

theorem keeps_getClaimedStep (e : WorkflowExecution) (id name workerId : String) :
    Keeps fromEpoch WorkflowStepExecution.Lasting (getClaimedStep e id name workerId) := by
  refine (keeps_getStep _).bind fun found hfound => ?_
  refine (keeps_orThrow found _).bind fun row hrow => ?_
  exact (readOnly_validateClaimOwnership _ _).keeps.bind fun _ _ =>
    keeps_pure (hfound row (Option.mem_def.mpr hrow))

theorem keeps_registerWorkflowDefinition (d : WorkflowDefinition) :
    Keeps fromEpoch (fun _ => True) (registerWorkflowDefinition d) := by
  refine (keeps_validateWorkflowNameAndVersion _ _).bind fun _ hnamed => ?_
  refine (keeps_store (σ := schema) (t := .definitions) ?_).bind fun _ _ => keeps_pure trivial
  change d.toRow.fromRow.workflowName ≠ "" ∧ ¬ d.toRow.fromRow.workflowVersion < 1
  rw [d.fromRow_toRow]
  exact hnamed

theorem keeps_takeSingletonLock (singleton : Bool) (e : WorkflowExecution) :
    Keeps fromEpoch (fun _ => True) (takeSingletonLock singleton e) := by
  cases singleton with
  | false => exact keeps_pure trivial
  | true =>
    refine (readOnly_getLock _).keeps.bind fun lock _ => ?_
    refine (readOnly_checkSingletonLock _ _).keeps.bind fun _ _ => ?_
    exact keeps_store (σ := schema) (t := .singletonLocks) trivial

theorem keeps_startWorkflow (name : String) (version : Int32) (input : Json) :
    Keeps fromEpoch (fun _ => True) (startWorkflow name version input) := by
  refine (readOnly_validateWorkflowNameAndVersion _ _).keeps.bind fun _ _ => ?_
  refine (readOnly_getDefinition _).keeps.bind fun found _ => ?_
  refine (readOnly_orThrow found _).keeps.bind fun row _ => ?_
  refine readOnly_generateExecutionId.keeps.bind fun id _ => ?_
  refine keeps_nowForStorage.bind fun startedAt _ => ?_
  refine (keeps_takeSingletonLock _ _).bind fun _ _ => ?_
  refine (keeps_putExecution _).bind fun _ _ => ?_
  refine (keeps_makeStepExecution _ _ _ _ (by simp)).bind fun first hfirst => ?_
  exact (keeps_putStep hfirst).bind fun _ _ => keeps_pure trivial

theorem keeps_claimStep (d : WorkflowDefinition) (workerId : String) {now : TimePoint}
    (hnow : 0 ≤ now) (claimed : List WorkflowStepExecution)
    {found : Option WorkflowStepExecutionRow} (hfound : ∀ row ∈ found, row.fromRow.Lasting) :
    Keeps fromEpoch (fun _ => True) (claimStep d workerId now claimed found) := by
  cases found with
  | none => exact keeps_pure trivial
  | some row =>
    have h := hfound row rfl
    simp only [claimStep]
    split_ifs
    · refine (keeps_lift _).bind fun step _ => ?_
      refine (keeps_lift _).bind fun lease hlease => ?_
      have hdeadline := TimePoint.addSeconds_nonneg hnow (Int.le_of_lt (one_le_lease hlease))
      refine (keeps_putStep ?_).bind fun _ _ => keeps_pure trivial
      exact ⟨lasting_some hdeadline, h.createdAt, h.scheduledAt, lasting_some hnow, h.completedAt⟩
    · exact keeps_pure trivial

theorem keeps_claimSteps (d : WorkflowDefinition) (workerId : String) {now : TimePoint}
    (hnow : 0 ≤ now) (maxResults : ℕ) (claimed candidates : List WorkflowStepExecution) :
    Keeps fromEpoch (fun _ => True) (claimSteps d workerId now maxResults claimed candidates) := by
  induction candidates generalizing claimed with
  | nil => exact keeps_pure trivial
  | cons c candidates ih =>
    rw [claimSteps]
    split_ifs
    · exact keeps_pure trivial
    · refine (keeps_getStep _).bind fun found hfound => ?_
      exact (keeps_claimStep d workerId hnow claimed hfound).bind fun claimed _ => ih claimed

theorem keeps_pollAndClaimWorkflowSteps (name : String) (version : Int32) (workerId : String)
    (maxResults : ℕ) :
    Keeps fromEpoch (fun _ => True) (pollAndClaimWorkflowSteps name version workerId maxResults) := by
  refine (readOnly_validateWorkflowNameAndVersion _ _).keeps.bind fun _ _ => ?_
  refine (readOnly_validateWorkerId _).keeps.bind fun _ _ => ?_
  refine (readOnly_throwIf _ _).keeps.bind fun _ _ => ?_
  refine (readOnly_getDefinition _).keeps.bind fun found _ => ?_
  refine (readOnly_orThrow found _).keeps.bind fun row _ => ?_
  refine keeps_nowForStorage.bind fun now hnow => ?_
  refine (readOnly_querySteps _).keeps.bind fun pending _ => ?_
  refine (readOnly_querySteps _).keeps.bind fun running _ => ?_
  refine (readOnly_reserve _).keeps.bind fun _ _ => ?_
  exact keeps_claimSteps _ _ hnow _ _ _

theorem keeps_keepAliveStep (id name workerId : String) :
    Keeps fromEpoch (fun _ => True) (keepAliveStep id name workerId) := by
  refine (readOnly_validateExecutionId _).keeps.bind fun _ _ => ?_
  refine (readOnly_validateStepName _).keeps.bind fun _ _ => ?_
  refine (readOnly_validateWorkerId _).keeps.bind fun _ _ => ?_
  refine (readOnly_getCurrentExecution _ _).keeps.bind fun e _ => ?_
  refine (readOnly_getDefinitionOf _).keeps.bind fun d _ => ?_
  refine (keeps_getClaimedStep _ _ _ _).bind fun s hs => ?_
  refine (keeps_lift _).bind fun step _ => ?_
  refine keeps_nowForStorage.bind fun now hnow => ?_
  refine (keeps_lift _).bind fun lease hlease => ?_
  have hdeadline := TimePoint.addSeconds_nonneg hnow (Int.le_of_lt (one_le_lease hlease))
  refine (keeps_putStep ?_).bind fun _ _ => keeps_pure trivial
  exact ⟨lasting_some hdeadline, hs.createdAt, hs.scheduledAt, hs.startedAt, hs.completedAt⟩

theorem keeps_scheduleAfter {delay : Option Seconds} (h : ∀ d ∈ delay, 0 ≤ d) :
    Keeps fromEpoch (fun scheduledAt => ∀ t ∈ scheduledAt, 0 ≤ t) (scheduleAfter delay) := by
  cases delay with
  | none => exact keeps_pure nofun
  | some delay =>
    refine keeps_nowForStorage.bind fun now hnow => keeps_pure ?_
    intro t ht
    exact Option.mem_some_iff.mp ht ▸ TimePoint.addSeconds_nonneg hnow (h delay rfl)

theorem keeps_advance (d : WorkflowDefinition) (e : WorkflowExecution) (decision : NextStepDecision)
    {delay : Option Seconds} (h : ∀ d ∈ delay, 0 ≤ d) :
    Keeps fromEpoch (fun _ => True) (advance d e decision delay) := by
  refine (readOnly_orThrow _ _).keeps.bind fun next _ => ?_
  refine (readOnly_throwIf _ _).keeps.bind fun _ _ => ?_
  refine (keeps_putExecution _).bind fun _ _ => ?_
  refine (keeps_scheduleAfter h).bind fun scheduledAt hscheduled => ?_
  refine (keeps_makeStepExecution _ _ _ _ hscheduled).bind fun s hs => ?_
  exact (keeps_putStep hs).bind fun _ _ => keeps_pure trivial

theorem keeps_completeStep (id name workerId : String) (output : Json) (delay : Option Seconds) :
    Keeps fromEpoch (fun _ => True) (completeStep id name workerId output delay) := by
  refine (readOnly_validateExecutionId _).keeps.bind fun _ _ => ?_
  refine (readOnly_validateStepName _).keeps.bind fun _ _ => ?_
  refine (readOnly_validateWorkerId _).keeps.bind fun _ _ => ?_
  refine (keeps_throwIf _ _).bind fun _ hdelay => ?_
  have hpositive : ∀ d ∈ delay, 0 ≤ d :=
    fun d hd => (not_le.mp fun hle => hdelay ⟨d, hd, hle⟩).le
  refine (readOnly_getCurrentExecution _ _).keeps.bind fun e _ => ?_
  refine (keeps_getClaimedStep _ _ _ _).bind fun s hs => ?_
  refine (readOnly_getDefinitionOf _).keeps.bind fun d _ => ?_
  refine (readOnly_decideNextStep _).keeps.bind fun decision _ => ?_
  refine keeps_nowForStorage.bind fun completedAt hcompleted => ?_
  refine (keeps_putStep (hs.ended hcompleted)).bind fun _ _ => ?_
  split_ifs
  · refine keeps_nowForStorage.bind fun at_ _ => ?_
    exact (keeps_putExecution _).bind fun _ _ => keeps_pure trivial
  · exact keeps_advance d _ decision hpositive

theorem keeps_failStep (id name workerId reason : String) :
    Keeps fromEpoch (fun _ => True) (failStep id name workerId reason) := by
  refine (readOnly_validateExecutionId _).keeps.bind fun _ _ => ?_
  refine (readOnly_validateStepName _).keeps.bind fun _ _ => ?_
  refine (readOnly_validateWorkerId _).keeps.bind fun _ _ => ?_
  refine (readOnly_getCurrentExecution _ _).keeps.bind fun e _ => ?_
  refine (keeps_getClaimedStep _ _ _ _).bind fun s hs => ?_
  refine (readOnly_getDefinitionOf _).keeps.bind fun d _ => ?_
  refine (keeps_lift _).bind fun step _ => ?_
  refine keeps_nowForStorage.bind fun completedAt hcompleted => ?_
  refine (keeps_putStep (hs.ended hcompleted)).bind fun _ _ => ?_
  split_ifs
  · refine (keeps_putExecution _).bind fun _ _ => ?_
    refine (keeps_makeStepExecution _ _ _ _ (by simp)).bind fun retry hretry => ?_
    exact (keeps_putStep hretry).bind fun _ _ => keeps_pure trivial
  · refine keeps_nowForStorage.bind fun at_ _ => ?_
    exact (keeps_putExecution _).bind fun _ _ => keeps_pure trivial

theorem keeps_cancelSteps {now : TimePoint} (hnow : 0 ≤ now) {rows : List WorkflowStepExecutionRow}
    (h : ∀ row ∈ rows, row.fromRow.Lasting) :
    Keeps fromEpoch (fun _ => True) (Orchestrator.cancelSteps now rows) := by
  induction rows with
  | nil => exact keeps_pure trivial
  | cons row rows ih =>
    have hrest := ih fun row' hrow' => h row' (List.mem_cons_of_mem row hrow')
    have hs := h row List.mem_cons_self
    simp only [Orchestrator.cancelSteps]
    split_ifs
    · exact (keeps_putStep (hs.ended hnow)).bind fun _ _ => hrest
    · exact hrest

theorem keeps_cancelWorkflow (id : String) :
    Keeps fromEpoch (fun _ => True) (cancelWorkflow id) := by
  refine (readOnly_validateExecutionId _).keeps.bind fun _ _ => ?_
  refine (readOnly_getExecution _).keeps.bind fun found _ => ?_
  refine (readOnly_orThrow found _).keeps.bind fun row _ => ?_
  refine (readOnly_throwIf _ _).keeps.bind fun _ _ => ?_
  refine keeps_nowForStorage.bind fun now hnow => ?_
  refine (keeps_querySteps _).bind fun rows hrows => ?_
  refine (keeps_cancelSteps hnow hrows).bind fun _ _ => ?_
  exact (keeps_putExecution _).bind fun _ _ => keeps_pure trivial

theorem keeps_failExpiredStep {now : TimePoint} (hnow : 0 ≤ now) (result : SweepResult)
    {s : WorkflowStepExecution} (hs : s.Lasting) (e : WorkflowExecution) (d : WorkflowDefinition) :
    Keeps fromEpoch (fun _ => True) (failExpiredStep now result s e d) := by
  refine (keeps_lift _).bind fun step _ => ?_
  refine (keeps_putStep (hs.ended hnow)).bind fun _ _ => ?_
  split_ifs
  · refine (keeps_putExecution _).bind fun _ _ => ?_
    refine (keeps_makeStepExecution _ _ _ _ (by simp)).bind fun retry hretry => ?_
    exact (keeps_putStep hretry).bind fun _ _ => keeps_pure trivial
  · exact (keeps_putExecution _).bind fun _ _ => keeps_pure trivial

theorem keeps_sweepStep {now : TimePoint} (hnow : 0 ≤ now) (result : SweepResult)
    {row : WorkflowStepExecutionRow} (hs : row.fromRow.Lasting) :
    Keeps fromEpoch (fun _ => True) (sweepStep now result row) := by
  simp only [sweepStep]
  split_ifs
  · exact keeps_pure trivial
  · refine (readOnly_getExecution _).keeps.bind fun found _ => ?_
    cases found with
    | none => exact keeps_pure trivial
    | some execution =>
      dsimp only
      split_ifs
      · exact keeps_pure trivial
      · exact keeps_pure trivial
      · refine (readOnly_getDefinition _).keeps.bind fun found _ => ?_
        cases found with
        | none => exact keeps_pure trivial
        | some definition => exact keeps_failExpiredStep hnow result hs _ _

theorem keeps_sweepSteps {now : TimePoint} (hnow : 0 ≤ now) (result : SweepResult)
    {rows : List WorkflowStepExecutionRow} (h : ∀ row ∈ rows, row.fromRow.Lasting) :
    Keeps fromEpoch (fun _ => True) (sweepSteps now result rows) := by
  induction rows generalizing result with
  | nil => exact keeps_pure trivial
  | cons row rows ih =>
    refine (keeps_sweepStep hnow result (h row List.mem_cons_self)).bind fun result _ => ?_
    exact ih result fun row' hrow' => h row' (List.mem_cons_of_mem row hrow')

theorem keeps_sweepExpiredLeases : Keeps fromEpoch (fun _ => True) sweepExpiredLeases := by
  refine keeps_nowForStorage.bind fun now hnow => ?_
  exact (keeps_querySteps _).bind fun rows hrows => keeps_sweepSteps hnow {} hrows

theorem Operation.keeps (op : Operation) : Keeps fromEpoch (fun _ => True) op.program := by
  cases op with
  | registerWorkflowDefinition d =>
    exact (keeps_registerWorkflowDefinition d).bind fun _ _ => keeps_pure trivial
  | startWorkflow name version input =>
    exact (keeps_startWorkflow name version input).bind fun _ _ => keeps_pure trivial
  | pollAndClaimWorkflowSteps name version workerId maxResults =>
    exact (keeps_pollAndClaimWorkflowSteps name version workerId maxResults).bind
      fun _ _ => keeps_pure trivial
  | keepAliveStep id name workerId =>
    exact (keeps_keepAliveStep id name workerId).bind fun _ _ => keeps_pure trivial
  | completeStep id name workerId output delay =>
    exact (keeps_completeStep id name workerId output delay).bind fun _ _ => keeps_pure trivial
  | failStep id name workerId reason =>
    exact (keeps_failStep id name workerId reason).bind fun _ _ => keeps_pure trivial
  | cancelWorkflow id => exact (keeps_cancelWorkflow id).bind fun _ _ => keeps_pure trivial
  | sweepExpiredLeases => exact keeps_sweepExpiredLeases.bind fun _ _ => keeps_pure trivial

/-- What atomic calls make of the empty store when their clocks count from the epoch. -/
def ReachableFromEpoch (E : Engine schema) (db : E.Db) : Prop :=
  ∃ calls, Calls E E.empty calls db ∧ ∀ c ∈ calls, ∀ n, 0 ≤ c.reading n

variable {E : Engine schema} {db : E.Db}

theorem ReachableFromEpoch.reachable (h : ReachableFromEpoch E db) : Reachable E db := by
  obtain ⟨calls, run, -⟩ := h
  exact ⟨calls, run⟩

theorem ReachableFromEpoch.holds (h : ReachableFromEpoch E db) : fromEpoch.Holds db := by
  obtain ⟨calls, run, clock⟩ := h
  refine (run.always (I := fromEpoch.Holds) (P := fun c => ∀ n, 0 ≤ c.reading n) (Q := fun _ => True)
    ?_ clock (Contract.holds_empty _)).1
  intro db c db' hdb hclock hstep
  obtain ⟨-, rfl⟩ := hstep
  have hanswers : fromEpoch.Answers c.env := by
    intro n q
    cases q with
    | clock => exact hclock n
    | draw => trivial
    | reserve m => trivial
    | decideNextStep context => trivial
  exact ⟨c.operation.keeps.atomic hanswers hdb, trivial⟩

end WorkflowEngine
