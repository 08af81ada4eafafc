import WorkflowEngine.Simulation
import WorkflowEngine.Playback

/-!
# What a failed call leaves staged

The overloads that take a caller's transaction neither abort nor roll back, so
a call that throws leaves behind what it had put by then. Five operations check
everything before their first write. `completeStep` validates the routing
decision after it, and a poll or a sweep can throw for a later row of its loop.
-/

namespace WorkflowEngine
open Txn Txn.Program

variable {E : Engine schema} {env : Environment} {tx : Tx E}

namespace Orchestrator

@[simp] theorem readOnly_validateWorkflowNameAndVersion (name : String) (version : Int32) :
    ReadOnly (validateWorkflowNameAndVersion name version) :=
  (readOnly_throwIf _ _).bind fun _ => readOnly_throwIf _ _

@[simp] theorem readOnly_validateExecutionId (id : String) : ReadOnly (validateExecutionId id) :=
  readOnly_throwIf _ _

@[simp] theorem readOnly_validateWorkerId (workerId : String) :
    ReadOnly (validateWorkerId workerId) := readOnly_throwIf _ _

@[simp] theorem readOnly_validateStepName (name : String) : ReadOnly (validateStepName name) :=
  readOnly_throwIf _ _

@[simp] theorem readOnly_validateClaimOwnership (s : WorkflowStepExecution) (workerId : String) :
    ReadOnly (validateClaimOwnership s workerId) :=
  (readOnly_demand _).bind fun _ => (readOnly_throwIf _ _).bind fun _ =>
    (readOnly_orThrow _ _).bind fun _ => (readOnly_throwIf _ _).bind fun _ =>
      (readOnly_orThrow _ _).bind fun _ => readOnly_throwIf _ _

@[simp] theorem readOnly_getDefinition (k : String) : ReadOnly (getDefinition k) := readOnly_read _ _
@[simp] theorem readOnly_getExecution (k : String) : ReadOnly (getExecution k) := readOnly_read _ _
@[simp] theorem readOnly_getLock (k : String) : ReadOnly (getLock k) := readOnly_read _ _
@[simp] theorem readOnly_getStep (k : String) : ReadOnly (getStep k) := readOnly_read _ _
@[simp] theorem readOnly_querySteps (q : QuerySpec) : ReadOnly (querySteps q) := readOnly_find _ _
@[simp] theorem readOnly_nowForStorage : ReadOnly nowForStorage := readOnly_demand _

@[simp] theorem readOnly_reserve (n : ℕ) : ReadOnly (reserve n) :=
  (readOnly_demand _).bind fun _ => readOnly_lift _

@[simp] theorem readOnly_decideNextStep (context : StepCompletionContext) :
    ReadOnly (decideNextStep context) :=
  (readOnly_demand _).bind fun _ => readOnly_lift _

@[simp] theorem readOnly_generateExecutionId : ReadOnly generateExecutionId :=
  (readOnly_demand _).bind fun _ => (readOnly_demand _).bind fun _ =>
    (readOnly_demand _).bind fun _ => (readOnly_demand _).bind fun _ =>
      (readOnly_demand _).bind fun _ => (readOnly_demand _).bind fun _ => trivial

@[simp] theorem readOnly_getCurrentExecution (id name : String) :
    ReadOnly (getCurrentExecution id name) :=
  (readOnly_read _ _).bind fun _ => (readOnly_orThrow _ _).bind fun _ =>
    (readOnly_throwIf _ _).bind fun _ => (readOnly_throwIf _ _).bind fun _ => trivial

@[simp] theorem readOnly_getDefinitionOf (e : WorkflowExecution) : ReadOnly (getDefinitionOf e) :=
  (readOnly_read _ _).bind fun _ => (readOnly_orThrow _ _).bind fun _ => trivial

@[simp] theorem readOnly_getClaimedStep (e : WorkflowExecution) (id name workerId : String) :
    ReadOnly (getClaimedStep e id name workerId) :=
  (readOnly_read _ _).bind fun _ => (readOnly_orThrow _ _).bind fun _ =>
    (readOnly_validateClaimOwnership _ _).bind fun _ => trivial

@[simp] theorem readOnly_checkSingletonLock (name : String)
    (lock : Option WorkflowSingletonLockRow) : ReadOnly (checkSingletonLock name lock) := by
  cases lock with
  | none => trivial
  | some lock =>
    refine (readOnly_read _ _).bind fun found => ?_
    cases found with
    | none => trivial
    | some existing => exact readOnly_throwIf _ _

@[simp] theorem total_putDefinition (row : WorkflowDefinitionRow) : Total (putDefinition row) :=
  total_store _ _
@[simp] theorem total_putExecution (row : WorkflowExecutionRow) : Total (putExecution row) :=
  total_store _ _
@[simp] theorem total_putLock (row : WorkflowSingletonLockRow) : Total (putLock row) :=
  total_store _ _
@[simp] theorem total_putStep (row : WorkflowStepExecutionRow) : Total (putStep row) :=
  total_store _ _

@[simp] theorem total_makeStepExecution (e : WorkflowExecution) (name : String) (attempt : Int32)
    (input : Json) (scheduledAt : Option TimePoint) :
    Total (makeStepExecution e name attempt input scheduledAt) :=
  (total_demand _).bind fun _ => trivial

@[simp] theorem total_scheduleAfter (delay : Option Seconds) : Total (scheduleAfter delay) := by
  cases delay with
  | none => trivial
  | some delay => exact (total_demand _).bind fun _ => trivial

@[simp] theorem total_generateExecutionId : Total generateExecutionId :=
  (total_demand _).bind fun _ => (total_demand _).bind fun _ => (total_demand _).bind fun _ =>
    (total_demand _).bind fun _ => (total_demand _).bind fun _ => (total_demand _).bind fun _ =>
      trivial

theorem total_cancelSteps (now : TimePoint) (rows : List WorkflowStepExecutionRow) :
    Total (cancelSteps now rows) := by
  induction rows with
  | nil => trivial
  | cons row rows ih =>
    simp only [cancelSteps]
    split_ifs
    · exact (total_putStep _).bind fun _ => ih
    · exact ih

theorem registerWorkflowDefinition_stages_last (d : WorkflowDefinition) :
    ¬ Strands env (registerWorkflowDefinition d) tx :=
  (readOnly_validateWorkflowNameAndVersion _ _).not_strands_bind fun _ _ =>
    ((total_putDefinition _).bind fun _ => total_pure _).not_strands

theorem takeSingletonLock_stages_last (singleton : Bool) (e : WorkflowExecution) :
    ¬ Strands env (takeSingletonLock singleton e) tx := by
  unfold takeSingletonLock
  split_ifs
  · exact (readOnly_getLock _).not_strands_bind fun _ _ =>
      (readOnly_checkSingletonLock _ _).not_strands_bind fun _ _ => (total_putLock _).not_strands
  · exact (total_pure _).not_strands

theorem startWorkflow_stages_last (name : String) (version : Int32) (input : Json) :
    ¬ Strands env (startWorkflow name version input) tx := by
  refine (readOnly_validateWorkflowNameAndVersion _ _).not_strands_bind fun _ _ =>
    (readOnly_getDefinition _).not_strands_bind fun _ _ =>
      (readOnly_orThrow _ _).not_strands_bind fun definition _ =>
        readOnly_generateExecutionId.not_strands_bind fun id _ =>
          readOnly_nowForStorage.not_strands_bind fun startedAt _ => ?_
  rw [strands_bind_total]
  · exact takeSingletonLock_stages_last _ _
  · exact fun _ => (total_putExecution _).bind fun _ => (total_makeStepExecution _ _ _ _ _).bind fun _ =>
      (total_putStep _).bind fun _ => total_pure _

theorem keepAliveStep_stages_last (id name workerId : String) :
    ¬ Strands env (keepAliveStep id name workerId) tx :=
  (readOnly_validateExecutionId _).not_strands_bind fun _ _ =>
    (readOnly_validateStepName _).not_strands_bind fun _ _ =>
      (readOnly_validateWorkerId _).not_strands_bind fun _ _ =>
        (readOnly_getCurrentExecution _ _).not_strands_bind fun _ _ =>
          (readOnly_getDefinitionOf _).not_strands_bind fun _ _ =>
            (readOnly_getClaimedStep _ _ _ _).not_strands_bind fun _ _ =>
              (readOnly_lift _).not_strands_bind fun _ _ =>
                readOnly_nowForStorage.not_strands_bind fun _ _ =>
                  (readOnly_lift _).not_strands_bind fun _ _ =>
                    ((total_putStep _).bind fun _ => total_pure _).not_strands

theorem failStep_stages_last (id name workerId reason : String) :
    ¬ Strands env (failStep id name workerId reason) tx := by
  refine (readOnly_validateExecutionId _).not_strands_bind fun _ _ =>
    (readOnly_validateStepName _).not_strands_bind fun _ _ =>
      (readOnly_validateWorkerId _).not_strands_bind fun _ _ =>
        (readOnly_getCurrentExecution _ _).not_strands_bind fun _ _ =>
          (readOnly_getClaimedStep _ _ _ _).not_strands_bind fun _ _ =>
            (readOnly_getDefinitionOf _).not_strands_bind fun _ _ =>
              (readOnly_lift _).not_strands_bind fun step _ =>
                readOnly_nowForStorage.not_strands_bind fun _ _ =>
                  ((total_putStep _).bind fun _ => ?_).not_strands
  split_ifs
  · exact (total_putExecution _).bind fun _ => (total_makeStepExecution _ _ _ _ _).bind fun _ =>
      (total_putStep _).bind fun _ => total_pure _
  · exact (total_demand _).bind fun _ => (total_putExecution _).bind fun _ => total_pure _

theorem cancelWorkflow_stages_last (id : String) : ¬ Strands env (cancelWorkflow id) tx :=
  (readOnly_validateExecutionId _).not_strands_bind fun _ _ =>
    (readOnly_getExecution _).not_strands_bind fun _ _ =>
      (readOnly_orThrow _ _).not_strands_bind fun _ _ =>
        (readOnly_throwIf _ _).not_strands_bind fun _ _ =>
          readOnly_nowForStorage.not_strands_bind fun _ _ =>
            (readOnly_querySteps _).not_strands_bind fun _ _ =>
              ((total_cancelSteps _ _).bind fun _ => (total_putExecution _).bind fun _ =>
                total_pure _).not_strands

/-- The decision ends the workflow or names a step that is defined. -/
def Routed (d : WorkflowDefinition) (decision : NextStepDecision) : Prop :=
  decision.workflowComplete = true ∨
    ∃ next, decision.nextStepName = some next ∧ stepDefinitionExists d next = true

/-- A request to complete a step that passes every check before the routing decision, and what the
logic decides then. -/
structure Completing (env : Environment) (tx : Tx E) (id name workerId : String) (output : Json)
    (delay : Option Seconds) (e : WorkflowExecution) (s : WorkflowStepExecution)
    (d : WorkflowDefinition) (decision : NextStepDecision) : Prop where
  named : id ≠ "" ∧ name ≠ "" ∧ workerId ≠ ""
  delayed : ¬ ∃ n ∈ delay, n ≤ 0
  execution : ∃ row, E.get tx.view .executions id = some row ∧ row.fromRow = e
  running : e.status = .running
  current : e.currentStepName = name
  step : ∃ row, E.get tx.view .steps (stepExecutionKey id name e.currentStepAttempt) = some row ∧
    row.fromRow = s
  owned : Owned s workerId (env.answer tx.ticks .clock)
  definition : ∃ row, E.get tx.view .definitions
    (definitionKey e.workflowName e.workflowVersion) = some row ∧ row.fromRow = d
  decision : env.answer (tx.ticks + 1) (.decideNextStep {
    workflowName := e.workflowName
    workflowVersion := e.workflowVersion
    workflowExecutionId := e.workflowExecutionId
    completedStepName := name
    input := e.input
    state := e.state
    stepOutput := output }) = .ok decision

theorem fails_advance {d : WorkflowDefinition} {e : WorkflowExecution} {decision : NextStepDecision}
    {delay : Option Seconds} : Fails env (advance d e decision delay) tx ↔
      ¬ ∃ next, decision.nextStepName = some next ∧ stepDefinitionExists d next = true := by
  simp only [advance, fails_bind, fails_orThrow, returns_orThrow, fails_throwIf, Total.not_fails,
    total_putExecution, total_scheduleAfter, total_makeStepExecution, total_putStep, total_pure]
  cases decision.nextStepName with
  | none => simp
  | some next => simp

theorem strands_putStep_bind {α : Type} {row : WorkflowStepExecutionRow} {f : Unit → Op α} :
    Strands env (putStep row >>= f) tx ↔ Fails env (f ()) (tx.stage .steps row) :=
  strands_store_bind

theorem fails_settle {d : WorkflowDefinition} {e : WorkflowExecution} {p : Op WorkflowExecution}
    {decision : NextStepDecision} {delay : Option Seconds} (hp : Total p) :
    Fails env (if decision.workflowComplete = true then p else advance d e decision delay) tx ↔
      ¬ Routed d decision := by
  unfold Routed
  split_ifs with hc
  · simp [hc, hp.not_fails]
  · rw [fails_advance]
    simp [hc]

theorem completeStep_strands {id name workerId : String} {output : Json} {delay : Option Seconds} :
    Strands env (completeStep id name workerId output delay) tx ↔
      ∃ e s d decision, Completing env tx id name workerId output delay e s d decision ∧
        ¬ Routed d decision := by
  simp only [completeStep, strands_bind, readOnly_validateExecutionId, readOnly_validateStepName,
    readOnly_validateWorkerId, readOnly_throwIf, readOnly_getCurrentExecution,
    readOnly_getClaimedStep, readOnly_getDefinitionOf, readOnly_decideNextStep,
    readOnly_nowForStorage, strands_putStep_bind]
  simp only [validateExecutionId, validateStepName, validateWorkerId, returns_throwIf,
    returns_getCurrentExecution, returns_getClaimedStep, returns_getDefinitionOf,
    returns_decideNextStep, returns_nowForStorage]
  constructor
  · intro h
    obtain ⟨-, _, ⟨hid, rfl⟩, -, _, ⟨hname, rfl⟩, -, _, ⟨hworker, rfl⟩, -, _, ⟨hdelay, rfl⟩, e, _,
      ⟨he, hrun, hcur, rfl⟩, s, _, ⟨hs, hown, rfl⟩, d, _, ⟨hd, rfl⟩, decision, _, ⟨hdec, rfl⟩, _, _,
      ⟨-, rfl⟩, hfails⟩ := h
    simp only [Tx.noteKey_view, Tx.noteKey_ticks, Tx.tick_view, Tx.tick_ticks] at hs hown hd hdec
    rw [fails_settle] at hfails
    · exact ⟨e, s, d, decision, ⟨⟨hid, hname, hworker⟩, hdelay, he, hrun, hcur, hs, hown, hd, hdec⟩,
        hfails⟩
    · exact (total_demand _).bind fun _ => (total_putExecution _).bind fun _ => total_pure _
  · intro h
    obtain ⟨e, s, d, decision, h, hrouted⟩ := h
    obtain ⟨⟨hid, hname, hworker⟩, hdelay, he, hrun, hcur, hs, hown, hd, hdec⟩ := h
    refine ⟨(), _, ⟨hid, rfl⟩, (), _, ⟨hname, rfl⟩, (), _, ⟨hworker, rfl⟩, (), _, ⟨hdelay, rfl⟩, e, _,
      ⟨he, hrun, hcur, rfl⟩, s, _, ⟨?_, ?_, rfl⟩, d, _, ⟨?_, rfl⟩, decision, _, ⟨?_, rfl⟩, _, _,
      ⟨rfl, rfl⟩, ?_⟩
    · rwa [Tx.noteKey_view]
    · rwa [Tx.noteKey_ticks]
    · simpa only [Tx.noteKey_view, Tx.tick_view] using hd
    · simpa only [Tx.noteKey_ticks, Tx.tick_ticks] using hdec
    · rw [fails_settle]
      · exact hrouted
      · exact (total_demand _).bind fun _ => (total_putExecution _).bind fun _ => total_pure _

def FirstFails {α : Type} (bad : α → Prop) (l : List α) : Prop :=
  (∃ x ∈ l, bad x) → ∃ x ∈ l.head?, bad x

theorem not_firstFails_cons {α : Type} {bad : α → Prop} {x : α} {l : List α} :
    ¬ FirstFails bad (x :: l) ↔ ¬ bad x ∧ ∃ y ∈ l, bad y := by
  simp only [FirstFails, List.mem_cons, List.head?_cons, Option.mem_def, Option.some_inj,
    exists_eq_or_imp, exists_eq_left', Classical.not_imp]
  tauto

def Unleasable (d : WorkflowDefinition) (s : WorkflowStepExecution) : Prop :=
  ∃ ex, d.lease s.stepName = .error ex

theorem not_unleasable {d : WorkflowDefinition} {s : WorkflowStepExecution} {lease : Seconds}
    (h : d.lease s.stepName = .ok lease) : ¬ Unleasable d s := by
  intro hun
  obtain ⟨ex, hex⟩ := hun
  cases h.symm.trans hex

/-- What the claim loop claims if nothing stops it. -/
def claimable (now : TimePoint) (n : ℕ) (candidates : List WorkflowStepExecution) :
    List WorkflowStepExecution :=
  (candidates.filter fun c => isClaimable c now).take n

/-- Each candidate is the row at its key, and the keys differ. -/
structure Listed (db : E.Db) (candidates : List WorkflowStepExecution) : Prop where
  rows : ∀ c ∈ candidates, ∃ row : WorkflowStepExecutionRow,
    E.get db .steps c.stepKey.text = some row ∧ row.fromRow = c
  keys : (candidates.map fun c => c.stepKey.text).Nodup

theorem Listed.tail {db : E.Db} {c : WorkflowStepExecution} {candidates : List WorkflowStepExecution}
    (h : Listed db (c :: candidates)) : Listed db candidates :=
  ⟨fun c' hc' => h.rows c' (List.mem_cons_of_mem _ hc'), (List.nodup_cons.mp h.keys).2⟩

theorem Listed.put {db : E.Db} {c s : WorkflowStepExecution}
    {candidates : List WorkflowStepExecution} (h : Listed db (c :: candidates))
    (hs : s.stepKey = c.stepKey) : Listed (E.put db .steps s.toRow) candidates := by
  refine ⟨fun c' hc' => ?_, h.tail.keys⟩
  obtain ⟨row, hrow, hc⟩ := h.rows c' (List.mem_cons_of_mem _ hc')
  refine ⟨row, ?_, hc⟩
  rw [E.get_put, if_neg]
  · exact hrow
  intro hk
  have hkey : c'.stepKey.text = c.stepKey.text :=
    hk.trans ((WorkflowStepExecution.key_toRow_text s).trans (congrArg StepKey.text hs))
  exact (List.nodup_cons.mp h.keys).1 (List.mem_map.mpr ⟨c', hc', hkey⟩)

section Claiming
variable {d : WorkflowDefinition} {workerId : String} {now : TimePoint} {maxResults : ℕ}
  {c : WorkflowStepExecution} {candidates claimed : List WorkflowStepExecution}
  {row : WorkflowStepExecutionRow}

theorem claimable_cons_skip {n : ℕ} (h : isClaimable c now = false) :
    claimable now n (c :: candidates) = claimable now n candidates := by
  rw [claimable, List.filter_cons, if_neg (by simp [h]), claimable]

theorem claimable_cons_take {n : ℕ} (h : isClaimable c now = true) :
    claimable now (n + 1) (c :: candidates) = c :: claimable now n candidates := by
  rw [claimable, List.filter_cons, if_pos h, List.take_succ_cons, claimable]

theorem claimStep_eq : claimStep d workerId now claimed (some row) =
    if isClaimable row.fromRow now = true then do
      let lease ← lift (d.lease row.fromRow.stepName)
      putStep (row.fromRow.claimedBy workerId now (now.addSeconds lease)).toRow
      return claimed ++ [row.fromRow.claimedBy workerId now (now.addSeconds lease)]
    else pure claimed := by
  simp only [claimStep]
  split_ifs with hc
  · rw [WorkflowDefinition.lease]
    cases findStepDefinition d row.fromRow.stepName with
    | error ex => rfl
    | ok step => rfl
  · rfl

theorem claimSteps_cons (hrow : E.get tx.view .steps c.stepKey.text = some row)
    (room : claimed.length < maxResults) :
    exec env (claimSteps d workerId now maxResults claimed (c :: candidates)) tx =
      exec env (claimStep d workerId now claimed (some row) >>= fun claimed =>
        claimSteps d workerId now maxResults claimed candidates)
        (tx.noteKey .steps c.stepKey.text) := by
  rw [claimSteps, if_neg (not_le.mpr room), ← hrow]
  rfl

/-! One round of the claim loop: the candidate is passed over, stops the loop, or is claimed. -/

theorem claimSteps_skip (hrow : E.get tx.view .steps c.stepKey.text = some row)
    (hc : row.fromRow = c) (room : claimed.length < maxResults) (hskip : isClaimable c now = false) :
    exec env (claimSteps d workerId now maxResults claimed (c :: candidates)) tx =
      exec env (claimSteps d workerId now maxResults claimed candidates)
        (tx.noteKey .steps c.stepKey.text) := by
  rw [claimSteps_cons hrow room, claimStep_eq, hc, if_neg (by simp [hskip])]
  rfl

theorem claimSteps_stop {ex : Exception} (hrow : E.get tx.view .steps c.stepKey.text = some row)
    (hc : row.fromRow = c) (room : claimed.length < maxResults) (hclaim : isClaimable c now = true)
    (hlease : d.lease c.stepName = .error ex) :
    exec env (claimSteps d workerId now maxResults claimed (c :: candidates)) tx =
      (.error ex, tx.noteKey .steps c.stepKey.text) := by
  rw [claimSteps_cons hrow room, claimStep_eq, hc, if_pos hclaim, hlease]
  rfl

theorem claimSteps_claim {lease : Seconds} (hrow : E.get tx.view .steps c.stepKey.text = some row)
    (hc : row.fromRow = c) (room : claimed.length < maxResults) (hclaim : isClaimable c now = true)
    (hlease : d.lease c.stepName = .ok lease) :
    exec env (claimSteps d workerId now maxResults claimed (c :: candidates)) tx =
      exec env (claimSteps d workerId now maxResults
        (claimed ++ [c.claimedBy workerId now (now.addSeconds lease)]) candidates)
        ((tx.noteKey .steps c.stepKey.text).stage .steps
          (c.claimedBy workerId now (now.addSeconds lease)).toRow) := by
  rw [claimSteps_cons hrow room, claimStep_eq, hc, if_pos hclaim, hlease]
  rfl

theorem claimable_full (full : ¬ claimed.length < maxResults) :
    claimable now (maxResults - claimed.length) candidates = [] := by
  rw [Nat.sub_eq_zero_of_le (not_lt.mp full), claimable, List.take_zero]

theorem total_claimSteps_full (full : ¬ claimed.length < maxResults) :
    Total (claimSteps d workerId now maxResults claimed (c :: candidates)) := by
  rw [claimSteps, if_pos (not_lt.mp full)]
  trivial

theorem claimSteps_fails (listed : Listed tx.view candidates) :
    Fails env (claimSteps d workerId now maxResults claimed candidates) tx ↔
      ∃ s ∈ claimable now (maxResults - claimed.length) candidates, Unleasable d s := by
  induction candidates generalizing tx claimed with
  | nil => simp [claimSteps, claimable, Total.not_fails]
  | cons c candidates ih =>
    by_cases room : claimed.length < maxResults
    swap
    · simp [claimable_full room, (total_claimSteps_full room).not_fails]
    obtain ⟨row, hrow, hc⟩ := listed.rows c (by simp)
    obtain ⟨n, hn⟩ := Nat.exists_eq_succ_of_ne_zero (Nat.sub_ne_zero_of_lt room)
    cases hclaim : isClaimable c now with
    | false =>
      rw [fails_congr (claimSteps_skip hrow hc room hclaim), claimable_cons_skip hclaim]
      exact ih (by rw [Tx.noteKey_view]; exact listed.tail)
    | true =>
      rw [hn, claimable_cons_take hclaim]
      cases hlease : d.lease c.stepName with
      | error ex =>
        exact iff_of_true (fails_of_exec_error (claimSteps_stop hrow hc room hclaim hlease))
          ⟨c, by simp, ex, hlease⟩
      | ok lease =>
        have hgood : ¬ Unleasable d c := not_unleasable hlease
        rw [fails_congr (claimSteps_claim hrow hc room hclaim hlease), ih]
        · have hlength : maxResults -
              (claimed ++ [c.claimedBy workerId now (now.addSeconds lease)]).length = n := by
            rw [List.length_append, List.length_singleton]
            omega
          rw [hlength]
          simp [hgood]
        · rw [Tx.stage_view, Tx.noteKey_view]
          exact listed.put rfl

/-- Claims stay behind when the loop is stopped after its first claim. -/
theorem claimSteps_strands (listed : Listed tx.view candidates) :
    Strands env (claimSteps d workerId now maxResults claimed candidates) tx ↔
      ¬ FirstFails (Unleasable d) (claimable now (maxResults - claimed.length) candidates) := by
  induction candidates generalizing tx with
  | nil => simp [claimSteps, claimable, Total.not_strands, FirstFails]
  | cons c candidates ih =>
    by_cases room : claimed.length < maxResults
    swap
    · simp [claimable_full room, (total_claimSteps_full room).not_strands, FirstFails]
    obtain ⟨row, hrow, hc⟩ := listed.rows c (by simp)
    obtain ⟨n, hn⟩ := Nat.exists_eq_succ_of_ne_zero (Nat.sub_ne_zero_of_lt room)
    cases hclaim : isClaimable c now with
    | false =>
      rw [strands_congr (claimSteps_skip hrow hc room hclaim) (Tx.noteKey_writes ..),
        claimable_cons_skip hclaim]
      exact ih (by rw [Tx.noteKey_view]; exact listed.tail)
    | true =>
      rw [hn, claimable_cons_take hclaim, not_firstFails_cons]
      cases hlease : d.lease c.stepName with
      | error ex =>
        exact iff_of_false (not_strands_of_exec_error
          (claimSteps_stop hrow hc room hclaim hlease) (Tx.noteKey_writes ..))
          fun h => h.1 ⟨ex, hlease⟩
      | ok lease =>
        have hgood : ¬ Unleasable d c := not_unleasable hlease
        rw [strands_after_write (claimSteps_claim hrow hc room hclaim hlease) (by simp),
          claimSteps_fails]
        · have hlength : maxResults -
              (claimed ++ [c.claimedBy workerId now (now.addSeconds lease)]).length = n := by
            rw [List.length_append, List.length_singleton]
            omega
          rw [hlength, and_iff_right hgood]
        · rw [Tx.stage_view, Tx.noteKey_view]
          exact listed.put rfl

end Claiming

/-- A poll that passes every check before its loop. -/
structure Polling (env : Environment) (tx : Tx E) (name : String) (version : Int32)
    (workerId : String) (maxResults : ℕ) (d : WorkflowDefinition) : Prop where
  named : name ≠ "" ∧ ¬ version < 1 ∧ workerId ≠ "" ∧ maxResults ≠ 0
  definition : ∃ row, E.get tx.view .definitions (definitionKey name version) = some row ∧
    row.fromRow = d
  reserved : env.answer (tx.ticks + 1) (.reserve maxResults) = .ok ()

theorem pollAndClaimWorkflowSteps_strands {name : String} {version : Int32} {workerId : String}
    {maxResults : ℕ} (keyed : Keyed tx.view) :
    Strands env (pollAndClaimWorkflowSteps name version workerId maxResults) tx ↔
      ∃ d, Polling env tx name version workerId maxResults d ∧
        ¬ FirstFails (Unleasable d) (claimable (env.answer tx.ticks .clock) maxResults
          (candidatesIn env tx.view name version)) := by
  have hlisted : Listed tx.view (candidatesIn env tx.view name version) := by
    refine ⟨fun c hc => ?_, candidates_nodup keyed env name version⟩
    obtain ⟨row, hrow, hget⟩ := candidate_row keyed hc
    exact ⟨row, hget, hrow⟩
  have hloop : ∀ {tx' : Tx E} {d : WorkflowDefinition}, tx'.view = tx.view →
      (Strands env (claimSteps d workerId (env.answer tx.ticks .clock) maxResults []
        (candidatesIn env tx.view name version)) tx' ↔
        ¬ FirstFails (Unleasable d) (claimable (env.answer tx.ticks .clock) maxResults
          (candidatesIn env tx.view name version))) := fun hview =>
    claimSteps_strands (hview.symm ▸ hlisted)
  simp only [pollAndClaimWorkflowSteps, strands_bind, readOnly_validateWorkflowNameAndVersion,
    readOnly_validateWorkerId, readOnly_throwIf, readOnly_getDefinition, readOnly_orThrow,
    readOnly_nowForStorage, readOnly_querySteps, readOnly_reserve]
  simp only [validateWorkerId, reserve, returns_bind, returns_validateWorkflowNameAndVersion,
    returns_throwIf, returns_getDefinition, returns_orThrow, returns_nowForStorage,
    returns_querySteps, returns_demand, returns_lift]
  constructor
  · intro h
    obtain ⟨-, _, ⟨hname, hversion, rfl⟩, -, _, ⟨hworker, rfl⟩, -, _, ⟨hmax, rfl⟩, _, _, ⟨rfl, rfl⟩,
      row, _, ⟨hrow, rfl⟩, now, _, ⟨rfl, rfl⟩, pending, _, ⟨rfl, rfl⟩, running, _, ⟨rfl, rfl⟩, _, _,
      ⟨_, _, ⟨rfl, rfl⟩, hreserve, rfl⟩, hstrands⟩ := h
    simp only [Tx.noteKey_ticks, Tx.tick_ticks, Tx.noteQuery_ticks, Tx.tick_view,
      Tx.noteQuery_view, Tx.noteKey_view] at hreserve hstrands
    refine ⟨row.fromRow, ⟨⟨hname, hversion, hworker, hmax⟩, ⟨row, hrow, rfl⟩, hreserve⟩, ?_⟩
    exact (hloop (by simp)).mp hstrands
  · intro h
    obtain ⟨d, ⟨⟨hname, hversion, hworker, hmax⟩, ⟨row, hrow, rfl⟩, hreserve⟩, hfirst⟩ := h
    refine ⟨(), _, ⟨hname, hversion, rfl⟩, (), _, ⟨hworker, rfl⟩, (), _, ⟨hmax, rfl⟩, _, _,
      ⟨rfl, rfl⟩, row, _, ⟨hrow, rfl⟩, _, _, ⟨rfl, rfl⟩, _, _, ⟨rfl, rfl⟩, _, _, ⟨rfl, rfl⟩, (), _,
      ⟨_, _, ⟨rfl, rfl⟩, ?_, rfl⟩, ?_⟩
    · simpa only [Tx.noteKey_ticks, Tx.tick_ticks, Tx.noteQuery_ticks] using hreserve
    · simp only [Tx.noteKey_ticks, Tx.tick_view, Tx.noteQuery_view, Tx.noteKey_view]
      exact (hloop (by simp)).mpr hfirst

def Undefined (d : WorkflowDefinition) (stepName : String) : Prop :=
  ∃ ex, findStepDefinition d stepName = .error ex

def Lost (db : E.Db) (now : TimePoint) (row : WorkflowStepExecutionRow) : Prop :=
  ∃ e d, lapsed db now row = some (e, d) ∧ Undefined d row.stepName

section Sweeping
variable {now : TimePoint} {result : SweepResult} {row : WorkflowStepExecutionRow}
  {e : WorkflowExecution} {d : WorkflowDefinition}

theorem failExpiredStep_undefined {ex : Exception} {s : WorkflowStepExecution}
    (h : findStepDefinition d s.stepName = .error ex) :
    exec env (failExpiredStep now result s e d) tx = (.error ex, tx) := by
  rw [failExpiredStep, h]
  rfl

theorem failExpiredStep_effect {result' : SweepResult} {tx' : Tx E} {s : WorkflowStepExecution}
    (hr : Returns env (failExpiredStep now result s e d) tx result' tx') :
    tx.writes.length < tx'.writes.length ∧
      (∀ k, E.get tx'.view .definitions k = E.get tx.view .definitions k) ∧
      ∃ e' : WorkflowExecution, e'.versionKey = e.versionKey ∧
        e'.currentStepName = e.currentStepName ∧
        ∀ id, E.get tx'.view .executions id = if id = e.workflowExecutionId
          then some e'.toRow else E.get tx.view .executions id := by
  obtain ⟨step, _, -, rfl, houtcome⟩ := failExpiredStep_cases hr
  have hexec : ∀ (db : E.Db) (e' : WorkflowExecution) (r : WorkflowStepExecutionRow) id,
      E.get (E.put (E.put db .steps r) .executions e'.toRow) .executions id =
        if id = e'.workflowExecutionId then some e'.toRow else E.get db .executions id := by
    intro db e' r id
    rw [E.get_put, E.get_put_table _ _ (by decide)]
    rfl
  rcases houtcome with ⟨-, -, n, retry, -, rfl⟩ | ⟨-, -, rfl⟩
  · refine ⟨by simp, fun k => ?_, e.retried, rfl, rfl, fun id => ?_⟩
    · simp only [Tx.stage_view, Tx.tick_view]
      rw [E.get_put_table _ _ (by decide), E.get_put_table _ _ (by decide),
        E.get_put_table _ _ (by decide)]
    · simp only [Tx.stage_view, Tx.tick_view]
      rw [E.get_put_table _ _ (by decide)]
      exact hexec _ e.retried _ id
  · refine ⟨by simp, fun k => ?_, e.failedFor "lease expired" now, rfl, rfl, fun id => ?_⟩
    · simp only [Tx.stage_view]
      rw [E.get_put_table _ _ (by decide), E.get_put_table _ _ (by decide)]
    · exact hexec _ (e.failedFor "lease expired" now) _ id

theorem failExpiredStep_returns (env : Environment) (tx : Tx E) (now : TimePoint)
    (result : SweepResult) (e : WorkflowExecution) {step : WorkflowStep} {s : WorkflowStepExecution}
    (h : findStepDefinition d s.stepName = .ok step) :
    ∃ result' tx', Returns env (failExpiredStep now result s e d) tx result' tx' := by
  have htotal : Total (failExpiredStep now result s e d) := by
    rw [failExpiredStep, h]
    refine (total_pure step).bind fun step => (total_putStep _).bind fun _ => ?_
    split_ifs
    · exact (total_putExecution _).bind fun _ => (total_makeStepExecution _ _ _ _ _).bind fun _ =>
        (total_putStep _).bind fun _ => total_pure _
    · exact (total_putExecution _).bind fun _ => total_pure _
  exact htotal.returns env tx

theorem not_lost {db : E.Db} {found : WorkflowExecutionRow} {definition : WorkflowDefinitionRow}
    {step : WorkflowStep} (hexec : E.get db .executions row.workflowExecutionId = some found)
    (hdef : E.get db .definitions (definitionKey found.fromRow.workflowName
      found.fromRow.workflowVersion) = some definition)
    (hstep : findStepDefinition definition.fromRow found.fromRow.currentStepName = .ok step) :
    ¬ Lost db now row := by
  intro h
  obtain ⟨e, d, hlapsed, ex, hex⟩ := h
  obtain ⟨-, ⟨found', hfound, rfl⟩, -, hcur, -, definition', hdef', rfl⟩ :=
    lapsed_eq_some.mp hlapsed
  rw [hexec] at hfound
  obtain rfl := Option.some_inj.mp hfound
  rw [hdef] at hdef'
  obtain rfl := Option.some_inj.mp hdef'
  rw [← hcur, hstep] at hex
  cases hex

theorem lost_congr {db db' : E.Db} {row₀ : WorkflowStepExecutionRow} {e' : WorkflowExecution}
    {step : WorkflowStep} (h : lapsed db now row₀ = some (e, d))
    (hstep : findStepDefinition d row₀.stepName = .ok step)
    (hdef : ∀ k, E.get db' .definitions k = E.get db .definitions k)
    (hversion : e'.versionKey = e.versionKey) (hname : e'.currentStepName = e.currentStepName)
    (hexec : ∀ id, E.get db' .executions id = if id = e.workflowExecutionId
      then some e'.toRow else E.get db .executions id) :
    Lost db' now row ↔ Lost db now row := by
  by_cases hrow : row.workflowExecutionId = e.workflowExecutionId
  · obtain ⟨-, ⟨found, hfound, rfl⟩, -, hcur, -, definition, hdefinition, rfl⟩ :=
      lapsed_eq_some.mp h
    have hid : found.fromRow.workflowExecutionId = row₀.workflowExecutionId :=
      E.key_of_get db .executions _ found hfound
    have hfound' : E.get db' .executions row.workflowExecutionId = some e'.toRow := by
      rw [hexec, if_pos hrow]
    rw [← hcur] at hstep
    obtain ⟨hn, hv⟩ := Prod.mk.inj hversion
    have hdefinition' : E.get db' .definitions (definitionKey e'.workflowName
        e'.workflowVersion) = some definition := by
      rw [hdef, hn, hv]
      exact hdefinition
    have hstep' : findStepDefinition definition.fromRow e'.stored.currentStepName = .ok step :=
      (congrArg _ hname).trans hstep
    rw [← e'.fromRow_toRow] at hstep'
    refine iff_of_false (not_lost hfound' ?_ hstep')
      (not_lost ((hrow.trans hid) ▸ hfound) hdefinition hstep)
    rw [e'.fromRow_toRow]
    exact hdefinition'
  · simp only [Lost, lapsed, hexec, if_neg hrow, hdef]

theorem sweepSteps_round (env : Environment) (tx : Tx E) (now : TimePoint) (result : SweepResult)
    (row : WorkflowStepExecutionRow) (rows : List WorkflowStepExecutionRow) :
    (lapsed tx.view now row = none ∧ ∃ tx₁ : Tx E, tx₁.view = tx.view ∧ tx₁.writes = tx.writes ∧
      exec env (sweepSteps now result (row :: rows)) tx = exec env (sweepSteps now result rows) tx₁) ∨
    (Lost tx.view now row ∧ ∃ ex tx₁, tx₁.writes = tx.writes ∧
      exec env (sweepSteps now result (row :: rows)) tx = (.error ex, tx₁)) ∨
    ((lapsed tx.view now row).isSome = true ∧ ¬ Lost tx.view now row ∧
      ∃ (result' : SweepResult) (tx₁ : Tx E), tx.writes.length < tx₁.writes.length ∧
        (∀ row', Lost tx₁.view now row' ↔ Lost tx.view now row') ∧
        exec env (sweepSteps now result (row :: rows)) tx =
          exec env (sweepSteps now result' rows) tx₁) := by
  obtain ⟨tx₁, hview, hwrites, -, hexec⟩ := sweepStep_exec env tx now result row
  rw [sweepSteps, exec_bind, hexec]
  cases hl : lapsed tx.view now row with
  | none => exact .inl ⟨rfl, tx₁, hview, hwrites, rfl⟩
  | some found =>
    obtain ⟨e, d⟩ := found
    right
    dsimp only
    cases hstep : findStepDefinition d row.fromRow.stepName with
    | error ex =>
      rw [failExpiredStep_undefined hstep]
      exact .inl ⟨⟨e, d, hl, ex, hstep⟩, ex, tx₁, hwrites, rfl⟩
    | ok step =>
      obtain ⟨result', tx₂, hr⟩ := failExpiredStep_returns env tx₁ now result e hstep
      obtain ⟨hlength, hdef, e', hversion, hname, hexec'⟩ := failExpiredStep_effect hr
      rw [show exec env _ tx₁ = _ from hr]
      refine .inr ⟨rfl, ?_, result', tx₂, hwrites ▸ hlength, fun row' => ?_, rfl⟩
      · intro h
        obtain ⟨e₁, d₁, hl₁, ex, hex⟩ := h
        rw [hl] at hl₁
        obtain ⟨rfl, rfl⟩ := Prod.mk.inj (Option.some_inj.mp hl₁)
        rw [show findStepDefinition d row.stepName = .ok step from hstep] at hex
        cases hex
      · rw [← hview] at hl ⊢
        exact lost_congr hl hstep hdef hversion hname hexec'

theorem sweepSteps_fails {rows : List WorkflowStepExecutionRow} :
    Fails env (sweepSteps now result rows) tx ↔ ∃ row ∈ rows, Lost tx.view now row := by
  induction rows generalizing tx result with
  | nil => simp [sweepSteps, Total.not_fails]
  | cons row rows ih =>
    rw [List.exists_mem_cons_iff]
    rcases sweepSteps_round env tx now result row rows with
      ⟨hnone, tx₁, hview, -, hexec⟩ | ⟨hlost, ex, tx₁, -, hexec⟩ |
        ⟨-, hkept, result', tx₁, -, hsame, hexec⟩
    · have hnot : ¬ Lost tx.view now row := by
        intro h
        obtain ⟨_, _, hl, -⟩ := h
        simp [hnone] at hl
      rw [fails_congr hexec, ih, hview, or_iff_right hnot]
    · exact iff_of_true (fails_of_exec_error hexec) (.inl hlost)
    · rw [fails_congr hexec, ih, or_iff_right hkept]
      simp only [hsame]

/-- Failed steps stay behind when the sweep is stopped after its first one. -/
theorem sweepSteps_strands {rows : List WorkflowStepExecutionRow} :
    Strands env (sweepSteps now result rows) tx ↔
      ¬ FirstFails (Lost tx.view now)
        (rows.filter fun row => (lapsed tx.view now row).isSome) := by
  induction rows generalizing tx with
  | nil => simp [sweepSteps, Total.not_strands, FirstFails]
  | cons row rows ih =>
    rcases sweepSteps_round env tx now result row rows with
      ⟨hnone, tx₁, hview, hwrites, hexec⟩ | ⟨hlost, ex, tx₁, hwrites, hexec⟩ |
        ⟨hsome, hkept, result', tx₁, hlength, hsame, hexec⟩
    · rw [strands_congr hexec hwrites, ih, hview, List.filter_cons, if_neg (by simp [hnone])]
    · have hsome : (lapsed tx.view now row).isSome = true := by
        obtain ⟨e, d, hl, -⟩ := hlost
        rw [hl]
        rfl
      rw [List.filter_cons, if_pos hsome, not_firstFails_cons]
      exact iff_of_false (not_strands_of_exec_error hexec hwrites) fun h => h.1 hlost
    · rw [strands_after_write hexec hlength, sweepSteps_fails, List.filter_cons, if_pos hsome,
        not_firstFails_cons, and_iff_right hkept]
      simp only [hsame, List.mem_filter]
      constructor
      · intro h
        obtain ⟨row', hrow', e, d, hl, hundef⟩ := h
        exact ⟨row', ⟨hrow', by rw [hl]; rfl⟩, e, d, hl, hundef⟩
      · intro h
        obtain ⟨row', ⟨hrow', -⟩, hlost⟩ := h
        exact ⟨row', hrow', hlost⟩

end Sweeping

theorem sweepExpiredLeases_strands : Strands env sweepExpiredLeases tx ↔
    ¬ FirstFails (Lost tx.view (env.answer tx.ticks .clock))
      (lapsedRows env tx.view (env.answer tx.ticks .clock)) := by
  simp only [sweepExpiredLeases, strands_bind, readOnly_nowForStorage, readOnly_querySteps,
    returns_nowForStorage, returns_querySteps]
  constructor
  · intro h
    obtain ⟨now, _, ⟨rfl, rfl⟩, rows, _, ⟨rfl, rfl⟩, hstrands⟩ := h
    have hfirst := sweepSteps_strands.mp hstrands
    exact hfirst
  · intro hfirst
    refine ⟨_, _, ⟨rfl, rfl⟩, _, _, ⟨rfl, rfl⟩, ?_⟩
    rw [sweepSteps_strands]
    exact hfirst

end Orchestrator
open Orchestrator

/-- When a failing call of the operation leaves nothing of its own behind. -/
def ChecksFirst (env : Environment) (tx : Tx E) : Operation → Prop
  | .completeStep id name workerId output delay => ∀ e s d decision,
      Completing env tx id name workerId output delay e s d decision → Routed d decision
  | .pollAndClaimWorkflowSteps name version workerId maxResults => ∀ d,
      Polling env tx name version workerId maxResults d →
        FirstFails (Unleasable d) (claimable (env.answer tx.ticks .clock) maxResults
          (candidatesIn env tx.view name version))
  | .sweepExpiredLeases => FirstFails (Lost tx.view (env.answer tx.ticks .clock))
      (lapsedRows env tx.view (env.answer tx.ticks .clock))
  | _ => True

theorem program_strands (keyed : Keyed tx.view) (op : Operation) :
    Strands env op.program tx ↔ ¬ ChecksFirst env tx op := by
  cases op with
  | registerWorkflowDefinition d =>
    rw [Operation.program, strands_bind_total fun _ => total_pure _]
    exact iff_of_false (registerWorkflowDefinition_stages_last d) (not_not.mpr trivial)
  | startWorkflow name version input =>
    rw [Operation.program, strands_bind_total fun _ => total_pure _]
    exact iff_of_false (startWorkflow_stages_last name version input) (not_not.mpr trivial)
  | pollAndClaimWorkflowSteps name version workerId maxResults =>
    rw [Operation.program, strands_bind_total fun _ => total_pure _,
      pollAndClaimWorkflowSteps_strands keyed]
    simp only [ChecksFirst, not_forall, exists_prop]
  | keepAliveStep id name workerId =>
    rw [Operation.program, strands_bind_total fun _ => total_pure _]
    exact iff_of_false (keepAliveStep_stages_last id name workerId) (not_not.mpr trivial)
  | completeStep id name workerId output delay =>
    rw [Operation.program, strands_bind_total fun _ => total_pure _, completeStep_strands]
    simp only [ChecksFirst, not_forall, exists_prop]
  | failStep id name workerId reason =>
    rw [Operation.program, strands_bind_total fun _ => total_pure _]
    exact iff_of_false (failStep_stages_last id name workerId reason) (not_not.mpr trivial)
  | cancelWorkflow id =>
    rw [Operation.program, strands_bind_total fun _ => total_pure _]
    exact iff_of_false (cancelWorkflow_stages_last id) (not_not.mpr trivial)
  | sweepExpiredLeases =>
    rw [Operation.program, strands_bind_total fun _ => total_pure _, sweepExpiredLeases_strands,
      ChecksFirst]

/-- A call in a caller's transaction that throws leaves what was staged, and so what a commit
writes, as it was, exactly if its checks come out before its first write. -/
theorem failed_call_stages_nothing_iff (env : Environment) (tx : Tx E) (op : Operation)
    (keyed : Keyed tx.view) :
    (∀ ex tx', Throws env op.program tx ex tx' → tx'.writes = tx.writes ∧ tx'.view = tx.view) ↔
      ChecksFirst env tx op := by
  rw [← not_iff_not, ← program_strands keyed op]
  constructor
  · intro h
    by_contra hs
    refine h fun ex tx' ht => ?_
    have hwrites : tx'.writes = tx.writes := not_not.mp fun hne => hs ⟨ex, tx', ht, hne⟩
    exact ⟨hwrites, view_of_writes ht hwrites⟩
  · intro h' h
    obtain ⟨ex, tx', ht, hne⟩ := h'
    exact hne (h ex tx' ht).1

theorem failed_call_stages_nothing_iff_ended :
    let calls := Sample.begin (Sample.definition false 0)
    let claimed := calls ++ [Sample.poll 2000000 "first" (Sample.script 0 "ship" calls)]
    let complete := Sample.complete 3000000 "second" { workflowComplete := true }
    ∀ ex tx', Throws complete.env complete.operation.program
      (Tx.begin (E := Sample.store) (Sample.after claimed)) ex tx' →
      tx'.writes = [] ∧ tx'.view = Sample.after claimed := by
  intro calls claimed complete
  have reachable : Reachable Sample.store (Sample.after claimed) :=
    reachable_play (by decide +kernel)
  generalize Sample.after claimed = db at reachable ⊢
  refine (failed_call_stages_nothing_iff complete.env (Tx.begin db) complete.operation
    reachable.sound.encoded.keyed).mpr ?_
  intro e s d decision h
  have hdecision : decision = { workflowComplete := true } := (Except.ok.inj h.decision).symm
  exact .inl (hdecision ▸ rfl)

/-- A decision that names no next step is refused after the completed row is staged. -/
theorem completeStep_strands_completed_row :
    ¬ ∀ db, Reachable Sample.store db → ∀ (c : Call) ex tx',
      Throws c.env c.operation.program (Tx.begin (E := Sample.store) db) ex tx' →
      tx'.writes = [] := by
  intro h
  let calls := Sample.begin (Sample.definition false 0)
  let claimed := calls ++ [Sample.poll 2000000 "first" (Sample.script 0 "ship" calls)]
  let complete := Sample.complete 3000000 "first" {}
  have reachable : Reachable Sample.store (Sample.after claimed) :=
    reachable_play (by decide +kernel)
  have hthrows : (exec complete.env complete.operation.program
      (Tx.begin (E := Sample.store) (Sample.after claimed))).1.isOk = false := by
    decide +kernel
  have hwrites : (exec complete.env complete.operation.program
      (Tx.begin (E := Sample.store) (Sample.after claimed))).2.writes.length = 1 := by
    decide +kernel
  rcases hexec : exec complete.env complete.operation.program
      (Tx.begin (E := Sample.store) (Sample.after claimed)) with ⟨ex | r, tx'⟩
  · rw [hexec, h _ reachable complete ex tx' hexec] at hwrites
    cases hwrites
  · rw [hexec] at hthrows
    cases hthrows

end WorkflowEngine
