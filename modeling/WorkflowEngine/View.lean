import WorkflowEngine.Keys
import WorkflowEngine.Lifecycle

/-!
# The ledger that a store holds

`view` reads a store as a ledger: rows are found by identity instead of by key
text. It is faithful on a store whose rows were all written
by the orchestrator and whose execution identifiers are plain, and there a put
is the ledger's own update.
-/

namespace WorkflowEngine
open Txn

variable {E : Engine schema}

def StepKey.text (k : StepKey) : String := stepExecutionKey k.workflowExecutionId k.stepName k.attempt

/-- Every row is the image of a record. -/
structure Encoded (db : E.Db) : Prop where
  definitions : ∀ k row, E.get db .definitions k = some row →
    ∃ d : WorkflowDefinition, row = d.toRow
  executions : ∀ k row, E.get db .executions k = some row →
    ∃ e : WorkflowExecution, row = e.toRow ∧ PlainId e.workflowExecutionId
  singletonLocks : ∀ k row, E.get db .singletonLocks k = some row →
    ∃ e : WorkflowExecution, row = Orchestrator.makeSingletonLock e
  steps : ∀ k row, E.get db .steps k = some row →
    ∃ s : WorkflowStepExecution, row = s.toRow ∧ PlainId s.workflowExecutionId

def view (db : E.Db) : Ledger where
  definition k := (E.get db .definitions (definitionKey k.1 k.2)).map WorkflowDefinitionRow.fromRow
  executionRow id := E.get db .executions id
  lock k := (E.get db .singletonLocks (singletonLockKey k.1 k.2)).map
    WorkflowSingletonLockRow.workflowExecutionId
  stepRow k := (E.get db .steps k.text).filter fun row => row.fromRow.stepKey = k

theorem encoded_empty : Encoded (E := E) E.empty := by
  constructor <;> intro k row h <;> rw [E.get_empty] at h <;> cases h

theorem view_empty : view (E := E) E.empty = Ledger.empty := by
  refine Ledger.ext ?_ ?_ ?_ ?_ <;> funext k <;>
    simp only [view, Ledger.empty, E.get_empty, Option.map_none, Option.filter_none]

theorem StepKey.text_inj {k k' : StepKey} (h : PlainId k.workflowExecutionId)
    (h' : PlainId k'.workflowExecutionId) : k.text = k'.text ↔ k = k' := by
  obtain ⟨id, name, attempt⟩ := k
  obtain ⟨id', name', attempt'⟩ := k'
  rw [text, text, stepExecutionKey_inj h h', StepKey.mk.injEq]

theorem WorkflowStepExecution.key_toRow_text (s : WorkflowStepExecution) :
    s.toRow.key = s.stepKey.text := s.key_toRow

theorem view_stepRow {db : E.Db} {k : StepKey} {row : WorkflowStepExecutionRow} :
    (view db).stepRow k = some row ↔
      E.get db .steps k.text = some row ∧ row.fromRow.stepKey = k := by
  simp only [view, Option.filter_eq_some_iff, decide_eq_true_eq]

theorem view_step {db : E.Db} {k : StepKey} {s : WorkflowStepExecution} :
    (view db).step k = some s ↔
      ∃ row, E.get db .steps k.text = some row ∧ row.fromRow = s ∧ s.stepKey = k := by
  simp only [Ledger.step_eq_some, view_stepRow]
  constructor
  · intro h
    obtain ⟨row, ⟨hr, hk⟩, rfl⟩ := h
    exact ⟨row, hr, rfl, hk⟩
  · intro h
    obtain ⟨row, hr, rfl, hk⟩ := h
    exact ⟨row, ⟨hr, hk⟩, rfl⟩

theorem view_execution {db : E.Db} {id : String} {e : WorkflowExecution} :
    (view db).execution id = some e ↔
      ∃ row, E.get db .executions id = some row ∧ row.fromRow = e :=
  Ledger.execution_eq_some

theorem Encoded.execution {db : E.Db} (enc : Encoded db) {id : String} {row : WorkflowExecutionRow}
    (h : E.get db .executions id = some row) :
    (view db).execution id = some row.fromRow ∧ row.fromRow.workflowExecutionId = id ∧
      PlainId id := by
  obtain ⟨e, rfl, hp⟩ := enc.executions id row h
  have hk : e.workflowExecutionId = id := E.key_of_get db .executions id e.toRow h
  refine ⟨view_execution.mpr ⟨_, h, rfl⟩, ?_, hk ▸ hp⟩
  rw [WorkflowExecution.fromRow_toRow]
  exact hk

theorem Encoded.stepKey {db : E.Db} (enc : Encoded db) {k : StepKey}
    {row : WorkflowStepExecutionRow} (hp : PlainId k.workflowExecutionId)
    (h : E.get db .steps k.text = some row) : row.fromRow.stepKey = k := by
  obtain ⟨s, rfl, hps⟩ := enc.steps _ row h
  have hk : s.stepKey.text = k.text :=
    s.key_toRow_text.symm.trans (E.key_of_get db .steps k.text s.toRow h)
  rw [WorkflowStepExecution.fromRow_toRow, WorkflowStepExecution.stored_stepKey]
  exact (StepKey.text_inj hps hp).mp hk

theorem Encoded.step {db : E.Db} (enc : Encoded db) {k : StepKey} {row : WorkflowStepExecutionRow}
    (hp : PlainId k.workflowExecutionId) (h : E.get db .steps k.text = some row) :
    (view db).step k = some row.fromRow ∧ row.fromRow.stepKey = k := by
  have hk := enc.stepKey hp h
  exact ⟨view_step.mpr ⟨row, h, rfl, hk⟩, hk⟩

theorem Encoded.definition {db : E.Db} {k : VersionKey} {row : WorkflowDefinitionRow}
    (h : E.get db .definitions (definitionKey k.1 k.2) = some row) :
    (view db).definition k = some row.fromRow := by
  simp only [view, h, Option.map_some]

theorem Encoded.step_row {db : E.Db} (enc : Encoded db) {row : WorkflowStepExecutionRow}
    (h : E.get db .steps row.key = some row) :
    (view db).stepRow row.fromRow.stepKey = some row ∧
      PlainId row.fromRow.workflowExecutionId ∧ row.key = row.fromRow.stepKey.text := by
  obtain ⟨s, rfl, hp⟩ := enc.steps _ row h
  have hkey : s.toRow.fromRow.stepKey = s.stepKey := by
    rw [WorkflowStepExecution.fromRow_toRow, WorkflowStepExecution.stored_stepKey]
  rw [s.key_toRow_text] at h
  rw [hkey]
  exact ⟨view_stepRow.mpr ⟨h, hkey⟩, hp, s.key_toRow_text⟩

/-- Every step row sits at the key that its record spells. -/
def Keyed (db : E.Db) : Prop :=
  ∀ row : WorkflowStepExecutionRow, E.get db .steps row.key = some row →
    row.key = row.fromRow.stepKey.text

theorem Encoded.keyed {db : E.Db} (enc : Encoded db) : Keyed db :=
  fun _ h => (enc.step_row h).2.2

theorem encoded_putDefinition {db : E.Db} (enc : Encoded db) (d : WorkflowDefinition) :
    Encoded (E.put db .definitions d.toRow) where
  definitions k row h := by
    rw [E.get_put] at h
    split_ifs at h with hk
    · exact ⟨d, (Option.some_inj.mp h).symm⟩
    · exact enc.definitions k row h
  executions k row h := enc.executions k row (by rwa [E.get_put_table _ _ (by decide)] at h)
  singletonLocks k row h := enc.singletonLocks k row (by rwa [E.get_put_table _ _ (by decide)] at h)
  steps k row h := enc.steps k row (by rwa [E.get_put_table _ _ (by decide)] at h)

theorem encoded_putExecution {db : E.Db} (enc : Encoded db) (e : WorkflowExecution)
    (hp : PlainId e.workflowExecutionId) : Encoded (E.put db .executions e.toRow) where
  definitions k row h := enc.definitions k row (by rwa [E.get_put_table _ _ (by decide)] at h)
  executions k row h := by
    rw [E.get_put] at h
    split_ifs at h with hk
    · exact ⟨e, (Option.some_inj.mp h).symm, hp⟩
    · exact enc.executions k row h
  singletonLocks k row h := enc.singletonLocks k row (by rwa [E.get_put_table _ _ (by decide)] at h)
  steps k row h := enc.steps k row (by rwa [E.get_put_table _ _ (by decide)] at h)

theorem encoded_putLock {db : E.Db} (enc : Encoded db) (e : WorkflowExecution) :
    Encoded (E.put db .singletonLocks (Orchestrator.makeSingletonLock e)) where
  definitions k row h := enc.definitions k row (by rwa [E.get_put_table _ _ (by decide)] at h)
  executions k row h := enc.executions k row (by rwa [E.get_put_table _ _ (by decide)] at h)
  singletonLocks k row h := by
    rw [E.get_put] at h
    split_ifs at h with hk
    · exact ⟨e, (Option.some_inj.mp h).symm⟩
    · exact enc.singletonLocks k row h
  steps k row h := enc.steps k row (by rwa [E.get_put_table _ _ (by decide)] at h)

theorem encoded_putStep {db : E.Db} (enc : Encoded db) (s : WorkflowStepExecution)
    (hp : PlainId s.workflowExecutionId) : Encoded (E.put db .steps s.toRow) where
  definitions k row h := enc.definitions k row (by rwa [E.get_put_table _ _ (by decide)] at h)
  executions k row h := enc.executions k row (by rwa [E.get_put_table _ _ (by decide)] at h)
  singletonLocks k row h := enc.singletonLocks k row (by rwa [E.get_put_table _ _ (by decide)] at h)
  steps k row h := by
    rw [E.get_put] at h
    split_ifs at h with hk
    · exact ⟨s, (Option.some_inj.mp h).symm, hp⟩
    · exact enc.steps k row h

theorem view_putDefinition (db : E.Db) (d : WorkflowDefinition) :
    view (E.put db .definitions d.toRow) = (view db).setDefinition d := by
  have hd : (view (E.put db .definitions d.toRow)).definition =
      ((view db).setDefinition d).definition := by
    funext k
    rw [Ledger.setDefinition_definition]
    simp only [view, E.get_put]
    have hkey : (definitionKey k.1 k.2 = schema.key .definitions d.toRow) ↔
        k = (d.workflowName, d.workflowVersion) := by
      change definitionKey k.1 k.2 = d.toRow.key ↔ _
      rw [WorkflowDefinition.key_toRow, definitionKey_inj, Prod.ext_iff]
    simp only [hkey]
    split_ifs
    · rw [Option.map_some, WorkflowDefinition.fromRow_toRow]
    · rfl
  have hget : ∀ t : TableName, t ≠ .definitions → ∀ k,
      E.get (E.put db .definitions d.toRow) t k = E.get db t k :=
    fun t ht k => E.get_put_table _ _ ht
  refine Ledger.ext hd ?_ ?_ ?_
  · simp only [view, hget .executions (by decide), Ledger.setDefinition_executionRow]
  · simp only [view, hget .singletonLocks (by decide), Ledger.setDefinition_lock]
  · simp only [view, hget .steps (by decide), Ledger.setDefinition_stepRow]

theorem view_putExecution (db : E.Db) (e : WorkflowExecution) :
    view (E.put db .executions e.toRow) = (view db).setExecution e := by
  have he : (view (E.put db .executions e.toRow)).executionRow =
      ((view db).setExecution e).executionRow := by
    funext id
    simp only [view, E.get_put, Ledger.setExecution, Function.update_apply]
    rfl
  have hget : ∀ t : TableName, t ≠ .executions → ∀ k,
      E.get (E.put db .executions e.toRow) t k = E.get db t k :=
    fun t ht k => E.get_put_table _ _ ht
  refine Ledger.ext ?_ he ?_ ?_
  · simp only [view, hget .definitions (by decide), Ledger.setExecution_definition]
  · simp only [view, hget .singletonLocks (by decide), Ledger.setExecution_lock]
  · simp only [view, hget .steps (by decide), Ledger.setExecution_stepRow]

theorem view_putLock (db : E.Db) (e : WorkflowExecution) :
    view (E.put db .singletonLocks (Orchestrator.makeSingletonLock e)) = (view db).setLock e := by
  have hl : (view (E.put db .singletonLocks (Orchestrator.makeSingletonLock e))).lock =
      ((view db).setLock e).lock := by
    funext k
    simp only [view, E.get_put, Ledger.setLock, Function.update_apply]
    have hkey : (singletonLockKey k.1 k.2 =
        schema.key .singletonLocks (Orchestrator.makeSingletonLock e)) ↔ k = e.versionKey := by
      change singletonLockKey k.1 k.2 = (Orchestrator.makeSingletonLock e).key ↔ _
      rw [Orchestrator.key_makeSingletonLock]
      exact definitionKey_inj.trans (Prod.ext_iff (y := e.versionKey)).symm
    simp only [hkey]
    split_ifs <;> rfl
  have hget : ∀ t : TableName, t ≠ .singletonLocks → ∀ k,
      E.get (E.put db .singletonLocks (Orchestrator.makeSingletonLock e)) t k = E.get db t k :=
    fun t ht k => E.get_put_table _ _ ht
  refine Ledger.ext ?_ ?_ hl ?_
  · simp only [view, hget .definitions (by decide), Ledger.setLock]
  · simp only [view, hget .executions (by decide), Ledger.setLock]
  · simp only [view, hget .steps (by decide), Ledger.setLock]

theorem view_putStep {db : E.Db} (enc : Encoded db) (s : WorkflowStepExecution)
    (hp : PlainId s.workflowExecutionId) :
    view (E.put db .steps s.toRow) = (view db).setStep s := by
  have hs : (view (E.put db .steps s.toRow)).stepRow = ((view db).setStep s).stepRow := by
    funext k
    rw [Ledger.setStep_stepRow]
    split_ifs with hk
    · rw [view_stepRow, hk]
      refine ⟨?_, ?_⟩
      · rw [E.get_put]
        exact if_pos s.key_toRow_text.symm
      · rw [WorkflowStepExecution.fromRow_toRow, WorkflowStepExecution.stored_stepKey]
    · refine Option.ext fun row => ?_
      rw [view_stepRow, view_stepRow]
      refine and_congr_left fun hkey => ?_
      rw [E.get_put]
      split_ifs with htext
      · -- The text of another key can be the same only where no row is found.
        have htext' : k.text = s.stepKey.text := htext.trans s.key_toRow_text
        constructor
        · intro h
          cases h
          rw [WorkflowStepExecution.fromRow_toRow] at hkey
          exact absurd hkey.symm hk
        · intro hrow
          obtain ⟨u, rfl, hpu⟩ := enc.steps _ row hrow
          rw [WorkflowStepExecution.fromRow_toRow] at hkey
          have hpk : PlainId k.workflowExecutionId := hkey ▸ hpu
          exact absurd ((StepKey.text_inj hpk hp).mp htext') hk
      · rfl
  have hget : ∀ t : TableName, t ≠ .steps → ∀ k,
      E.get (E.put db .steps s.toRow) t k = E.get db t k :=
    fun t ht k => E.get_put_table _ _ ht
  refine Ledger.ext ?_ ?_ ?_ hs
  · simp only [view, hget .definitions (by decide), Ledger.setStep_definition]
  · simp only [view, hget .executions (by decide), Ledger.setStep_executionRow]
  · simp only [view, hget .singletonLocks (by decide), Ledger.setStep_lock]

end WorkflowEngine
