import WorkflowEngine.ExecutionJson
import WorkflowEngine.RowShapes

/-!
# Records, their rows and their keys

A record comes back from its row and from its public JSON as it went in, and
rows of different records sit at different keys of a store.
-/

namespace WorkflowEngine
open Txn Txn.Program Orchestrator WorkflowJson
open Iso8601 (Exact)

/-- Time stamps that the store gives back as they are. -/
structure WorkflowExecution.Kept (e : WorkflowExecution) : Prop where
  startedAt : ∀ t ∈ e.startedAt, Exact t
  completedAt : ∀ t ∈ e.completedAt, Exact t

theorem WorkflowExecution.Kept.stored {e : WorkflowExecution} (h : e.Kept) : e.stored = e := by
  rw [WorkflowExecution.stored, WorkflowStepExecution.storedTime_exact h.startedAt,
    WorkflowStepExecution.storedTime_exact h.completedAt]

theorem codecs_lossless {e : WorkflowExecution} (he : e.Kept) {s : WorkflowStepExecution}
    (hs : s.Kept) (d : WorkflowDefinition) :
    (e.toRow.fromRow = e ∧ workflowExecutionFromJson e.toJson = .ok e) ∧
    (s.toRow.fromRow = s ∧ workflowStepExecutionFromJson s.toJson = .ok s) ∧
    d.toRow.fromRow = d := by
  have hexecution : workflowExecutionFromJson e.toJson = .ok e.stored :=
    workflowExecutionFromJson_toJson e
  have hstep : workflowStepExecutionFromJson s.toJson = .ok s.stored :=
    workflowStepExecutionFromJson_toJson s
  rw [he.stored] at hexecution
  rw [hs.stored] at hstep
  refine ⟨⟨?_, hexecution⟩, ⟨?_, hstep⟩, d.fromRow_toRow⟩
  · rw [e.fromRow_toRow, he.stored]
  · rw [s.fromRow_toRow, hs.stored]

theorem codecs_lossless_failed :
    let e : WorkflowExecution := {
      workflowExecutionId := "e:1", workflowName := "", workflowVersion := -1, status := .failed
      currentStepName := "ship", failureReason := some "", startedAt := some 0
      completedAt := some 253402300799999999000 }
    let s : WorkflowStepExecution := {
      workflowExecutionId := "e:1", workflowName := "", workflowVersion := -1, stepName := "ship"
      attempt := 2147483647, status := .failed, leaseExpiresAt := some 253402300799999999000
      createdAt := some 0, scheduledAt := some 1000, startedAt := some 1000
      completedAt := some 253402300799999999000, output := .null }
    (e.toRow.fromRow = e ∧ workflowExecutionFromJson e.toJson = .ok e) ∧
    (s.toRow.fromRow = s ∧ workflowStepExecutionFromJson s.toJson = .ok s) ∧
    (Sample.definition true 3).toRow.fromRow = Sample.definition true 3 := by
  have hsome : ∀ u, Exact u → ∀ t ∈ some u, Exact t :=
    fun u hu t ht => Option.mem_some_iff.mp ht ▸ hu
  have hfirst : Exact 0 := ⟨by decide, by decide, by decide⟩
  have hsecond : Exact 1000 := ⟨by decide, by decide, by decide⟩
  have hlast : Exact 253402300799999999000 := ⟨by decide, by decide, by decide⟩
  exact codecs_lossless ⟨hsome _ hfirst, hsome _ hlast⟩
    ⟨hsome _ hlast, hsome _ hfirst, hsome _ hsecond, hsome _ hsecond, hsome _ hlast⟩ _

/-- What `generateExecutionId` can return. -/
def Generated (id : String) : Prop :=
  ∃ (E : Engine schema) (env : Environment) (tx tx' : Tx E),
    Returns env generateExecutionId tx id tx'

theorem Generated.plain {id : String} (h : Generated id) : PlainId id := by
  obtain ⟨E, env, tx, tx', hr⟩ := h
  exact (generateExecutionId_spec hr).1

variable {E : Engine schema} {db : E.Db}

theorem row_identity_collision_free (h : Reachable E db) {id id' : String} (hid : Generated id)
    (hid' : Generated id') :
    (∀ name name' version version', definitionKey name version = definitionKey name' version' ↔
      name = name' ∧ version = version') ∧
    (∀ stepName stepName' attempt attempt',
      stepExecutionKey id stepName attempt = stepExecutionKey id' stepName' attempt' ↔
        id = id' ∧ stepName = stepName' ∧ attempt = attempt') ∧
    (∀ d : WorkflowDefinition, d.toRow.key = definitionKey d.workflowName d.workflowVersion) ∧
    (∀ s : WorkflowStepExecution,
      s.toRow.key = stepExecutionKey s.workflowExecutionId s.stepName s.attempt) ∧
    (∀ k (row : WorkflowDefinitionRow), E.get db .definitions k = some row → row.key = k ∧
      k = definitionKey row.fromRow.workflowName row.fromRow.workflowVersion) ∧
    (∀ k (row : WorkflowStepExecutionRow), E.get db .steps k = some row → row.key = k ∧
      k = stepExecutionKey row.fromRow.workflowExecutionId row.fromRow.stepName
        row.fromRow.attempt) := by
  refine ⟨fun _ _ _ _ => definitionKey_inj, fun _ _ _ _ => stepExecutionKey_inj hid.plain hid'.plain,
    WorkflowDefinition.key_toRow, WorkflowStepExecution.key_toRow, ?_, ?_⟩
  · intro k row hrow
    obtain ⟨d, rfl⟩ := h.sound.encoded.definitions k row hrow
    have hkey : d.toRow.key = k := E.key_of_get db .definitions k d.toRow hrow
    rw [d.fromRow_toRow]
    exact ⟨hkey, hkey.symm.trans d.key_toRow⟩
  · intro k row hrow
    have hkey : row.key = k := E.key_of_get db .steps k row hrow
    rw [← hkey] at hrow
    exact ⟨hkey, hkey.symm.trans (h.sound.encoded.step_row hrow).2.2⟩

theorem row_identity_collision_free_sample :
    (Sample.id 0 ≠ Sample.id 1 ∧ ∀ stepName stepName' attempt attempt',
      stepExecutionKey (Sample.id 0) stepName attempt ≠
        stepExecutionKey (Sample.id 1) stepName' attempt') ∧
    ∀ k (row : WorkflowStepExecutionRow),
      Sample.store.get (Sample.after (Sample.begin (Sample.definition false 0))) .steps k = some row →
      k = stepExecutionKey row.fromRow.workflowExecutionId row.fromRow.stepName
        row.fromRow.attempt := by
  have hreachable : Reachable Sample.store (Sample.after (Sample.begin (Sample.definition false 0))) :=
    reachable_play (by decide +kernel)
  have hgenerated : ∀ seed, Generated (Sample.id seed) := fun seed =>
    ⟨Sample.store, scripted 0 seed [] {}, Tx.begin Sample.store.empty, _, rfl⟩
  have hne : Sample.id 0 ≠ Sample.id 1 := by decide +kernel
  obtain ⟨-, hsteps, -, -, -, hstored⟩ :=
    row_identity_collision_free hreachable (hgenerated 0) (hgenerated 1)
  refine ⟨⟨hne, ?_⟩, fun k row hrow => (hstored k row hrow).2⟩
  intro stepName stepName' attempt attempt' heq
  exact hne ((hsteps stepName stepName' attempt attempt').mp heq).1

end WorkflowEngine
