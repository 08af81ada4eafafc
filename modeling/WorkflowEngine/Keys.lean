import WorkflowEngine.Orchestrator
import WorkflowEngine.Text.Separated

/-!
# Row identity

A key is an unescaped join with colons. It determines its parts because a
generated execution identifier has no colon and neither has a number.
-/

namespace WorkflowEngine
open Text

/-- The identifiers that `generateExecutionId` can produce are of this kind. -/
def PlainId (id : String) : Prop := ':' ∉ id.toList

theorem toDecimal_inj {m n : ℤ} : toDecimal m = toDecimal n ↔ m = n :=
  ⟨fun h => intToString_injective h, fun h => h ▸ rfl⟩

theorem join_colon_toList (a b : String) : (a ++ ":" ++ b).toList = a.toList ++ ':' :: b.toList := by
  simp [String.toList_append]

theorem join_number_inj {a a' : String} {n n' : ℤ}
    (h : a ++ ":" ++ toDecimal n = a' ++ ":" ++ toDecimal n') : a = a' ∧ n = n' := by
  have hl := congrArg String.toList h
  rw [join_colon_toList, join_colon_toList] at hl
  obtain ⟨ha, hn⟩ := split_last (colon_notMem_toString n) (colon_notMem_toString n') hl
  exact ⟨String.toList_inj.mp ha, toDecimal_inj.mp (String.toList_inj.mp hn)⟩

theorem definitionKey_inj {name name' : String} {version version' : Int32} :
    definitionKey name version = definitionKey name' version' ↔
      name = name' ∧ version = version' := by
  constructor
  · intro h
    obtain ⟨hn, hv⟩ := join_number_inj h
    exact ⟨hn, Int32.toInt_inj.mp hv⟩
  · intro h
    obtain ⟨rfl, rfl⟩ := h
    rfl

theorem stepExecutionKey_inj {id id' name name' : String} {attempt attempt' : Int32}
    (hid : PlainId id) (hid' : PlainId id') :
    stepExecutionKey id name attempt = stepExecutionKey id' name' attempt' ↔
      id = id' ∧ name = name' ∧ attempt = attempt' := by
  constructor
  · intro h
    obtain ⟨hj, ha⟩ := join_number_inj h
    have hl := congrArg String.toList hj
    rw [join_colon_toList, join_colon_toList] at hl
    obtain ⟨hi, hn⟩ := split_first hid hid' hl
    exact ⟨String.toList_inj.mp hi, String.toList_inj.mp hn, Int32.toInt_inj.mp ha⟩
  · intro h
    obtain ⟨rfl, rfl, rfl⟩ := h
    rfl

@[simp] theorem WorkflowDefinition.key_toRow (d : WorkflowDefinition) :
    d.toRow.key = definitionKey d.workflowName d.workflowVersion := by
  simp [WorkflowDefinitionRow.key, toRow, definitionKey]

@[simp] theorem WorkflowExecution.key_toRow (e : WorkflowExecution) :
    e.toRow.key = e.workflowExecutionId := rfl

@[simp] theorem WorkflowStepExecution.key_toRow (s : WorkflowStepExecution) :
    s.toRow.key = stepExecutionKey s.workflowExecutionId s.stepName s.attempt := by
  simp [WorkflowStepExecutionRow.key, toRow, stepExecutionKey]

namespace Orchestrator

@[simp] theorem key_makeSingletonLock (e : WorkflowExecution) :
    (makeSingletonLock e).key = singletonLockKey e.workflowName e.workflowVersion := by
  simp [WorkflowSingletonLockRow.key, makeSingletonLock, singletonLockKey]

theorem colon_notMem_hex (width : ℕ) (n : UInt32) : ':' ∉ hex width n := by
  unfold hex
  simp only [List.mem_append, not_or]
  exact ⟨fun h => absurd (List.eq_of_mem_replicate h) (by decide),
    digitChar_ne (by decide) 16 _ (by omega) (by omega)⟩

theorem formatExecutionId_plain (a b c d e f : UInt32) :
    PlainId (formatExecutionId a b c d e f) := by
  have hd : ':' ≠ '-' := by decide
  simp only [PlainId, formatExecutionId, String.toList_ofList, List.mem_append, List.mem_cons,
    colon_notMem_hex, hd, or_self, not_false_eq_true]

end Orchestrator
end WorkflowEngine
