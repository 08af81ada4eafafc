import WorkflowEngine.DurationText
import WorkflowEngine.Ledger
import WorkflowEngine.Validation

/-!
# Definitions whose steps have a lease

The validator's duration grammar also has years, months and weeks, accepts
zero and any number of digits, and does not ask for the field at all. The lease
calculation knows days and times only. A definition that was accepted gives
each of its steps a lease exactly if every step states a duration that both
understand.
-/

namespace WorkflowEngine
open WorkflowJson

/-- The step states a time of 1 to 2^63 - 1 seconds in days, hours, minutes and seconds. -/
def Executable (item : Json) : Prop :=
  ∃ text, item.at "expectedExecutionTime" = .ok (.string text) ∧ Duration.Leasable text

theorem leaseDurationForStep_returns {s : WorkflowStep} :
    (∃ n, Orchestrator.leaseDurationForStep s = .ok n ∧ 1 ≤ n) ↔
      ∃ text, s.expectedExecutionTime = some text ∧ Duration.Leasable text := by
  rw [Orchestrator.leaseDurationForStep]
  cases s.expectedExecutionTime with
  | none => simp
  | some text =>
    simp only [Option.some_inj]
    constructor
    · intro h
      obtain ⟨n, hn, -⟩ := h
      exact ⟨text, rfl, Duration.calculateLeaseDuration_returns.mp ⟨n, hn⟩⟩
    · intro h
      obtain ⟨_, rfl, h⟩ := h
      obtain ⟨n, hn⟩ := Duration.calculateLeaseDuration_returns.mpr h
      exact ⟨n, hn, Duration.one_le_calculateLeaseDuration hn⟩

theorem findStepDefinition_mem {d : WorkflowDefinition} {name : String} {s : WorkflowStep}
    (h : Orchestrator.findStepDefinition d name = .ok s) : s ∈ d.steps ∧ s.name = name := by
  unfold Orchestrator.findStepDefinition at h
  split at h
  · next found hfound =>
    obtain rfl := Except.ok.inj h
    exact ⟨List.mem_of_find?_eq_some hfound, by simpa using List.find?_some hfound⟩
  · cases h

theorem stepDefinitionExists_iff {d : WorkflowDefinition} {name : String} :
    Orchestrator.stepDefinitionExists d name = true ↔ name ∈ d.steps.map WorkflowStep.name := by
  simp [Orchestrator.stepDefinitionExists]

theorem findStepDefinition_of_mem {d : WorkflowDefinition} {s : WorkflowStep}
    (nodup : (d.steps.map WorkflowStep.name).Nodup) (h : s ∈ d.steps) :
    Orchestrator.findStepDefinition d s.name = .ok s := by
  have hfound : ∃ t, Orchestrator.findStepDefinition d s.name = .ok t := by
    unfold Orchestrator.findStepDefinition
    split
    · exact ⟨_, rfl⟩
    · next hnone => exact absurd (List.find?_eq_none.mp hnone s h) (by simp)
  obtain ⟨t, ht⟩ := hfound
  obtain ⟨hmem, hname⟩ := findStepDefinition_mem ht
  rw [ht, List.inj_on_of_nodup_map nodup hmem h hname]

theorem lease_returns {d : WorkflowDefinition} (wf : WellFormed d) :
    (∀ name, Orchestrator.stepDefinitionExists d name = true → ∃ n, d.lease name = .ok n ∧ 1 ≤ n) ↔
      ∀ s ∈ d.steps, ∃ n, Orchestrator.leaseDurationForStep s = .ok n ∧ 1 ≤ n := by
  constructor
  · intro h s hs
    obtain ⟨n, hn, hone⟩ := h s.name (stepDefinitionExists_iff.mpr (List.mem_map_of_mem hs))
    rw [WorkflowDefinition.lease, findStepDefinition_of_mem wf.names_nodup hs] at hn
    exact ⟨n, hn, hone⟩
  · intro h name hname
    obtain ⟨s, hs, rfl⟩ := List.mem_map.mp (stepDefinitionExists_iff.mp hname)
    obtain ⟨n, hn, hone⟩ := h s hs
    rw [WorkflowDefinition.lease, findStepDefinition_of_mem wf.names_nodup hs]
    exact ⟨n, hn, hone⟩

theorem executable_iff {item : Json} {s : WorkflowStep} (h : ParsedStep item s) :
    (∃ n, Orchestrator.leaseDurationForStep s = .ok n ∧ 1 ≤ n) ↔ Executable item := by
  rw [leaseDurationForStep_returns]
  simp only [Executable, ← h.time]

theorem forall_executable {items : List Json} {steps : List WorkflowStep}
    (h : List.Forall₂ ParsedStep items steps) :
    (∀ s ∈ steps, ∃ n, Orchestrator.leaseDurationForStep s = .ok n ∧ 1 ≤ n) ↔
      ∀ item ∈ items, Executable item := by
  induction h with
  | nil => simp
  | cons hstep _ ih => rw [List.forall_mem_cons, List.forall_mem_cons, ih, executable_iff hstep]

/-- An accepted value is parsed, and a step of the definition has a lease of at least one second
exactly if the value states an executable time for it. -/
theorem accepted_definition_executable_iff {value : Json} {result : ValidationResult}
    (validation : validateWorkflowJson value = .ok result) (valid : result.valid = true) :
    ∃ d items, parseWorkflowDefinition value = .ok d ∧ value.at "steps" = .ok (.array items) ∧
      List.Forall₂ (fun item s =>
        (∃ n, Orchestrator.leaseDurationForStep s = .ok n ∧ 1 ≤ n) ↔ Executable item)
          items d.steps ∧
      ((∀ name, Orchestrator.stepDefinitionExists d name = true →
          ∃ n, d.lease name = .ok n ∧ 1 ≤ n) ↔ ∀ item ∈ items, Executable item) := by
  obtain ⟨result', hresult, hvalid⟩ := validateWorkflowJson_valid value
  rw [validation] at hresult
  obtain rfl := Except.ok.inj hresult
  obtain ⟨o, items, rfl, accepted⟩ := hvalid.mp valid
  obtain ⟨d, hd, wf, parsed⟩ := parseWorkflowDefinition_accepted accepted
  refine ⟨d, items, hd, Json.at_object _ _ accepted.steps,
    parsed.imp fun _ _ h => executable_iff h, ?_⟩
  rw [lease_returns wf, forall_executable parsed]

def oneStep (name time : String) : Json :=
  .object [("expectedExecutionTime", .string "PT1H"), ("startWorkflowStepName", .string name),
    ("steps", .array [.object [("expectedExecutionTime", .string time), ("name", .string name)]]),
    ("workflowName", .string "order"), ("workflowVersion", .int64 1)]

def oneStepDefinition (name time : String) : WorkflowDefinition where
  workflowName := "order"
  workflowVersion := 1
  startWorkflowStepName := name
  expectedExecutionTime := "PT1H"
  steps := [{ name := name, expectedExecutionTime := some time }]

theorem leasable_minute : Duration.Leasable "PT1M" := by
  have hdigits : Duration.Digits (some ['1']) := by
    intro ds hds
    obtain rfl := Option.some_inj.mp hds
    refine ⟨by simp, ?_⟩
    simp [Duration.isDigit]
  have hnone : Duration.Digits none := nofun
  have hspells : Duration.Spells "PT1M".toList { minutes := some ['1'] } :=
    Duration.Spells.time (p := { minutes := some ['1'] }) hnone hnone hdigits hnone
  exact ⟨_, hspells, by decide, by decide⟩

theorem accepted_definition_executable_iff_minute :
    ∃ n, (oneStepDefinition "ship" "PT1M").lease "ship" = .ok n ∧ 1 ≤ n := by
  have validation : validateWorkflowJson (oneStep "ship" "PT1M") = .ok {} := by decide +kernel
  have hparse : parseWorkflowDefinition (oneStep "ship" "PT1M") =
      .ok (oneStepDefinition "ship" "PT1M") := by
    decide +kernel
  obtain ⟨d, items, hd, hitems, -, hlease⟩ := accepted_definition_executable_iff validation rfl
  rw [hparse] at hd
  obtain rfl := Except.ok.inj hd
  obtain rfl := Json.array.inj (Except.ok.inj hitems)
  refine hlease.mpr ?_ "ship" rfl
  intro item hitem
  obtain rfl := List.mem_singleton.mp hitem
  exact ⟨"PT1M", rfl, leasable_minute⟩

/-- A year is accepted, and a step that takes one cannot be claimed. -/
theorem year_accepted_without_lease :
    ¬ ∀ (value : Json) (result : ValidationResult) (d : WorkflowDefinition),
      validateWorkflowJson value = .ok result → result.valid = true →
      parseWorkflowDefinition value = .ok d →
      ∀ s ∈ d.steps, ∃ n, Orchestrator.leaseDurationForStep s = .ok n ∧ 1 ≤ n := by
  intro hall
  obtain ⟨n, hn, -⟩ := hall (oneStep "ship" "P1Y") {} (oneStepDefinition "ship" "P1Y")
    (by decide +kernel) rfl
    (by decide +kernel) _ (List.mem_singleton_self _)
  have herr : (Orchestrator.leaseDurationForStep
      { name := "ship", expectedExecutionTime := some "P1Y" }).toOption = none := by
    decide +kernel
  rw [hn] at herr
  cases herr

end WorkflowEngine
