import WorkflowEngine.WorkflowJson

/-!
# What the validator accepts

Each check returns on every value and adds an error exactly if its condition
fails, so validation as a whole accepts exactly the objects that meet all of
them, and parsing an accepted object reaches no failing accessor.
-/

namespace WorkflowEngine
namespace WorkflowJson
open Text Text.Regex

/-- A check that returned: it added no error exactly if the condition holds. -/
def Checks (condition : Prop) (result : ValidationResult)
    (checked : Except Exception ValidationResult) : Prop :=
  ∃ es, checked = .ok (result.addErrors es) ∧ (es = [] ↔ condition)

variable {C D : Prop} {result : ValidationResult} {checked : Except Exception ValidationResult}

theorem Checks.bind {next : ValidationResult → Except Exception ValidationResult}
    (h : Checks C result checked) (hnext : ∀ result, Checks D result (next result)) :
    Checks (C ∧ D) result (checked >>= next) := by
  obtain ⟨es, rfl, hC⟩ := h
  obtain ⟨es', hes', hD⟩ := hnext (result.addErrors es)
  refine ⟨es ++ es', ?_, ?_⟩
  · rw [ValidationResult.addErrors_append]
    exact hes'
  · rw [List.append_eq_nil_iff, hC, hD]

theorem Checks.passes (hC : C) : Checks C result (.ok result) := ⟨[], rfl, by simp [hC]⟩

theorem Checks.reports {error : String} (hC : ¬ C) :
    Checks C result (.ok (result.addError error)) :=
  ⟨[error], rfl, by simp [hC]⟩

theorem Checks.of_iff (h : Checks C result checked) (hCD : C ↔ D) : Checks D result checked := by
  obtain ⟨es, hes, hC⟩ := h
  exact ⟨es, hes, hC.trans hCD⟩

theorem checks_test {fault : Prop} [Decidable fault] {error : String} (h : ¬ fault ↔ C) :
    Checks C result (if fault then pure (result.addError error) else pure result) := by
  by_cases hf : fault
  · rw [if_pos hf]
    exact .reports fun hC => h.mpr hC hf
  · rw [if_neg hf]
    exact .passes (h.mp hf)

variable {o : Json.Object} {fieldName path : String} {v : Json}

theorem has_of_get (h : o.get? fieldName = some v) : Json.has (.object o) fieldName = .ok true := by
  rw [Json.has_object, Json.Object.count_eq, h]
  rfl

theorem has_of_none (h : o.get? fieldName = none) :
    Json.has (.object o) fieldName = .ok false := by
  rw [Json.has_object, Json.Object.count_eq, h]
  rfl

theorem get_of_at (h : Json.at (.object o) fieldName = .ok v) :
    o.get? fieldName = some v := by
  cases hw : o.get? fieldName with
  | none =>
    simp only [Json.at, Json.asObject, bind, Except.bind, hw] at h
    cases h
  | some w =>
    rw [Json.at_object _ _ hw] at h
    rw [Except.ok.inj h]

theorem checks_requireField : Checks (∃ v, o.get? fieldName = some v) result
    (requireField (.object o) result fieldName path) := by
  rw [requireField]
  cases h : o.get? fieldName with
  | none =>
    rw [has_of_none h]
    exact .reports (by simp)
  | some v =>
    rw [has_of_get h]
    exact .passes ⟨v, rfl⟩

def Required (o : Json.Object) (fieldName : String) (passes : Json → Prop) : Prop :=
  ∃ v, o.get? fieldName = some v ∧ passes v

def Optional (o : Json.Object) (fieldName : String) (passes : Json → Prop) : Prop :=
  ∀ v, o.get? fieldName = some v → passes v

theorem Required.optional {passes : Json → Prop} (h : Required o fieldName passes) :
    Optional o fieldName passes := by
  obtain ⟨v, hv, hp⟩ := h
  intro v' hv'
  rw [hv] at hv'
  exact Option.some_inj.mp hv' ▸ hp

def Text (passes : String → Prop) (value : Json) : Prop := ∃ text, value = .string text ∧ passes text

theorem checks_field {check : Except Exception ValidationResult} {passes : Json → Prop}
    (hpresent : ∀ v, o.get? fieldName = some v → Checks (passes v) result check) :
    Checks (Optional o fieldName passes) result (do
      if !(← Json.has (.object o) fieldName) then
        return result
      check) := by
  cases h : o.get? fieldName with
  | none =>
    rw [has_of_none h]
    exact .passes fun v hv => by rw [h] at hv; cases hv
  | some v =>
    rw [has_of_get h]
    refine (hpresent v h).of_iff ⟨fun hp v' hv => ?_, fun hp => hp v h⟩
    rw [h] at hv
    exact Option.some_inj.mp hv ▸ hp

theorem isNonEmptyString_eq (value : Json) : isNonEmptyString value =
    .ok (match value with | .string text => text != "" | _ => false) := by
  cases value <;> rfl

theorem checks_requiredString : Checks (Required o fieldName (Text (· ≠ ""))) result
    (validateRequiredStringField (.object o) result fieldName path) := by
  rw [validateRequiredStringField]
  refine (checks_requireField.bind (D := Optional o fieldName (Text (· ≠ ""))) fun result =>
    checks_field fun v h => ?_).of_iff ?_
  · rw [Json.at_object _ _ h]
    simp only [bind, Except.bind]
    rw [isNonEmptyString_eq]
    refine checks_test ?_
    cases v <;> simp [Text]
  · constructor
    · intro ⟨⟨v, hv⟩, hopt⟩
      exact ⟨v, hv, hopt v hv⟩
    · intro h
      exact ⟨⟨h.choose, h.choose_spec.1⟩, Required.optional h⟩

theorem required_iff {passes also : Json → Prop} :
    Required o fieldName passes ∧ Optional o fieldName also ↔
      Required o fieldName fun v => passes v ∧ also v := by
  constructor
  · intro ⟨⟨v, hv, hp⟩, hopt⟩
    exact ⟨v, hv, hp, hopt v hv⟩
  · intro ⟨v, hv, hp, ha⟩
    exact ⟨⟨v, hv, hp⟩, Required.optional ⟨v, hv, ha⟩⟩

theorem checks_requiredText {passes : String → Bool} {message : String}
    (hempty : passes "" = false) :
    Checks (Required o fieldName (Text (passes · = true))) result
      (validateRequiredTextField passes message (.object o) result fieldName path) := by
  rw [validateRequiredTextField]
  refine (checks_requiredString.bind
    (D := Optional o fieldName fun v => ∀ text, v = .string text → passes text = true)
    fun result => checks_field fun v h => ?_).of_iff ?_
  · rw [Json.at_object _ _ h]
    cases v with
    | string text =>
      refine checks_test (C := ∀ text', Json.string text = .string text' → passes text' = true) ?_
      simp
    | _ => exact .passes nofun
  · rw [required_iff]
    constructor
    · intro ⟨v, hv, ⟨text, htext, _⟩, hp⟩
      exact ⟨v, hv, text, htext, hp text htext⟩
    · intro ⟨v, hv, text, htext, hp⟩
      refine ⟨v, hv, ⟨text, htext, ?_⟩, ?_⟩
      · intro hnil
        rw [hnil, hempty] at hp
        cases hp
      · intro text' htext'
        rw [htext] at htext'
        exact Json.string.inj htext' ▸ hp

theorem checks_requiredName : Checks (Required o fieldName (Text (isValidName · = true))) result
    (validateRequiredNameField (.object o) result fieldName path) :=
  checks_requiredText (by decide)

theorem checks_requiredDuration :
    Checks (Required o fieldName (Text (isValidDuration · = true))) result
      (validateRequiredDurationField (.object o) result fieldName path) :=
  checks_requiredText (by decide)

theorem checks_optionalDuration :
    Checks (Optional o fieldName (Text (isValidDuration · = true))) result
      (validateOptionalDurationField (.object o) result fieldName path) := by
  rw [validateOptionalDurationField]
  refine checks_field fun v h => ?_
  rw [Json.at_object _ _ h]
  cases v with
  | string text =>
    refine checks_test (C := Text (isValidDuration · = true) (.string text)) ?_
    simp [Text]
  | _ => exact .reports (by simp [Text])

/-- An integer whose low 32 bits, as an `int`, are at least the bound. -/
def IntAtLeast (bound : Int32) (value : Json) : Prop :=
  ∃ n, value = .int64 n ∧ ¬ n.toInt32 < bound

theorem checks_optionalNonNegativeInteger :
    Checks (Optional o fieldName (IntAtLeast 0)) result
      (validateOptionalNonNegativeIntegerField (.object o) result fieldName path) := by
  rw [validateOptionalNonNegativeIntegerField]
  refine checks_field fun v h => ?_
  rw [Json.at_object _ _ h]
  cases v with
  | int64 n =>
    refine checks_test (C := IntAtLeast 0 (.int64 n)) ?_
    simp [IntAtLeast]
  | _ => exact .reports (by simp [IntAtLeast])

theorem checks_optionalBoolean :
    Checks (Optional o fieldName (fun v => ∃ b, v = .bool b)) result
      (validateOptionalBooleanField (.object o) result fieldName path) := by
  rw [validateOptionalBooleanField]
  refine checks_field fun v h => ?_
  rw [Json.at_object _ _ h]
  refine checks_test (C := ∃ b, v = .bool b) ?_
  cases v <;> simp [Json.isBool]

theorem checks_noAdditionalTopLevelFields :
    Checks (∀ field ∈ o, field.1 ∈ allowedFields) result
      (validateNoAdditionalTopLevelFields (.object o) result) := by
  change Checks _ _ (Except.ok (List.foldl _ result o))
  induction o generalizing result with
  | nil => exact .passes (by simp)
  | cons field o ih =>
    rw [List.foldl_cons]
    have hrest : Checks (∀ f ∈ o, f.1 ∈ allowedFields)
        (if !allowedFields.contains field.1 then
          result.addError ("top-level field '" ++ field.1 ++ "' is not allowed") else result) _ := ih
    obtain ⟨es, hes, hC⟩ := hrest
    rw [Except.ok.injEq] at hes
    rw [hes]
    by_cases hf : field.1 ∈ allowedFields
    · refine ⟨es, ?_, ?_⟩
      · simp [hf]
      · simpa [hf] using hC
    · refine ⟨("top-level field '" ++ field.1 ++ "' is not allowed") :: es, ?_, ?_⟩
      · simp [hf, ValidationResult.addErrors]
      · simp [hf]

theorem checks_workflowVersion :
    Checks (Optional o "workflowVersion" (IntAtLeast 1)) result
      (validateWorkflowVersion (.object o) result) := by
  rw [validateWorkflowVersion]
  refine checks_field fun v h => ?_
  rw [Json.at_object _ _ h]
  cases v with
  | int64 n =>
    refine checks_test (C := IntAtLeast 1 (.int64 n)) ?_
    simp [IntAtLeast]
  | _ => exact .reports (by simp [IntAtLeast])

theorem checks_startStepName {stepNames : List String} :
    Checks (Optional o "startWorkflowStepName"
        fun v => ∀ text, v = .string text → text ∈ stepNames) result
      (validateStartStepName (.object o) result stepNames) := by
  rw [validateStartStepName]
  refine checks_field fun v h => ?_
  rw [Json.at_object _ _ h]
  cases v with
  | string text =>
    refine checks_test (C := ∀ text', Json.string text = .string text' → text' ∈ stepNames) ?_
    simp
  | _ => exact .passes nofun

/-- The name that the loop over the steps takes note of. -/
def stepName : Json → Option String
  | .object o => match Json.Object.get? o "name" with
    | some (.string name) => some name
    | _ => none
  | _ => none

def seen (stepNames : List String) (step : Json) : List String :=
  match stepName step with
  | some name => if stepNames.contains name then stepNames else name :: stepNames
  | none => stepNames

theorem mem_seen {stepNames : List String} {step : Json} {name : String} :
    name ∈ seen stepNames step ↔ name ∈ stepNames ∨ stepName step = some name := by
  unfold seen
  split
  · next found h =>
    rw [h, Option.some_inj]
    split_ifs with hs
    · constructor
      · exact .inl
      · intro h
        obtain (hn | rfl) := h
        · exact hn
        · simpa using hs
    · rw [List.mem_cons, or_comm, eq_comm]
  · next h => simp [h]

structure StepAccepted (o : Json.Object) : Prop where
  name : Required o "name" (Text (isValidName · = true))
  expectedExecutionTime : Optional o "expectedExecutionTime" (Text (isValidDuration · = true))
  maxRetries : Optional o "maxRetries" (IntAtLeast 0)

theorem noteStepName_eq (path : String) (result : ValidationResult) (stepNames : List String) : ∃ es,
    noteStepName (.object o) path result stepNames =
        .ok (result.addErrors es, seen stepNames (.object o)) ∧
      (es = [] ↔ ∀ name, stepName (.object o) = some name → name ∉ stepNames) := by
  rw [noteStepName, seen, stepName]
  cases h : o.get? "name" with
  | none =>
    rw [has_of_none h]
    exact ⟨[], rfl, by simp⟩
  | some v =>
    rw [has_of_get h, Json.at_object _ _ h]
    cases v with
    | string name =>
      by_cases hn : stepNames.contains name = true
      · refine ⟨[path ++ ".name duplicates another step name: " ++ name], ?_, ?_⟩
        · simp only [bind, Except.bind, Json.isString, Json.asString, hn]
          rfl
        · simpa using hn
      · refine ⟨[], ?_, ?_⟩
        · simp only [bind, Except.bind, Json.isString, Json.asString, hn]
          rfl
        · simpa using hn
    | _ => exact ⟨[], rfl, by simp⟩

theorem validateStep_eq (i : ℕ) (step : Json) (result : ValidationResult)
    (stepNames : List String) : ∃ es,
      validateStep i step result stepNames = .ok (result.addErrors es, seen stepNames step) ∧
      (es = [] ↔ (∃ o, step = .object o ∧ StepAccepted o) ∧
        ∀ name, stepName step = some name → name ∉ stepNames) := by
  cases step with
  | object o =>
    have hchecks : ∀ path, Checks (StepAccepted o) result (do
        let result ← validateRequiredNameField (.object o) result "name" path
        let result ← validateOptionalDurationField (.object o) result "expectedExecutionTime" path
        validateOptionalNonNegativeIntegerField (.object o) result "maxRetries" path) :=
      fun path => (checks_requiredName.bind fun _ => checks_optionalDuration.bind fun _ =>
        checks_optionalNonNegativeInteger).of_iff ⟨fun h => ⟨h.1, h.2.1, h.2.2⟩,
          fun h => ⟨h.1, h.2, h.3⟩⟩
    obtain ⟨es, hes, hC⟩ := hchecks ("$.steps[" ++ toString i ++ "]")
    obtain ⟨es', hes', hC'⟩ := noteStepName_eq (o := o) ("$.steps[" ++ toString i ++ "]")
      (result.addErrors es) stepNames
    refine ⟨es ++ es', ?_, ?_⟩
    · have hsplit : validateStep i (.object o) result stepNames = (do
          let result ← validateRequiredNameField (.object o) result "name"
            ("$.steps[" ++ toString i ++ "]")
          let result ← validateOptionalDurationField (.object o) result "expectedExecutionTime"
            ("$.steps[" ++ toString i ++ "]")
          validateOptionalNonNegativeIntegerField (.object o) result "maxRetries"
            ("$.steps[" ++ toString i ++ "]")) >>= fun result =>
            noteStepName (.object o) ("$.steps[" ++ toString i ++ "]") result stepNames := by
        simp only [bind_assoc]
        rfl
      rw [hsplit, hes, ValidationResult.addErrors_append]
      exact hes'
    · rw [List.append_eq_nil_iff, hC, hC']
      simp
  | _ =>
    refine ⟨["$.steps[" ++ toString i ++ "]" ++ " must be an object"], rfl, ?_⟩
    simp

theorem validateSteps_eq (i : ℕ) (steps : List Json) (result : ValidationResult)
    (stepNames : List String) : ∃ es stepNames',
      validateSteps i steps result stepNames = .ok (result.addErrors es, stepNames') ∧
      (∀ name, name ∈ stepNames' ↔ name ∈ stepNames ∨ name ∈ steps.filterMap stepName) ∧
      (es = [] ↔ (∀ step ∈ steps, ∃ o, step = .object o ∧ StepAccepted o) ∧
        (steps.filterMap stepName).Nodup ∧
        ∀ name ∈ steps.filterMap stepName, name ∉ stepNames) := by
  induction steps generalizing i result stepNames with
  | nil => exact ⟨[], stepNames, rfl, by simp, by simp⟩
  | cons step steps ih =>
    obtain ⟨es, hes, hC⟩ := validateStep_eq i step result stepNames
    obtain ⟨es', stepNames', hes', hseen, hC'⟩ :=
      ih (i + 1) (result.addErrors es) (seen stepNames step)
    refine ⟨es ++ es', stepNames', ?_, ?_, ?_⟩
    · rw [validateSteps, hes, ValidationResult.addErrors_append]
      exact hes'
    · intro name
      rw [hseen, mem_seen, List.mem_filterMap, List.mem_filterMap]
      simp [or_assoc]
    · rw [List.append_eq_nil_iff, hC, hC']
      rw [List.forall_mem_cons, and_assoc, and_assoc]
      refine and_congr_right fun _ => ?_
      rw [and_left_comm]
      refine and_congr_right fun _ => ?_
      cases h : stepName step with
      | none => simp [h, mem_seen]
      | some name =>
        simp only [mem_seen, h, Option.some_inj, List.filterMap_cons, List.nodup_cons,
          List.forall_mem_cons, not_or]
        constructor
        · intro ⟨hname, hnodup, hnew⟩
          exact ⟨⟨fun hm => (hnew name hm).2 rfl, hnodup⟩, hname name rfl, fun n hm => (hnew n hm).1⟩
        · intro ⟨⟨hfresh, hnodup⟩, hname, hnew⟩
          refine ⟨fun n hn => hn ▸ hname, hnodup, fun n hm => ⟨hnew n hm, ?_⟩⟩
          intro hn
          exact hfresh (hn ▸ hm)

theorem checks_fields : Checks ((∀ field ∈ o, field.1 ∈ allowedFields) ∧
    Required o "workflowName" (Text (isValidName · = true)) ∧
    Required o "startWorkflowStepName" (Text (· ≠ "")) ∧
    Required o "expectedExecutionTime" (Text (isValidDuration · = true)) ∧
    Optional o "singleton" (fun v => ∃ b, v = .bool b) ∧
    (∃ v, o.get? "workflowVersion" = some v) ∧ Optional o "workflowVersion" (IntAtLeast 1) ∧
    ∃ v, o.get? "steps" = some v) result (validateFields (.object o) result) :=
  checks_noAdditionalTopLevelFields.bind fun _ => checks_requiredName.bind fun _ =>
    checks_requiredString.bind fun _ => checks_requiredDuration.bind fun _ =>
    checks_optionalBoolean.bind fun _ => checks_requireField.bind fun _ =>
    checks_workflowVersion.bind fun _ => checks_requireField

structure StepsAccepted (o : Json.Object) (items : List Json) : Prop where
  steps_ne_nil : items ≠ []
  step : ∀ item ∈ items, ∃ o, item = .object o ∧ StepAccepted o
  names_nodup : (items.filterMap stepName).Nodup
  start : Optional o "startWorkflowStepName"
    fun v => ∀ text, v = .string text → text ∈ items.filterMap stepName

theorem checks_stepList : Checks (Optional o "steps"
      fun v => ∃ items, v = .array items ∧ StepsAccepted o items) result
    (validateStepList (.object o) result) := by
  rw [validateStepList]
  refine checks_field fun v h => ?_
  rw [Json.at_object _ _ h]
  cases v with
  | array items =>
    cases items with
    | nil =>
      refine .reports ?_
      intro ⟨items, hitems, hC⟩
      exact hC.steps_ne_nil (Json.array.inj hitems).symm
    | cons item items =>
      obtain ⟨es, stepNames, hes, hseen, hC⟩ := validateSteps_eq 0 (item :: items) result []
      have hstart : Checks _ (result.addErrors es)
          (validateStartStepName (.object o) (result.addErrors es) stepNames) := checks_startStepName
      obtain ⟨es', hes', hC'⟩ := hstart
      refine ⟨es ++ es', ?_, ?_⟩
      · rw [ValidationResult.addErrors_append, ← hes']
        simp only [bind, Except.bind, Json.isArray, Json.asArray, hes, List.isEmpty]
        rfl
      · rw [List.append_eq_nil_iff, hC, hC']
        simp only [hseen, List.not_mem_nil, false_or, not_false_eq_true, implies_true, and_true]
        constructor
        · intro ⟨⟨hstep, hnodup⟩, hstart⟩
          exact ⟨item :: items, rfl, by simp, hstep, hnodup, hstart⟩
        · intro ⟨_, rfl, hC⟩
          exact ⟨⟨hC.step, hC.names_nodup⟩, hC.start⟩
  | _ => exact .reports (by simp)

/-- What the validator asks of an object with these steps. -/
structure Accepted (o : Json.Object) (items : List Json) : Prop extends StepsAccepted o items where
  fields : ∀ field ∈ o, field.1 ∈ allowedFields
  workflowName : Required o "workflowName" (Text (isValidName · = true))
  startWorkflowStepName : Required o "startWorkflowStepName" (Text (· ≠ ""))
  expectedExecutionTime : Required o "expectedExecutionTime" (Text (isValidDuration · = true))
  singleton : Optional o "singleton" fun v => ∃ b, v = .bool b
  workflowVersion : Required o "workflowVersion" (IntAtLeast 1)
  steps : o.get? "steps" = some (.array items)

theorem checks_validateWorkflowJson : Checks (∃ items, Accepted o items) {}
    (validateWorkflowJson (.object o)) := by
  refine (checks_fields.bind fun _ => checks_stepList).of_iff ?_
  constructor
  · intro ⟨⟨hfields, hname, hstart, htime, hsingleton, ⟨v, hv⟩, hversion, ⟨w, hw⟩⟩, hsteps⟩
    obtain ⟨items, rfl, hC⟩ := hsteps w hw
    exact ⟨items, hC, hfields, hname, hstart, htime, hsingleton, ⟨v, hv, hversion v hv⟩, hw⟩
  · intro ⟨items, h⟩
    obtain ⟨v, hv, hversion⟩ := h.workflowVersion
    exact ⟨⟨h.fields, h.workflowName, h.startWorkflowStepName, h.expectedExecutionTime,
      h.singleton, ⟨v, hv⟩, Required.optional ⟨v, hv, hversion⟩, ⟨_, h.steps⟩⟩,
      Required.optional ⟨_, h.steps, items, rfl, h.toStepsAccepted⟩⟩

/-- Validation returns, and it finds no error exactly in an accepted object. -/
theorem validateWorkflowJson_valid (value : Json) : ∃ result,
    validateWorkflowJson value = .ok result ∧
      (result.valid = true ↔ ∃ o items, value = .object o ∧ Accepted o items) := by
  cases value with
  | object o =>
    obtain ⟨es, hes, hC⟩ := checks_validateWorkflowJson (o := o)
    refine ⟨_, hes, ?_⟩
    rw [ValidationResult.addErrors_valid, hC]
    simp
  | _ =>
    refine ⟨_, rfl, ?_⟩
    simp [ValidationResult.addError]

theorem parse_items {items : List Json} {P : Json → WorkflowStep → Prop}
    (h : ∀ item ∈ items, ∃ s, parseStep item = .ok s ∧ P item s) :
    ∃ steps, items.mapM parseStep = .ok steps ∧ List.Forall₂ P items steps := by
  induction items with
  | nil => exact ⟨[], rfl, .nil⟩
  | cons item items ih =>
    obtain ⟨s, hs, hP⟩ := h item (by simp)
    obtain ⟨steps, hsteps, hP'⟩ := ih fun item' hm => h item' (by simp [hm])
    refine ⟨s :: steps, ?_, .cons hP hP'⟩
    rw [List.mapM_cons, hs, hsteps]
    rfl

structure StepWellFormed (s : WorkflowStep) : Prop where
  name : isValidName s.name = true
  duration : ∀ text, s.expectedExecutionTime = some text → isValidDuration text = true
  maxRetries : ∀ n, s.maxRetries = some n → ¬ n < 0

structure ParsedStep (item : Json) (s : WorkflowStep) : Prop extends StepWellFormed s where
  stepName : stepName item = some s.name
  time : ∀ text, s.expectedExecutionTime = some text ↔
    item.at "expectedExecutionTime" = .ok (.string text)

theorem readOptional_eq {α : Type} {passes : Json → Prop} (read : Json → Except Exception α)
    (h : Optional o fieldName passes) (hread : ∀ v, passes v → ∃ a, read v = .ok a) :
    ∃ found, readOptional (.object o) fieldName read = .ok found ∧
      ∀ a, found = some a ↔ ∃ v, o.get? fieldName = some v ∧ read v = .ok a := by
  rw [readOptional]
  cases hv : o.get? fieldName with
  | none =>
    rw [has_of_none hv]
    exact ⟨none, rfl, by simp⟩
  | some v =>
    obtain ⟨a, ha⟩ := hread v (h v hv)
    rw [has_of_get hv, Json.at_object _ _ hv]
    refine ⟨some a, ?_, by simp [ha]⟩
    simp only [bind, Except.bind, ha]
    rfl

theorem parseStep_accepted (h : StepAccepted o) :
    ∃ s, parseStep (.object o) = .ok s ∧ ParsedStep (.object o) s := by
  obtain ⟨v, hname, name, rfl, hvalid⟩ := h.name
  obtain ⟨time, htime, htime_iff⟩ := readOptional_eq Json.asString h.expectedExecutionTime
    fun v ⟨text, hv, _⟩ => ⟨text, hv ▸ rfl⟩
  obtain ⟨retries, hretries, hretries_iff⟩ := readOptional_eq Json.asInt64 h.maxRetries
    fun v ⟨n, hv, _⟩ => ⟨n, hv ▸ rfl⟩
  have hstep : parseStep (.object o) = .ok {
      name := name
      expectedExecutionTime := time
      maxRetries := retries.map Int64.toInt32
      additionalFields := o.filter fun field =>
        field.1 != "name" && field.1 != "expectedExecutionTime" && field.1 != "maxRetries" } := by
    rw [parseStep, Json.at_object _ _ hname]
    simp only [bind, Except.bind, Json.asString, htime, hretries]
    rfl
  have hfield : ∀ text, time = some text →
      o.get? "expectedExecutionTime" = some (.string text) ∧ isValidDuration text = true := by
    intro text ht
    obtain ⟨v, hv, hread⟩ := (htime_iff text).mp ht
    obtain ⟨text', rfl, hp⟩ := h.expectedExecutionTime v hv
    obtain rfl := Except.ok.inj hread
    exact ⟨hv, hp⟩
  refine ⟨_, hstep, ⟨hvalid, fun text ht => (hfield text ht).2, ?_⟩, ?_, ?_⟩
  · intro n hn
    obtain ⟨m, hm, rfl⟩ := Option.map_eq_some_iff.mp hn
    obtain ⟨v, hv, hread⟩ := (hretries_iff m).mp hm
    obtain ⟨m', rfl, hp⟩ := h.maxRetries v hv
    obtain rfl := Except.ok.inj hread
    exact hp
  · rw [stepName, hname]
  · intro text
    constructor
    · intro ht
      exact Json.at_object _ _ (hfield text ht).1
    · intro ht
      exact (htime_iff text).mpr ⟨_, get_of_at ht, rfl⟩

/-- What every definition that was parsed satisfies. -/
structure WellFormed (d : WorkflowDefinition) : Prop where
  workflowVersion : ¬ d.workflowVersion < 1
  start : d.startWorkflowStepName ∈ d.steps.map WorkflowStep.name
  names_nodup : (d.steps.map WorkflowStep.name).Nodup
  step : ∀ s ∈ d.steps, StepWellFormed s

theorem names_of_parsed {items : List Json} {steps : List WorkflowStep}
    (h : List.Forall₂ ParsedStep items steps) :
    items.filterMap stepName = steps.map WorkflowStep.name := by
  induction h with
  | nil => rfl
  | cons hstep _ ih => rw [List.filterMap_cons, hstep.stepName, ih, List.map_cons]

theorem wellFormed_of_parsed {items : List Json} {steps : List WorkflowStep}
    (h : List.Forall₂ ParsedStep items steps) : ∀ s ∈ steps, StepWellFormed s := by
  induction h with
  | nil => simp
  | cons hstep _ ih => exact List.forall_mem_cons.mpr ⟨hstep.toStepWellFormed, ih⟩

theorem parseWorkflowDefinition_accepted {items : List Json} (h : Accepted o items) :
    ∃ d, parseWorkflowDefinition (.object o) = .ok d ∧ WellFormed d ∧
      List.Forall₂ ParsedStep items d.steps := by
  obtain ⟨result, hresult, hvalid⟩ := validateWorkflowJson_valid (.object o)
  have hok := hvalid.mpr ⟨o, items, rfl, h⟩
  obtain ⟨_, hname, name, rfl, -⟩ := h.workflowName
  obtain ⟨_, hversion, n, rfl, hn⟩ := h.workflowVersion
  obtain ⟨_, hstart, start, rfl, -⟩ := h.startWorkflowStepName
  obtain ⟨_, htime, time, rfl, -⟩ := h.expectedExecutionTime
  obtain ⟨singleton, hsingleton, -⟩ := readOptional_eq Json.asBool h.singleton
    fun v ⟨b, hv⟩ => ⟨b, hv ▸ rfl⟩
  obtain ⟨steps, hsteps, hparsed⟩ := parse_items (P := ParsedStep) fun item hitem => by
    obtain ⟨o', rfl, ho'⟩ := h.step item hitem
    exact parseStep_accepted ho'
  have hnames := names_of_parsed hparsed
  have hd : parseWorkflowDefinition (.object o) = .ok {
      workflowName := name
      workflowVersion := n.toInt32
      startWorkflowStepName := start
      expectedExecutionTime := time
      singleton := singleton.getD false
      steps := steps } := by
    rw [parseWorkflowDefinition, hresult, Json.at_object _ _ hname, Json.at_object _ _ hversion,
      Json.at_object _ _ hstart, Json.at_object _ _ htime, Json.at_object _ _ h.steps]
    simp only [bind, Except.bind, hok, Json.asString, Json.asInt64, Json.asArray, hsingleton, hsteps]
    rfl
  refine ⟨_, hd, ⟨hn, ?_, ?_, wellFormed_of_parsed hparsed⟩, hparsed⟩
  · rw [← hnames]
    exact h.start _ hstart start rfl
  · rw [← hnames]
    exact h.names_nodup

theorem parseWorkflowDefinition_rejected {value : Json} {result : ValidationResult}
    (hresult : validateWorkflowJson value = .ok result) (h : result.valid = false) :
    ∃ what, parseWorkflowDefinition value = .error (.invalidArgument what) := by
  rw [parseWorkflowDefinition, hresult]
  simp only [bind, Except.bind, h]
  exact ⟨_, rfl⟩

/-- The parser returns on what validates, and what it returns is well formed. -/
theorem wellFormed_of_parse {value : Json} {d : WorkflowDefinition}
    (h : parseWorkflowDefinition value = .ok d) : WellFormed d := by
  obtain ⟨result, hresult, hvalid⟩ := validateWorkflowJson_valid value
  cases hv : result.valid with
  | false =>
    obtain ⟨what, herr⟩ := parseWorkflowDefinition_rejected hresult hv
    rw [herr] at h
    cases h
  | true =>
    obtain ⟨o, items, rfl, accepted⟩ := hvalid.mp hv
    obtain ⟨d', hd, hwf, -⟩ := parseWorkflowDefinition_accepted accepted
    rw [hd] at h
    exact Except.ok.inj h ▸ hwf

end WorkflowJson
end WorkflowEngine
