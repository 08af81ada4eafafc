import WorkflowEngine.Containers.OrderedMap
import WorkflowEngine.Rules

/-!
# Definitions from JSON and back

What the parser returns, field by field, and the encoder. A JSON object is a
map in key order. The encoder writes the additional fields of a step over its
own, and a parsed definition comes back from its encoding unchanged because
those fields never have a name that the parser reads.
-/

namespace WorkflowEngine
open OrderedMap

/-- `if (read.has_value()) obj[key] = read.value()` -/
def Json.Object.setPresent {α : Type} (obj : Json.Object) (key : String) (encode : α → Json) :
    Option α → Json.Object
  | some a => set obj key (encode a)
  | none => obj

def WorkflowStep.toJson (step : WorkflowStep) : Json :=
  let obj : Json.Object := set [] "name" (.string step.name)
  let obj := obj.setPresent "expectedExecutionTime" .string step.expectedExecutionTime
  let obj := obj.setPresent "maxRetries" (fun n => .int64 n.toInt64) step.maxRetries
  .object (setAll obj step.additionalFields)

def WorkflowDefinition.toJson (d : WorkflowDefinition) : Json :=
  let obj : Json.Object := set [] "workflowName" (.string d.workflowName)
  let obj := set obj "workflowVersion" (.int64 d.workflowVersion.toInt64)
  let obj := set obj "startWorkflowStepName" (.string d.startWorkflowStepName)
  let obj := set obj "expectedExecutionTime" (.string d.expectedExecutionTime)
  let obj := set obj "singleton" (.bool d.singleton)
  let obj := set obj "steps" (.array (d.steps.map WorkflowStep.toJson))
  .object obj

/-- Every object in the value is a map. -/
inductive Json.IsMap : Json → Prop
  | null : IsMap .null
  | bool (b : Bool) : IsMap (.bool b)
  | int64 (i : Int64) : IsMap (.int64 i)
  | double (bits : UInt64) : IsMap (.double bits)
  | string (s : String) : IsMap (.string s)
  | array {items : List Json} (h : ∀ item ∈ items, IsMap item) : IsMap (.array items)
  | object {o : Json.Object} (hkeys : Ascending o) (h : ∀ f ∈ o, IsMap f.2) : IsMap (.object o)

theorem Json.IsMap.item {items : List Json} {v : Json} (h : Json.IsMap (.array items))
    (hv : v ∈ items) : v.IsMap := by
  cases h with
  | array h => exact h v hv

theorem Json.IsMap.field {o : Json.Object} {key : String} {v : Json} (h : Json.IsMap (.object o))
    (hv : o.get? key = some v) : v.IsMap := by
  cases h with
  | object hkeys h => exact h _ ((lookup_eq_some_iff hkeys).mp hv)

namespace WorkflowJson

variable {o : Json.Object} {items : List Json} {d : WorkflowDefinition} {s : WorkflowStep}

theorem get?_eq (o : Json.Object) (key : String) : o.get? key = lookup o key := rfl

theorem asString_eq_ok {v : Json} {text : String} : v.asString = .ok text ↔ v = .string text := by
  cases v <;> simp [Json.asString]

theorem asInt64_eq_ok {v : Json} {n : Int64} : v.asInt64 = .ok n ↔ v = .int64 n := by
  cases v <;> simp [Json.asInt64]

theorem asBool_eq_ok {v : Json} {b : Bool} : v.asBool = .ok b ↔ v = .bool b := by
  cases v <;> simp [Json.asBool]

theorem asArray_eq_ok {v : Json} : v.asArray = .ok items ↔ v = .array items := by
  cases v <;> simp [Json.asArray]

theorem at_eq_ok {fieldName : String} {v : Json} :
    Json.at (.object o) fieldName = .ok v ↔ o.get? fieldName = some v :=
  ⟨get_of_at, fun h => Json.at_object _ _ h⟩

theorem readOptional_eq_ok {α : Type} {fieldName : String} {encode : α → Json}
    {read : Json → Except Exception α} (hread : ∀ {v a}, read v = .ok a ↔ v = encode a)
    {found : Option α} :
    readOptional (.object o) fieldName read = .ok found ↔ o.get? fieldName = found.map encode := by
  rw [readOptional]
  cases h : o.get? fieldName with
  | none =>
    rw [has_of_none h]
    cases found with
    | none => simp [bind, Except.bind, pure, Except.pure]
    | some a => simp [bind, Except.bind, pure, Except.pure]
  | some v =>
    have hsome : readOptional (.object o) fieldName read = (read v >>= fun a => .ok (some a)) := by
      rw [readOptional, has_of_get h, Json.at_object _ _ h]
      rfl
    rw [← readOptional, hsome, Cxx.bind_eq_ok]
    simp only [hread]
    cases found with
    | none => simp
    | some a => simp

def stepFields : List String := ["name", "expectedExecutionTime", "maxRetries"]

structure StepRead (o : Json.Object) (s : WorkflowStep) : Prop where
  name : o.get? "name" = some (.string s.name)
  expectedExecutionTime :
    o.get? "expectedExecutionTime" = s.expectedExecutionTime.map .string
  maxRetries : ∃ found : Option Int64, o.get? "maxRetries" = found.map .int64 ∧
    s.maxRetries = found.map Int64.toInt32
  additionalFields : s.additionalFields = o.filter fun field => field.1 ∉ stepFields

theorem additional_eq (o : Json.Object) :
    (o.filter fun field => decide (field.1 ∉ stepFields)) = o.filter fun field =>
      field.1 != "name" && field.1 != "expectedExecutionTime" && field.1 != "maxRetries" := by
  apply List.filter_congr
  intro field _
  rw [Bool.eq_iff_iff]
  simp [stepFields, and_assoc]

theorem parseStep_eq_ok : parseStep (.object o) = .ok s ↔ StepRead o s := by
  rw [parseStep]
  simp only [Cxx.bind_eq_ok, at_eq_ok, asString_eq_ok, readOptional_eq_ok asString_eq_ok,
    readOptional_eq_ok asInt64_eq_ok, ← additional_eq]
  constructor
  · intro h
    obtain ⟨_, hname, name, rfl, time, htime, retries, hretries, fields, hfields, hs⟩ := h
    obtain rfl := Except.ok.inj hfields
    obtain rfl := Except.ok.inj hs
    exact ⟨hname, htime, ⟨retries, hretries, rfl⟩, rfl⟩
  · intro h
    obtain ⟨retries, hretries, hmap⟩ := h.maxRetries
    refine ⟨_, h.name, s.name, rfl, s.expectedExecutionTime, h.expectedExecutionTime, retries,
      hretries, o, rfl, ?_⟩
    rw [← hmap, ← h.additionalFields]
    rfl

theorem object_of_parseStep {item : Json} (h : parseStep item = .ok s) : ∃ o, item = .object o := by
  cases item with
  | object o => exact ⟨o, rfl⟩
  | _ => cases h

/-- The definition that the parser makes of an object with these steps. -/
structure DefinitionRead (o : Json.Object) (items : List Json) (d : WorkflowDefinition) : Prop where
  workflowName : o.get? "workflowName" = some (.string d.workflowName)
  workflowVersion : ∃ n : Int64, o.get? "workflowVersion" = some (.int64 n) ∧
    d.workflowVersion = n.toInt32
  startWorkflowStepName : o.get? "startWorkflowStepName" = some (.string d.startWorkflowStepName)
  expectedExecutionTime : o.get? "expectedExecutionTime" = some (.string d.expectedExecutionTime)
  singleton : ∃ found : Option Bool, o.get? "singleton" = found.map .bool ∧
    d.singleton = found.getD false
  steps : o.get? "steps" = some (.array items)
  step : List.Forall₂ (fun item s => parseStep item = .ok s) items d.steps

theorem DefinitionRead.steps_ne_nil {o : Json.Object} {items : List Json} {d : WorkflowDefinition}
    (h : DefinitionRead o items d) (hitems : items ≠ []) : d.steps ≠ [] := by
  intro hnil
  have hlength := h.step.length_eq
  rw [hnil] at hlength
  exact hitems (List.length_eq_zero_iff.mp hlength)

theorem mapM_eq_ok {α β : Type} {f : α → Except Exception β} {as : List α} {bs : List β} :
    as.mapM f = .ok bs ↔ List.Forall₂ (fun a b => f a = .ok b) as bs := by
  induction as generalizing bs with
  | nil =>
    rw [List.mapM_nil, List.forall₂_nil_left_iff]
    exact ⟨fun h => (Except.ok.inj h).symm, fun h => h ▸ rfl⟩
  | cons a as ih =>
    rw [List.mapM_cons, Cxx.bind_eq_ok]
    simp only [Cxx.bind_eq_ok, ih]
    constructor
    · intro ⟨b, hb, bs', hbs', h⟩
      obtain rfl := Except.ok.inj h
      exact .cons hb hbs'
    · intro h
      cases h with
      | cons hb hbs => exact ⟨_, hb, _, hbs, rfl⟩

theorem parseWorkflowDefinition_eq_ok : parseWorkflowDefinition (.object o) = .ok d ↔
    ∃ items, Accepted o items ∧ DefinitionRead o items d := by
  obtain ⟨result, hresult, hvalid⟩ := validateWorkflowJson_valid (.object o)
  cases hv : result.valid with
  | false =>
    obtain ⟨what, hthrow⟩ := parseWorkflowDefinition_rejected hresult hv
    rw [hthrow]
    constructor
    · nofun
    · intro ⟨items, haccepted, _⟩
      rw [hvalid.mpr ⟨o, items, rfl, haccepted⟩] at hv
      cases hv
  | true =>
    obtain ⟨_, items, ho, haccepted⟩ := hvalid.mp hv
    obtain rfl := Json.object.inj ho
    rw [parseWorkflowDefinition, hresult, Cxx.bind_eq_ok]
    simp only [Except.ok.injEq, exists_eq_left', hv, Bool.not_true, Bool.false_eq_true, if_false]
    simp only [Cxx.bind_eq_ok, at_eq_ok, asString_eq_ok, asInt64_eq_ok, asArray_eq_ok,
      readOptional_eq_ok asBool_eq_ok, mapM_eq_ok]
    constructor
    · intro h
      obtain ⟨_, hname, name, rfl, _, hversion, version, rfl, _, hstart, start, rfl, _, htime, time,
        rfl, singleton, hsingleton, _, hsteps, items', rfl, steps, hparsed, hd⟩ := h
      obtain rfl := Except.ok.inj hd
      obtain rfl := Json.array.inj (Option.some_inj.mp (haccepted.steps.symm.trans hsteps))
      exact ⟨items, haccepted, hname, ⟨version, hversion, rfl⟩, hstart, htime,
        ⟨singleton, hsingleton, rfl⟩, hsteps, hparsed⟩
    · intro ⟨items', _, h⟩
      obtain ⟨version, hversion, heq⟩ := h.workflowVersion
      obtain ⟨singleton, hsingleton, hgetD⟩ := h.singleton
      refine ⟨_, h.workflowName, _, rfl, _, hversion, version, rfl, _, h.startWorkflowStepName, _,
        rfl, _, h.expectedExecutionTime, _, rfl, singleton, hsingleton, _, h.steps, items', rfl,
        d.steps, h.step, ?_⟩
      rw [← heq, ← hgetD]
      rfl

theorem colon_notMem_name {text : String} (h : IsName text) : ':' ∉ text.toList := by
  obtain ⟨c, cs, htext, hletter, hchars⟩ := h
  rw [htext, List.mem_cons]
  intro hm
  rcases hm with rfl | hm
  · exact absurd hletter (by decide)
  · exact absurd (hchars ':' hm) (by decide)

theorem addErrors_errors (result : ValidationResult) (es : List String) :
    (result.addErrors es).errors = result.errors ++ es := by
  induction es generalizing result with
  | nil => simp
  | cons e es ih =>
    change ((result.addError e).addErrors es).errors = _
    rw [ih]
    simp [ValidationResult.addError]

/-- Validation returns, and it reports an error exactly if the value is not accepted. -/
theorem validateWorkflowJson_errors (value : Json) : ∃ result,
    validateWorkflowJson value = .ok result ∧ (result.valid = true ↔ result.errors = []) := by
  cases value with
  | object o =>
    obtain ⟨es, hes, -⟩ := checks_validateWorkflowJson (o := o)
    refine ⟨_, hes, ?_⟩
    rw [ValidationResult.addErrors_valid, addErrors_errors]
    simp
  | _ =>
    refine ⟨_, rfl, ?_⟩
    simp [ValidationResult.addError]

/-- Validation and parsing reach no failing accessor, and a definition that was parsed is well
formed and keeps the fields of its steps that the parser does not read. -/
theorem parse_well_formed (value : Json) : ∃ result, validateWorkflowJson value = .ok result ∧
    ((result.errors ≠ [] ∧ ∃ what,
        parseWorkflowDefinition value = .error (.invalidArgument what)) ∨
      (result.errors = [] ∧ ∃ d items, parseWorkflowDefinition value = .ok d ∧
          1 ≤ d.workflowVersion.toInt ∧ d.steps ≠ [] ∧ (d.steps.map WorkflowStep.name).Nodup ∧
          (∀ s ∈ d.steps, ':' ∉ s.name.toList) ∧
          d.startWorkflowStepName ∈ d.steps.map WorkflowStep.name ∧
          (∀ s ∈ d.steps, ∀ n, s.maxRetries = some n → 0 ≤ n.toInt) ∧
          value.at "steps" = .ok (.array items) ∧
          List.Forall₂ (fun item s => ∃ o, item = .object o ∧
            s.additionalFields = o.filter fun field =>
              field.1 ∉ ["name", "expectedExecutionTime", "maxRetries"]) items d.steps)) := by
  obtain ⟨result, hresult, herrors⟩ := validateWorkflowJson_errors value
  obtain ⟨_, hresult', hvalid⟩ := validateWorkflowJson_valid value
  obtain rfl := Except.ok.inj (hresult.symm.trans hresult')
  refine ⟨result, hresult, ?_⟩
  cases hv : result.valid with
  | false =>
    refine .inl ⟨?_, parseWorkflowDefinition_rejected hresult hv⟩
    intro hnil
    rw [herrors.mpr hnil] at hv
    cases hv
  | true =>
    obtain ⟨o, items, rfl, haccepted⟩ := hvalid.mp hv
    obtain ⟨d, hd, hwf, -⟩ := parseWorkflowDefinition_accepted haccepted
    obtain ⟨items, haccepted, hread⟩ := parseWorkflowDefinition_eq_ok.mp hd
    refine .inr ⟨herrors.mp hv, d, items, hd, ?_, ?_, hwf.names_nodup, ?_, hwf.start, ?_,
      at_eq_ok.mpr hread.steps, ?_⟩
    · have hversion := hwf.workflowVersion
      rw [Int32.lt_iff_toInt_lt] at hversion
      exact Int.not_lt.mp hversion
    · exact hread.steps_ne_nil haccepted.steps_ne_nil
    · intro s hs
      exact colon_notMem_name (isValidName_iff.mp (hwf.step s hs).name)
    · intro s hs n hn
      have hretries := (hwf.step s hs).maxRetries n hn
      rw [Int32.lt_iff_toInt_lt] at hretries
      exact Int.not_lt.mp hretries
    · refine hread.step.imp ?_
      intro item s hstep
      obtain ⟨o, rfl⟩ := object_of_parseStep hstep
      exact ⟨o, rfl, (parseStep_eq_ok.mp hstep).additionalFields⟩

structure StepEncodable (s : WorkflowStep) : Prop extends StepWellFormed s where
  ascending : Ascending s.additionalFields
  apart : ∀ f ∈ s.additionalFields, f.1 ∉ stepFields

theorem lookup_additional (h : StepEncodable s) {key : String} (hkey : key ∈ stepFields) :
    lookup s.additionalFields key = none := by
  cases hlookup : lookup s.additionalFields key with
  | none => rfl
  | some v => exact absurd hkey (h.apart _ ((lookup_eq_some_iff h.ascending).mp hlookup))

theorem lookup_setPresent {α : Type} {key k : String} {encode : α → Json} {found : Option α} :
    lookup (o.setPresent key encode found) k =
      (if k = key then found.map encode else none).or (lookup o k) := by
  cases found with
  | none => simp [Json.Object.setPresent]
  | some a =>
    by_cases hk : k = key
    · simp [Json.Object.setPresent, hk]
    · simp [Json.Object.setPresent, hk]

theorem ascending_setPresent {α : Type} {key : String} {encode : α → Json} {found : Option α}
    (h : Ascending o) : Ascending (o.setPresent key encode found) := by
  cases found with
  | none => exact h
  | some a => exact h.set

theorem stepRead_toJson (h : StepEncodable s) :
    ∃ o, s.toJson = .object o ∧ StepRead o s := by
  refine ⟨_, rfl, ⟨?_, ?_, ⟨s.maxRetries.map Int32.toInt64, ?_, ?_⟩, ?_⟩⟩
  · rw [get?_eq, lookup_setAll h.ascending, lookup_additional h (by decide)]
    simp [lookup_setPresent]
  · rw [get?_eq, lookup_setAll h.ascending, lookup_additional h (by decide)]
    simp [lookup_setPresent]
  · rw [get?_eq, lookup_setAll h.ascending, lookup_additional h (by decide)]
    simp [lookup_setPresent, Function.comp_def]
  · rw [Option.map_map]
    simp [Function.comp_def]
  · apply h.ascending.ext
    · apply Ascending.filter
      apply Ascending.setAll
      apply ascending_setPresent
      apply ascending_setPresent
      exact ascending_nil.set
    · intro key
      rw [lookup_filter (p := fun key => decide (key ∉ stepFields)), lookup_setAll h.ascending]
      by_cases hkey : key ∈ stepFields
      · rw [lookup_additional h hkey]
        simp [hkey]
      · have hne := hkey
        simp only [stepFields, List.mem_cons, List.not_mem_nil, or_false, not_or] at hne
        simp [hkey, hne, lookup_setPresent]

theorem stepEncodable_of_parse (hmap : Json.IsMap (.object o)) (haccepted : StepAccepted o)
    (h : parseStep (.object o) = .ok s) : StepEncodable s := by
  obtain ⟨s', hs', hparsed⟩ := parseStep_accepted haccepted
  obtain rfl := Except.ok.inj (h.symm.trans hs')
  have hadditional := (parseStep_eq_ok.mp h).additionalFields
  refine ⟨hparsed.toStepWellFormed, ?_, ?_⟩
  · cases hmap with
    | object hkeys _ => exact hadditional ▸ hkeys.filter
  · intro f hf
    rw [hadditional] at hf
    simpa using (List.mem_filter.mp hf).2

theorem stepName_toJson (h : StepEncodable s) : stepName s.toJson = some s.name := by
  obtain ⟨o, ho, hread⟩ := stepRead_toJson h
  rw [ho, stepName, hread.name]

theorem stepAccepted_of_read (hwf : StepWellFormed s) (h : StepRead o s) : StepAccepted o := by
  refine ⟨⟨_, h.name, _, rfl, hwf.name⟩, ?_, ?_⟩
  · intro v hv
    obtain ⟨time, htime, rfl⟩ := Option.map_eq_some_iff.mp (h.expectedExecutionTime.symm.trans hv)
    exact ⟨time, rfl, hwf.duration time htime⟩
  · intro v hv
    obtain ⟨found, hfound, hretries⟩ := h.maxRetries
    obtain ⟨n, hn, rfl⟩ := Option.map_eq_some_iff.mp (hfound.symm.trans hv)
    exact ⟨n, rfl, hwf.maxRetries _ (by rw [hretries, hn]; rfl)⟩

/-- What the encoder relies on in a definition that was parsed. -/
structure Encodable (d : WorkflowDefinition) : Prop extends WellFormed d where
  workflowName : isValidName d.workflowName = true
  expectedExecutionTime : isValidDuration d.expectedExecutionTime = true
  startWorkflowStepName : d.startWorkflowStepName ≠ ""
  steps_ne_nil : d.steps ≠ []
  encodable : ∀ s ∈ d.steps, StepEncodable s

theorem exists_item_of_mem {α β : Type} {R : α → β → Prop} {as : List α} {bs : List β} {b : β}
    (h : List.Forall₂ R as bs) (hb : b ∈ bs) : ∃ a ∈ as, R a b := by
  induction h with
  | nil => cases hb
  | @cons a b' as bs hR _ ih =>
    rcases List.mem_cons.mp hb with rfl | hb
    · exact ⟨a, List.mem_cons_self, hR⟩
    · obtain ⟨a', ha', hR'⟩ := ih hb
      exact ⟨a', List.mem_cons_of_mem a ha', hR'⟩

theorem encodable_of_parse (hmap : Json.IsMap (.object o))
    (h : parseWorkflowDefinition (.object o) = .ok d) : Encodable d := by
  obtain ⟨items, haccepted, hread⟩ := parseWorkflowDefinition_eq_ok.mp h
  have hitems := hmap.field hread.steps
  refine ⟨wellFormed_of_parse h, ?_, ?_, ?_, ?_, ?_⟩
  · obtain ⟨_, hv, name, rfl, hname⟩ := haccepted.workflowName
    obtain rfl := Json.string.inj (Option.some_inj.mp (hv.symm.trans hread.workflowName))
    exact hname
  · obtain ⟨_, hv, time, rfl, htime⟩ := haccepted.expectedExecutionTime
    obtain rfl := Json.string.inj (Option.some_inj.mp (hv.symm.trans hread.expectedExecutionTime))
    exact htime
  · obtain ⟨_, hv, start, rfl, hstart⟩ := haccepted.startWorkflowStepName
    obtain rfl := Json.string.inj (Option.some_inj.mp (hv.symm.trans hread.startWorkflowStepName))
    exact hstart
  · exact hread.steps_ne_nil haccepted.steps_ne_nil
  · intro s hs
    obtain ⟨item, hitem, hparsed⟩ := exists_item_of_mem hread.step hs
    obtain ⟨o', rfl, ho'⟩ := haccepted.step item hitem
    exact stepEncodable_of_parse (hitems.item hitem) ho' hparsed

theorem definitionRead_toJson (h : Encodable d) : ∃ o, d.toJson = .object o ∧
    (∀ field ∈ o, field.1 ∈ allowedFields) ∧ DefinitionRead o (d.steps.map WorkflowStep.toJson) d := by
  refine ⟨_, rfl, ?_, ?_, ⟨d.workflowVersion.toInt64, ?_, ?_⟩, ?_, ?_, ⟨some d.singleton, ?_, rfl⟩, ?_, ?_⟩
  · apply forall_set (p := (· ∈ allowedFields)) (by decide)
    apply forall_set (p := (· ∈ allowedFields)) (by decide)
    apply forall_set (p := (· ∈ allowedFields)) (by decide)
    apply forall_set (p := (· ∈ allowedFields)) (by decide)
    apply forall_set (p := (· ∈ allowedFields)) (by decide)
    exact forall_set (p := (· ∈ allowedFields)) (by decide) (by simp)
  · simp [get?_eq]
  · simp [get?_eq]
  · simp
  · simp [get?_eq]
  · simp [get?_eq]
  · simp [get?_eq]
  · simp [get?_eq]
  · rw [List.forall₂_map_left_iff, List.forall₂_same]
    intro s hs
    obtain ⟨o, ho, hread⟩ := stepRead_toJson (h.encodable s hs)
    rw [ho]
    exact parseStep_eq_ok.mpr hread

theorem definition_roundtrip {value : Json} (hmap : value.IsMap)
    (h : parseWorkflowDefinition value = .ok d) :
    Accepts d.toJson ∧ parseWorkflowDefinition d.toJson = .ok d := by
  obtain ⟨o, rfl⟩ : ∃ o, value = .object o := by
    cases value with
    | object o => exact ⟨o, rfl⟩
    | _ => cases h
  have hencodable := encodable_of_parse hmap h
  obtain ⟨o', ho', hfields, hread⟩ := definitionRead_toJson hencodable
  have hnames : (d.steps.map WorkflowStep.toJson).filterMap stepName = d.steps.map WorkflowStep.name := by
    rw [List.filterMap_map, ← List.filterMap_eq_map]
    apply List.filterMap_congr
    intro s hs
    exact stepName_toJson (hencodable.encodable s hs)
  have haccepted : Accepted o' (d.steps.map WorkflowStep.toJson) := by
    obtain ⟨version, hversion, heq⟩ := hread.workflowVersion
    refine ⟨⟨?_, ?_, ?_, ?_⟩, hfields, ⟨_, hread.workflowName, _, rfl, hencodable.workflowName⟩,
      ⟨_, hread.startWorkflowStepName, _, rfl, hencodable.startWorkflowStepName⟩,
      ⟨_, hread.expectedExecutionTime, _, rfl, hencodable.expectedExecutionTime⟩, ?_,
      ⟨_, hversion, version, rfl, heq ▸ hencodable.workflowVersion⟩, hread.steps⟩
    · simpa using hencodable.steps_ne_nil
    · intro item hitem
      obtain ⟨s, hs, rfl⟩ := List.mem_map.mp hitem
      obtain ⟨o, ho, hstep⟩ := stepRead_toJson (hencodable.encodable s hs)
      exact ⟨o, ho, stepAccepted_of_read (hencodable.step s hs) hstep⟩
    · exact hnames ▸ hencodable.names_nodup
    · apply Required.optional
      refine ⟨_, hread.startWorkflowStepName, ?_⟩
      intro text htext
      rw [hnames, ← Json.string.inj htext]
      exact hencodable.start
    · intro v hv
      obtain ⟨found, hfound, -⟩ := hread.singleton
      obtain ⟨b, -, rfl⟩ := Option.map_eq_some_iff.mp (hfound.symm.trans hv)
      exact ⟨b, rfl⟩
  rw [ho']
  refine ⟨?_, parseWorkflowDefinition_eq_ok.mpr ⟨_, haccepted, hread⟩⟩
  obtain ⟨result, hresult, hvalid⟩ := validateWorkflowJson_valid (.object o')
  exact ⟨result, hresult, hvalid.mpr ⟨o', _, rfl, haccepted⟩⟩

def annotated : Json :=
  .object [("expectedExecutionTime", .string "PT3S"), ("startWorkflowStepName", .string "ship"),
    ("steps", .array [.object [("carrier", .string "air"), ("maxRetries", .int64 2),
      ("name", .string "ship"), ("weights", .array [.int64 3])]]),
    ("workflowName", .string "orders"), ("workflowVersion", .int64 1)]

theorem definition_roundtrip_annotated : ∃ d, parseWorkflowDefinition annotated = .ok d ∧
    d.steps.map WorkflowStep.additionalFields =
      [[("carrier", .string "air"), ("weights", .array [.int64 3])]] ∧
    Accepts d.toJson ∧ parseWorkflowDefinition d.toJson = .ok d := by
  have hmap : annotated.IsMap := by
    have hkeys : ∀ keys : List String, (keys.map String.toList).Pairwise (· < ·) →
        ∀ o : Json.Object, o.map Prod.fst = keys → Ascending o := by
      intro keys hkeys o ho
      rw [← ho, List.map_map, List.pairwise_map] at hkeys
      exact hkeys.imp fun h => String.lt_iff_toList_lt.mpr h
    have hstep : Json.IsMap (.object [("carrier", .string "air"), ("maxRetries", .int64 2),
        ("name", .string "ship"), ("weights", .array [.int64 3])]) := by
      refine .object (hkeys _ (by decide) _ rfl) ?_
      intro f hf
      simp only [List.mem_cons, List.not_mem_nil, or_false] at hf
      rcases hf with rfl | rfl | rfl | rfl
      · exact .string _
      · exact .int64 _
      · exact .string _
      · exact .array (by simpa using .int64 3)
    refine .object (hkeys _ (by decide) _ rfl) ?_
    intro f hf
    simp only [List.mem_cons, List.not_mem_nil, or_false] at hf
    rcases hf with rfl | rfl | rfl | rfl | rfl
    · exact .string _
    · exact .string _
    · exact .array (by simpa using hstep)
    · exact .string _
    · exact .int64 _
  have hparse : parseWorkflowDefinition annotated = .ok ⟨"orders", 1, "ship", "PT3S", false,
      [⟨"ship", none, some 2, [("carrier", .string "air"), ("weights", .array [.int64 3])]⟩]⟩ := by
    decide +kernel
  exact ⟨_, hparse, rfl, definition_roundtrip hmap hparse⟩

end WorkflowJson
end WorkflowEngine
