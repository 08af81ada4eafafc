import WorkflowEngine.DurationText
import WorkflowEngine.Validation

/-!
# The documented rules

The rules for a definition as they are documented, over integers of any size,
beside what the validator does: it compares the low 32 bits of an integer with
a bound, and agrees with the rules wherever no integer changes sides by that.
-/

namespace WorkflowEngine.WorkflowJson
open Text Text.Regex Duration

/-- A letter, then letters, digits, underscores and hyphens. -/
def IsName (text : String) : Prop :=
  ∃ c cs, text.toList = c :: cs ∧ isLetter c = true ∧ ∀ d ∈ cs, isNameChar d = true

theorem isValidName_iff {text : String} : isValidName text = true ↔ IsName text := by
  rw [isValidName, isFullMatch_iff]
  simp only [NAME_PATTERN, mem_run_seq, mem_run_chr, mem_run_star, List.append_nil]
  constructor
  · intro h
    obtain ⟨_, _, mid, _, ⟨-, c, hc, hletter⟩, ⟨-, cs, hmid, hchars⟩, -⟩ := h
    exact ⟨c, cs, hmid ▸ hc, hletter, hchars⟩
  · intro h
    obtain ⟨c, cs, htext, hletter, hchars⟩ := h
    exact ⟨[], [], cs, [], ⟨rfl, c, htext, hletter⟩, ⟨rfl, cs, rfl, hchars⟩, rfl⟩

/-- `T[hH][mM][sS]` with something after the T, or nothing at all. -/
inductive IsTime : List Char → Prop
  | none : IsTime []
  | some {hours minutes seconds : Option (List Char)} (hh : Digits hours) (hm : Digits minutes)
      (hs : Digits seconds)
      (hne : part 'H' hours ++ (part 'M' minutes ++ part 'S' seconds) ≠ []) :
      IsTime ('T' :: (part 'H' hours ++ (part 'M' minutes ++ part 'S' seconds)))

/-- `P[yY][mM][wW][dD][T[hH][mM][sS]]` with something after the P. -/
inductive IsDuration : List Char → Prop
  | mk {years months weeks days : Option (List Char)} {time : List Char} (hy : Digits years)
      (hm : Digits months) (hw : Digits weeks) (hd : Digits days) (ht : IsTime time)
      (hne : part 'Y' years ++ (part 'M' months ++ (part 'W' weeks ++
        (part 'D' days ++ time))) ≠ []) :
      IsDuration ('P' :: (part 'Y' years ++ (part 'M' months ++ (part 'W' weeks ++
        (part 'D' days ++ time)))))

theorem run_component {unit : Char} {cs rest : List Char} :
    (∃ caps, (caps, rest) ∈ (opt (component unit)).run cs) ↔
      ∃ digits, Digits digits ∧ cs = part unit digits ++ rest := by
  simp only [mem_run_opt, component, mem_run_capture, mem_run_seq, mem_run_plus, mem_run_lit]
  constructor
  · intro h
    obtain ⟨caps, h | ⟨-, rfl⟩⟩ := h
    · obtain ⟨_, ⟨_, mid, _, ⟨-, u, hne, rfl, hu⟩, ⟨-, rfl⟩, -⟩, -⟩ := h
      refine ⟨some u, ?_, ?_⟩
      · intro ds hds
        exact Option.some_inj.mp hds ▸ ⟨hne, hu⟩
      · simp [part]
    · refine ⟨none, fun ds hds => ?_, rfl⟩
      cases hds
  · intro h
    obtain ⟨digits, hdigits, rfl⟩ := h
    cases digits with
    | none => exact ⟨_, .inr ⟨rfl, rfl⟩⟩
    | some u =>
      obtain ⟨hne, hu⟩ := hdigits u rfl
      refine ⟨_, .inl ⟨[], ⟨[], unit :: rest, [], ⟨rfl, u, hne, ?_, hu⟩, ⟨rfl, rfl⟩, rfl⟩, rfl⟩⟩
      simp [part]

theorem run_seq {a b : Regex} {cs rest : List Char} :
    (∃ caps, (caps, rest) ∈ (seq a b).run cs) ↔
      ∃ mid, (∃ caps, (caps, mid) ∈ a.run cs) ∧ ∃ caps, (caps, rest) ∈ b.run mid := by
  simp only [mem_run_seq]
  constructor
  · intro h
    obtain ⟨_, ca, mid, cb, ha, hb, -⟩ := h
    exact ⟨mid, ⟨ca, ha⟩, cb, hb⟩
  · intro h
    obtain ⟨mid, ⟨ca, ha⟩, cb, hb⟩ := h
    exact ⟨_, ca, mid, cb, ha, hb, rfl⟩

theorem run_time {cs : List Char} :
    (∃ caps, (caps, []) ∈ (opt (capture (seq (lit 'T') (seq .notAtEnd (seq (.opt (component 'H'))
      (seq (.opt (component 'M')) (.opt (component 'S')))))))).run cs) ↔ IsTime cs := by
  have hrun : (∃ inner, (inner, []) ∈ (seq (lit 'T') (seq .notAtEnd (seq (.opt (component 'H'))
      (seq (.opt (component 'M')) (.opt (component 'S')))))).run cs) ↔ cs ≠ [] ∧ IsTime cs := by
    simp only [run_seq, run_component, mem_run_lit, mem_run_notAtEnd]
    constructor
    · intro h
      obtain ⟨_, ⟨_, -, rfl⟩, _, ⟨_, -, rfl, hne⟩, _, ⟨hours, hh, rfl⟩, _, ⟨minutes, hm, rfl⟩,
        seconds, hs, rfl⟩ := h
      rw [List.append_nil] at hne ⊢
      exact ⟨by simp, .some hh hm hs hne⟩
    · intro ⟨hcs, h⟩
      cases h with
      | none => exact absurd rfl hcs
      | @some hours minutes seconds hh hm hs hne =>
        exact ⟨_, ⟨_, rfl, rfl⟩, _, ⟨_, rfl, rfl, hne⟩, _, ⟨hours, hh, rfl⟩, _, ⟨minutes, hm, rfl⟩,
          seconds, hs, (List.append_nil _).symm⟩
  simp only [mem_run_opt, exists_or, mem_run_capture]
  constructor
  · intro h
    rcases h with ⟨_, inner, h, -⟩ | ⟨_, -, rfl⟩
    · exact (hrun.mp ⟨inner, h⟩).2
    · exact .none
  · intro h
    by_cases hcs : cs = []
    · exact .inr ⟨_, rfl, hcs.symm⟩
    · obtain ⟨inner, hinner⟩ := hrun.mpr ⟨hcs, h⟩
      exact .inl ⟨_, inner, hinner, rfl⟩

theorem isValidDuration_iff {text : String} :
    isValidDuration text = true ↔ IsDuration text.toList := by
  rw [isValidDuration, isFullMatch_iff]
  generalize text.toList = cs
  simp only [ISO_8601_DURATION_PATTERN, Regex.sequence, run_seq, run_component, run_time,
    mem_run_lit, mem_run_notAtEnd]
  constructor
  · intro h
    obtain ⟨_, ⟨_, -, rfl⟩, _, ⟨_, -, rfl, hne⟩, _, ⟨years, hy, rfl⟩, _, ⟨months, hm, rfl⟩, _,
      ⟨weeks, hw, rfl⟩, time, ⟨days, hd, rfl⟩, ht⟩ := h
    exact .mk hy hm hw hd ht hne
  · intro h
    obtain ⟨hy, hm, hw, hd, ht, hne⟩ := h
    exact ⟨_, ⟨_, rfl, rfl⟩, _, ⟨_, rfl, rfl, hne⟩, _, ⟨_, hy, rfl⟩, _, ⟨_, hm, rfl⟩, _,
      ⟨_, hw, rfl⟩, _, ⟨_, hd, rfl⟩, ht⟩

section Rules
variable (atLeast : ℤ → Int64 → Prop)

/-- The rules for a step. -/
structure StepRules (o : Json.Object) : Prop where
  name : Required o "name" (Text IsName)
  expectedExecutionTime :
    Optional o "expectedExecutionTime" (Text fun text => IsDuration text.toList)
  maxRetries : Optional o "maxRetries" fun v => ∃ n, v = .int64 n ∧ atLeast 0 n

/-- The rules for an object with these steps. `atLeast` says when an integer meets a bound. -/
structure Rules (o : Json.Object) (items : List Json) : Prop where
  fields : ∀ field ∈ o, field.1 ∈ allowedFields
  workflowName : Required o "workflowName" (Text IsName)
  workflowVersion : Required o "workflowVersion" fun v => ∃ n, v = .int64 n ∧ atLeast 1 n
  startWorkflowStepName : Required o "startWorkflowStepName"
    (Text fun text => text ≠ "" ∧ text ∈ items.filterMap stepName)
  expectedExecutionTime :
    Required o "expectedExecutionTime" (Text fun text => IsDuration text.toList)
  singleton : Optional o "singleton" fun v => ∃ b, v = .bool b
  steps : o.get? "steps" = some (.array items)
  steps_ne_nil : items ≠ []
  step : ∀ item ∈ items, ∃ o, item = .object o ∧ StepRules atLeast o
  names_nodup : (items.filterMap stepName).Nodup

structure Bounds (o : Json.Object) (items : List Json) : Prop where
  workflowVersion : ∀ n, o.get? "workflowVersion" = some (.int64 n) → atLeast 1 n
  maxRetries : ∀ o n, .object o ∈ items →
    Json.Object.get? o "maxRetries" = some (.int64 n) → atLeast 0 n

end Rules

/-- An integer is compared with the bound. -/
def ValueAtLeast (bound : ℤ) (n : Int64) : Prop := bound ≤ n.toInt

instance (bound : ℤ) (n : Int64) : Decidable (ValueAtLeast bound n) :=
  inferInstanceAs (Decidable (_ ≤ _))

/-- The low 32 bits of an integer, as an `int`, are compared with the bound. -/
def WrappedAtLeast (bound : ℤ) (n : Int64) : Prop := bound ≤ n.toInt32.toInt

def Anything (_ : ℤ) (_ : Int64) : Prop := True

def Documented (value : Json) : Prop :=
  ∃ o items, value = .object o ∧ Rules ValueAtLeast o items

def Accepts (value : Json) : Prop :=
  ∃ result, validateWorkflowJson value = .ok result ∧ result.valid = true

variable {o : Json.Object} {items : List Json} {atLeast : ℤ → Int64 → Prop}

theorem rules_iff_bounds : Rules atLeast o items ↔ Rules Anything o items ∧ Bounds atLeast o items := by
  constructor
  · intro h
    obtain ⟨v, hv, n, hn, hbound⟩ := h.workflowVersion
    refine ⟨{ h with workflowVersion := ⟨v, hv, n, hn, trivial⟩, step := ?_ }, ?_, ?_⟩
    · intro item hitem
      obtain ⟨o, ho, hstep⟩ := h.step item hitem
      refine ⟨o, ho, { hstep with maxRetries := ?_ }⟩
      intro w hw
      obtain ⟨m, hm, -⟩ := hstep.maxRetries w hw
      exact ⟨m, hm, trivial⟩
    · intro m hm
      rw [hv, hn] at hm
      exact Json.int64.inj (Option.some_inj.mp hm) ▸ hbound
    · intro o' m hitem hm
      obtain ⟨_, ho, hstep⟩ := h.step _ hitem
      obtain ⟨k, hk, hbound⟩ := hstep.maxRetries _ (Json.object.inj ho ▸ hm)
      exact Json.int64.inj hk ▸ hbound
  · intro ⟨h, hbounds⟩
    obtain ⟨v, hv, n, hn, -⟩ := h.workflowVersion
    refine { h with
      workflowVersion := ⟨v, hv, n, hn, hbounds.workflowVersion n (hn ▸ hv)⟩, step := ?_ }
    intro item hitem
    obtain ⟨o, ho, hstep⟩ := h.step item hitem
    refine ⟨o, ho, { hstep with maxRetries := ?_ }⟩
    intro w hw
    obtain ⟨m, hm, -⟩ := hstep.maxRetries w hw
    exact ⟨m, hm, hbounds.maxRetries o m (ho ▸ hitem) (hm ▸ hw)⟩

theorem validName_eq : (isValidName · = true) = IsName := by
  funext text
  exact propext isValidName_iff

theorem validDuration_eq : (isValidDuration · = true) = fun text => IsDuration text.toList := by
  funext text
  exact propext isValidDuration_iff

theorem intAtLeast_eq (bound : Int32) :
    IntAtLeast bound = fun v => ∃ n, v = .int64 n ∧ WrappedAtLeast bound.toInt n := by
  funext v
  simp only [IntAtLeast, WrappedAtLeast, Int32.lt_iff_toInt_lt, Int.not_lt]

theorem stepAccepted_iff : StepAccepted o ↔ StepRules WrappedAtLeast o := by
  have hretries := intAtLeast_eq 0
  constructor
  · intro h
    refine ⟨validName_eq ▸ h.name, validDuration_eq ▸ h.expectedExecutionTime, ?_⟩
    exact hretries ▸ h.maxRetries
  · intro h
    refine ⟨validName_eq.symm ▸ h.name, validDuration_eq.symm ▸ h.expectedExecutionTime, ?_⟩
    exact hretries.symm ▸ h.maxRetries

/-- The validator applies the rules to the low 32 bits of the integers. -/
theorem accepted_iff : Accepted o items ↔ Rules WrappedAtLeast o items := by
  have hversion := intAtLeast_eq 1
  constructor
  · intro h
    obtain ⟨v, hv, text, htext, hne⟩ := h.startWorkflowStepName
    refine ⟨h.fields, validName_eq ▸ h.workflowName, hversion ▸ h.workflowVersion,
      ⟨v, hv, text, htext, hne, h.start v hv text htext⟩, validDuration_eq ▸ h.expectedExecutionTime,
      h.singleton, h.steps, h.steps_ne_nil, ?_, h.names_nodup⟩
    intro item hitem
    obtain ⟨o', ho', hstep⟩ := h.step item hitem
    exact ⟨o', ho', stepAccepted_iff.mp hstep⟩
  · intro h
    obtain ⟨v, hv, text, htext, hne, hmem⟩ := h.startWorkflowStepName
    refine ⟨⟨h.steps_ne_nil, ?_, h.names_nodup, ?_⟩, h.fields, validName_eq.symm ▸ h.workflowName,
      ⟨v, hv, text, htext, hne⟩, validDuration_eq.symm ▸ h.expectedExecutionTime, h.singleton,
      hversion.symm ▸ h.workflowVersion, h.steps⟩
    · intro item hitem
      obtain ⟨o', ho', hstep⟩ := h.step item hitem
      exact ⟨o', ho', stepAccepted_iff.mpr hstep⟩
    · apply Required.optional
      refine ⟨v, hv, ?_⟩
      intro text' htext'
      rw [htext] at htext'
      exact Json.string.inj htext' ▸ hmem

theorem accepts_iff {value : Json} :
    Accepts value ↔ ∃ o items, value = .object o ∧ Rules WrappedAtLeast o items := by
  obtain ⟨result, hresult, hvalid⟩ := validateWorkflowJson_valid value
  simp only [accepted_iff] at hvalid
  rw [← hvalid]
  constructor
  · intro h
    obtain ⟨result', hresult', htrue⟩ := h
    rw [hresult] at hresult'
    exact Except.ok.inj hresult' ▸ htrue
  · intro htrue
    exact ⟨result, hresult, htrue⟩

theorem Rules.items_unique {atLeast atLeast' : ℤ → Int64 → Prop} {items' : List Json}
    (h : Rules atLeast o items) (h' : Rules atLeast' o items') : items = items' := by
  have hsteps := h.steps.symm.trans h'.steps
  exact Json.array.inj (Option.some_inj.mp hsteps)

theorem accepts_documented_iff {value : Json} : (Accepts value ↔ Documented value) ↔
    ∀ o items, value = .object o → Rules Anything o items →
      (Bounds WrappedAtLeast o items ↔ Bounds ValueAtLeast o items) := by
  rw [accepts_iff, Documented]
  simp only [@rules_iff_bounds _ _ WrappedAtLeast, @rules_iff_bounds _ _ ValueAtLeast]
  constructor
  · intro h o items hvalue hrules
    have hunique : ∀ o' items', value = .object o' → Rules Anything o' items' →
        o' = o ∧ items' = items := by
      intro o' items' hvalue' hrules'
      obtain rfl := Json.object.inj (hvalue'.symm.trans hvalue)
      exact ⟨rfl, hrules'.items_unique hrules⟩
    constructor
    · intro hbounds
      obtain ⟨o', items', hvalue', hrules', hbounds'⟩ := h.mp ⟨o, items, hvalue, hrules, hbounds⟩
      obtain ⟨rfl, rfl⟩ := hunique o' items' hvalue' hrules'
      exact hbounds'
    · intro hbounds
      obtain ⟨o', items', hvalue', hrules', hbounds'⟩ := h.mpr ⟨o, items, hvalue, hrules, hbounds⟩
      obtain ⟨rfl, rfl⟩ := hunique o' items' hvalue' hrules'
      exact hbounds'
  · intro h
    constructor
    · intro ⟨o, items, hvalue, hrules, hbounds⟩
      exact ⟨o, items, hvalue, hrules, (h o items hvalue hrules).mp hbounds⟩
    · intro ⟨o, items, hvalue, hrules, hbounds⟩
      exact ⟨o, items, hvalue, hrules, (h o items hvalue hrules).mpr hbounds⟩

def ofVersion (version : Int64) : Json.Object :=
  [("expectedExecutionTime", .string "PT3S"), ("startWorkflowStepName", .string "ship"),
    ("steps", .array [.object [("name", .string "ship")]]), ("workflowName", .string "orders"),
    ("workflowVersion", .int64 version)]

theorem documented_ofVersion {version : Int64} (h : ValueAtLeast 1 version) :
    Documented (.object (ofVersion version)) := by
  have hname : ∀ text, isValidName text = true → Text IsName (.string text) := by
    intro text htext
    exact ⟨text, rfl, isValidName_iff.mp htext⟩
  refine ⟨_, _, rfl, {
    fields := by simp [ofVersion, allowedFields]
    workflowName := ⟨_, rfl, hname _ (by decide)⟩
    workflowVersion := ⟨_, rfl, version, rfl, h⟩
    startWorkflowStepName := ⟨_, rfl, "ship", rfl, by decide, List.mem_singleton.mpr rfl⟩
    expectedExecutionTime := ⟨_, rfl, "PT3S", rfl, isValidDuration_iff.mp (by decide)⟩
    singleton := nofun
    steps := rfl
    steps_ne_nil := by simp
    step := ?_
    names_nodup := by decide }⟩
  intro item hitem
  obtain rfl := List.mem_singleton.mp hitem
  exact ⟨_, rfl, ⟨_, rfl, hname _ (by decide)⟩, nofun, nofun⟩

/-- Version 2147483648 is refused, and version 1 - 2^32 is accepted. -/
theorem version_compared_wrapped :
    ¬ (Accepts (.object (ofVersion 2147483648)) ↔ Documented (.object (ofVersion 2147483648))) ∧
    ¬ (Accepts (.object (ofVersion (-4294967295))) ↔
      Documented (.object (ofVersion (-4294967295)))) := by
  constructor
  · intro h
    obtain ⟨result, hresult, hvalid⟩ := h.mpr (documented_ofVersion (by decide))
    have hrefused : validateWorkflowJson (.object (ofVersion 2147483648)) =
        .ok ⟨false, ["$.workflowVersion must be greater than or equal to 1"]⟩ := by decide +kernel
    rw [hrefused] at hresult
    rw [← Except.ok.inj hresult] at hvalid
    cases hvalid
  · intro h
    have haccepted : validateWorkflowJson (.object (ofVersion (-4294967295))) =
        .ok ⟨true, []⟩ := by decide +kernel
    obtain ⟨o, items, ho, hrules⟩ := h.mp ⟨_, haccepted, rfl⟩
    obtain rfl := Json.object.inj ho
    obtain ⟨v, hv, n, rfl, hn⟩ := hrules.workflowVersion
    obtain rfl := Json.int64.inj (Option.some_inj.mp hv)
    exact absurd hn (by decide)

end WorkflowEngine.WorkflowJson
