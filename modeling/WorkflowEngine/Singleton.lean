import WorkflowEngine.Leases
import WorkflowEngine.Playback

/-!
# Singleton workflows

The guarantee rests on one lock row for each workflow name and version, which
points at the latest execution that was started while the definition was a
singleton. It speaks for those executions only: an execution started while the
flag was off is seen by no lock.
-/

namespace WorkflowEngine
open Txn Ledger

namespace Ledger
variable {L L' : Ledger} {ev : Event} {e : WorkflowExecution} {id : String} {k : VersionKey}

theorem Transition.lock (h : Transition L ev L') (k : VersionKey) : L'.lock k = L.lock k ∨
    ∃ e, ev = .started e true ∧ e.versionKey = k ∧ L.Unlocked k ∧
      L'.lock k = some e.workflowExecutionId := by
  cases h with
  | @start d e createdAt definition fresh unlocked running first attempt state =>
    rw [setStep_lock, setExecution_lock, takeLock_lock]
    split_ifs with hk
    · obtain ⟨hs, rfl⟩ := hk
      rw [hs]
      exact .inr ⟨e, rfl, rfl, unlocked hs, rfl⟩
    · exact .inl rfl
  | _ => exact .inl rfl

theorem Transition.running_before (h : Transition L ev L') (inv : Lifecycle L)
    (he : L'.execution id = some e) (hr : e.status = .running) :
    (∃ e₀ b, ev = .started e₀ b ∧ e₀.workflowExecutionId = id ∧ e₀.versionKey = e.versionKey) ∨
      ∃ e₀, L.execution id = some e₀ ∧ e₀.status = .running ∧ e₀.versionKey = e.versionKey := by
  by_cases hid : ev.subject = some id
  swap
  · have same := h.frame inv hid
    rw [same.execution] at he
    exact .inr ⟨e, he, hr, rfl⟩
  cases h with
  | register d => cases hid
  | @start d e₀ createdAt definition fresh unlocked running first attempt state =>
    obtain rfl := Option.some_inj.mp hid
    rw [setStep_execution, setExecution_execution, if_pos rfl] at he
    obtain rfl := Option.some_inj.mp he
    exact .inl ⟨e₀, d.singleton, rfl, rfl, rfl⟩
  | claim step claimable definition duration =>
    rw [setStep_execution] at he
    exact .inr ⟨e, he, hr, rfl⟩
  | renew held definition duration =>
    rw [setStep_execution] at he
    exact .inr ⟨e, he, hr, rfl⟩
  | @finish e₀ s workerId now at_ at' output state held =>
    obtain rfl := Option.some_inj.mp hid
    rw [setExecution_execution] at he
    obtain rfl := Option.some_inj.mp ((if_pos rfl).symm.trans he)
    exact .inr ⟨e₀, held.execution, held.running, rfl⟩
  | @advance e₀ s d workerId next now at_ createdAt scheduledAt output state input held definition
      defined =>
    obtain rfl := Option.some_inj.mp hid
    rw [setStep_execution, setExecution_execution] at he
    obtain rfl := Option.some_inj.mp ((if_pos rfl).symm.trans he)
    exact .inr ⟨e₀, held.execution, held.running, rfl⟩
  | @retry e₀ s d step workerId reason now at_ createdAt failing definition found budget =>
    obtain rfl := Option.some_inj.mp hid
    rw [setStep_execution, setExecution_execution] at he
    obtain rfl := Option.some_inj.mp ((if_pos rfl).symm.trans he)
    exact .inr ⟨e₀, failing.current.execution, failing.current.running, rfl⟩
  | @exhaust e₀ s d step workerId reason now at_ at' failing definition found spent =>
    obtain rfl := Option.some_inj.mp hid
    rw [setExecution_execution] at he
    obtain rfl := Option.some_inj.mp ((if_pos rfl).symm.trans he)
    exact .inr ⟨e₀, failing.current.execution, failing.current.running, rfl⟩
  | @cancel e₀ now execution running =>
    obtain rfl := Option.some_inj.mp hid
    rw [setExecution_execution] at he
    obtain rfl := Option.some_inj.mp ((if_pos rfl).symm.trans he)
    exact .inr ⟨e₀, execution, running, rfl⟩

theorem setExecution_isSome (h : (L.execution id).isSome) :
    ((L.setExecution e).execution id).isSome := by
  rw [setExecution_execution]
  split_ifs
  · rfl
  · exact h

theorem Transition.execution_isSome (h : Transition L ev L') (hs : (L.execution id).isSome) :
    (L'.execution id).isSome := by
  cases h with
  | register d => exact hs
  | start =>
    apply setExecution_isSome
    rw [Ledger.execution, takeLock_executionRow]
    exact hs
  | claim => exact hs
  | renew => exact hs
  | _ =>
    apply setExecution_isSome
    exact hs

theorem Transition.started_isSome {b : Bool} (h : Transition L (.started e b) L') :
    (L'.execution e.workflowExecutionId).isSome := by
  cases h with
  | start =>
    rw [setStep_execution, setExecution_execution, if_pos rfl]
    rfl

theorem Transition.started_lock {b : Bool} (h : Transition L (.started e b) L') (hb : b = true) :
    L'.lock e.versionKey = some e.workflowExecutionId := by
  cases h with
  | start =>
    rw [setStep_lock, setExecution_lock, takeLock_lock, if_pos ⟨hb, rfl⟩]

theorem Transition.unlocked (h : Transition L (.started e true) L') : L.Unlocked e.versionKey := by
  obtain ⟨b, hb⟩ : ∃ b, b = true := ⟨true, rfl⟩
  rw [← hb] at h
  cases h with
  | start definition fresh unlocked => exact unlocked hb

theorem Transition.runs {b : Bool} (h : Transition L (.started e b) L') :
    ∃ e', L'.execution e.workflowExecutionId = some e' ∧ e'.status = .running ∧
      e'.versionKey = e.versionKey := by
  cases h with
  | start definition fresh unlocked running =>
    rw [setStep_execution, setExecution_execution, if_pos rfl]
    exact ⟨_, rfl, running, rfl⟩

/-- The executions that the events started are there, and the lock points at every one that was
started as a singleton and is Running. -/
structure Covered (evs : List Event) (L : Ledger) : Prop where
  started : ∀ e b, .started e b ∈ evs → (L.execution e.workflowExecutionId).isSome
  lock : ∀ e₀ e, .started e₀ true ∈ evs → L.execution e₀.workflowExecutionId = some e →
    e.status = .running → L.lock e.versionKey = some e₀.workflowExecutionId

theorem covered_empty : Covered [] empty := by
  constructor
  · intro e b hmem
    cases hmem
  · intro e₀ e hmem
    cases hmem

theorem Transition.covered {evs : List Event} (h : Transition L ev L') (inv : Lifecycle L)
    (covered : Covered evs L) : Covered (evs ++ [ev]) L' := by
  constructor
  · intro e b hmem
    rcases List.mem_append.mp hmem with hmem | hmem
    · exact h.execution_isSome (covered.started e b hmem)
    · rw [← List.mem_singleton.mp hmem] at h
      exact h.started_isSome
  · intro e₀ e hmem he hr
    rcases List.mem_append.mp hmem with hmem | hmem
    swap
    · obtain rfl := List.mem_singleton.mp hmem
      rcases h.running_before inv he hr with ⟨e₁, b, hev, hid, hv⟩ | ⟨e₁, he₁, -, -⟩
      · obtain ⟨rfl, -⟩ := Event.started.inj hev
        rw [← hv]
        exact h.started_lock rfl
      · exact absurd (h.fresh.symm.trans he₁) nofun
    · have hsome := covered.started e₀ true hmem
      rcases h.running_before inv he hr with ⟨e₁, b, rfl, hid, hv⟩ | ⟨e₁, he₁, hr₁, hv⟩
      · rw [← hid, h.fresh] at hsome
        cases hsome
      · have hlock := covered.lock e₀ e₁ hmem he₁ hr₁
        rw [hv] at hlock
        rcases h.lock e.versionKey with hsame | ⟨e₂, -, -, unlocked, -⟩
        · rw [hsame, hlock]
        · exact absurd hr₁ (unlocked _ _ hlock he₁)

theorem covered_of_run {evs₀ evs : List Event} (h : Systems.Run Transition L evs L')
    (inv : Lifecycle L) (covered : Covered evs₀ L) : Covered (evs₀ ++ evs) L' := by
  induction h with
  | nil =>
    rw [List.append_nil]
    exact covered
  | snoc run last ih =>
    rw [← List.append_assoc]
    exact last.covered (lifecycle_of_run run inv) ih

end Ledger

variable {E : Engine schema} {db db' : E.Db} {h : List Entry} {id name : String} {version : Int32}

/-- The history has a start of the execution while its definition was registered as a singleton. -/
def StartedAsSingleton (E : Engine schema) (h : List Entry) (id : String) : Prop :=
  ∃ h₁ x h₂ db₁ name version input e, ∃ row : WorkflowDefinitionRow,
    h = h₁ ++ x :: h₂ ∧ History E E.empty h₁ db₁ ∧
    x.call.operation = .startWorkflow name version input ∧ x.result = .ok (.execution e) ∧
    e.workflowExecutionId = id ∧
    E.get db₁ .definitions (definitionKey name version) = some row ∧
    row.fromRow.singleton = true

theorem Entry.Step.functional {x : Entry} {db₁ db₂ : E.Db} (h₁ : Entry.Step db x db₁)
    (h₂ : Entry.Step db x db₂) : db₁ = db₂ := h₁.1.2.trans h₂.1.2.symm

theorem started_of_result {c : Call} {input : Json} {e : WorkflowExecution}
    {row : WorkflowDefinitionRow} (sound : Sound db) (step : Call.Step db c db')
    (hop : c.operation = .startWorkflow name version input) (hr : c.result db = .ok (.execution e))
    (hd : E.get db .definitions (definitionKey name version) = some row) :
    e.versionKey = (name, version) ∧
      Transition (view db) (.started e row.fromRow.singleton) (view db') := by
  rcases step.cases sound with ⟨r, evs, hres, heff, -⟩ | ⟨⟨ex, herr⟩, -⟩
  swap
  · rw [hr] at herr
    cases herr
  rw [hop] at heff
  rw [hr] at hres
  obtain rfl := Except.ok.inj hres
  cases heff with
  | @startWorkflow _ _ _ _ d _ key given definition step =>
    rw [Encoded.definition (k := (name, version)) hd] at definition
    obtain rfl := Option.some_inj.mp definition
    exact ⟨key, step⟩

theorem History.singletons (run : History E E.empty h db) :
    ∃ evs, Systems.Run Transition Ledger.empty evs (view db) ∧
      ∀ id, StartedAsSingleton E h id →
        ∃ e, .started e true ∈ evs ∧ e.workflowExecutionId = id := by
  induction run with
  | nil =>
    refine ⟨[], view_empty (E := E) ▸ .nil, fun id started => ?_⟩
    obtain ⟨h₁, x, h₂, -, -, -, -, -, -, hsplit, -⟩ := started
    cases h₁ <;> cases hsplit
  | @snoc db db' h y run last ih =>
    obtain ⟨evs, hrun, hstarted⟩ := ih
    have sound : Sound db := sound_of_calls (History.calls run) sound_empty
    obtain ⟨evs', hrun', hlast⟩ : ∃ evs', Systems.Run Transition (view db) evs' (view db') ∧
        ∀ name version input e, ∀ row : WorkflowDefinitionRow,
          y.call.operation = .startWorkflow name version input → y.result = .ok (.execution e) →
          E.get db .definitions (definitionKey name version) = some row →
          row.fromRow.singleton = true → .started e true ∈ evs' := by
      rcases last.1.cases sound with ⟨r, evs', hres, heff, -⟩ | ⟨⟨ex, herr⟩, hsame⟩
      · refine ⟨evs', heff.run, fun name version input e row hop hr hd hs => ?_⟩
        rw [hop] at heff
        rw [last.2, hres] at hr
        obtain rfl := Except.ok.inj hr
        cases heff with
        | @startWorkflow _ _ _ _ d _ key given definition step =>
          rw [Encoded.definition (k := (name, version)) hd] at definition
          rw [← Option.some_inj.mp definition, hs]
          exact List.mem_singleton_self _
      · refine ⟨[], hsame ▸ .nil, fun name version input e row hop hr => ?_⟩
        rw [last.2, herr] at hr
        cases hr
    refine ⟨evs ++ evs', hrun.append hrun', fun id started => ?_⟩
    obtain ⟨h₁, x, h₂, db₁, name, version, input, e, row, hsplit, run₁, hop, hr, hid, hd, hs⟩ :=
      started
    rcases List.eq_nil_or_concat h₂ with rfl | ⟨h₂, z, rfl⟩
    · obtain ⟨rfl, hx⟩ := List.append_inj' hsplit rfl
      obtain rfl := List.singleton_inj.mp hx
      obtain rfl :=
        Systems.Run.functional (fun _ _ _ _ first second => first.functional second) run₁ run
      exact ⟨e, List.mem_append_right _ (hlast name version input e row hop hr hd hs), hid⟩
    · have hsplit' : h ++ [y] = (h₁ ++ x :: h₂) ++ [z] := by
        rw [hsplit]
        simp
      obtain ⟨rfl, -⟩ := List.append_inj' hsplit' rfl
      obtain ⟨e', hmem, hid'⟩ := hstarted id
        ⟨h₁, x, h₂, db₁, name, version, input, e, row, rfl, run₁, hop, hr, hid, hd, hs⟩
      exact ⟨e', List.mem_append_left _ hmem, hid'⟩

def RunningUnder (E : Engine schema) (db : E.Db) (name : String) (version : Int32) (id : String) :
    Prop :=
  ∃ row : WorkflowExecutionRow, E.get db .executions id = some row ∧
    row.fromRow.status = .running ∧ row.fromRow.versionKey = (name, version)

theorem runningUnder_iff : RunningUnder E db name version id ↔
    ∃ e, (view db).execution id = some e ∧ e.status = .running ∧
      e.versionKey = (name, version) := by
  constructor
  · intro ⟨row, hrow, hr, hv⟩
    exact ⟨row.fromRow, view_execution.mpr ⟨row, hrow, rfl⟩, hr, hv⟩
  · intro ⟨e, he, hr, hv⟩
    obtain ⟨row, hrow, rfl⟩ := view_execution.mp he
    exact ⟨row, hrow, hr, hv⟩

/-- A start under a singleton definition has its key to itself exactly if the executions of the
key that run by then were all started under such a definition. -/
theorem singleton_start_exclusive_iff {c : Call} {input : Json} {e : WorkflowExecution}
    {row : WorkflowDefinitionRow} (run : History E E.empty h db) (step : Call.Step db c db')
    (hop : c.operation = .startWorkflow name version input) (hr : c.result db = .ok (.execution e))
    (definition : E.get db .definitions (definitionKey name version) = some row)
    (singleton : row.fromRow.singleton = true) :
    (∀ id, RunningUnder E db' name version id ↔ id = e.workflowExecutionId) ↔
      ∀ id, RunningUnder E db name version id → StartedAsSingleton E h id := by
  have sound : Sound db := sound_of_calls (History.calls run) sound_empty
  obtain ⟨hkey, started⟩ := started_of_result sound step hop hr definition
  rw [singleton] at started
  constructor
  · intro exclusive id running
    obtain ⟨e', he', hr', hv'⟩ := runningUnder_iff.mp running
    have hne : (Event.started e true).subject ≠ some id := by
      intro hid
      have fresh := started.fresh
      rw [Option.some_inj.mp hid, he'] at fresh
      cases fresh
    have same := started.frame sound.lifecycle hne
    have hid := (exclusive id).mp (runningUnder_iff.mpr ⟨e', same.execution.trans he', hr', hv'⟩)
    exact absurd (congrArg some hid.symm) hne
  · intro covered id
    obtain ⟨evs, hrun, hstarted⟩ := History.singletons run
    have hcovered := covered_of_run hrun lifecycle_empty covered_empty
    constructor
    · intro running
      obtain ⟨e', he', hr', hv'⟩ := runningUnder_iff.mp running
      rcases started.running_before sound.lifecycle he' hr' with
        ⟨e₀, b, hev, hid, -⟩ | ⟨e₀, he₀, hr₀, hv₀⟩
      · obtain ⟨rfl, -⟩ := Event.started.inj hev
        exact hid.symm
      · have running₀ : RunningUnder E db name version id :=
          runningUnder_iff.mpr ⟨e₀, he₀, hr₀, hv₀.trans hv'⟩
        obtain ⟨e₁, hmem, rfl⟩ := hstarted id (covered id running₀)
        have hlock := hcovered.lock e₁ e₀ hmem he₀ hr₀
        rw [hv₀, hv', ← hkey] at hlock
        exact absurd hr₀ (started.unlocked _ _ hlock he₀)
    · intro h
      obtain rfl := h
      obtain ⟨e', he', hr', hv'⟩ := started.runs
      exact runningUnder_iff.mpr ⟨e', he', hr', hv'.trans hkey⟩

theorem singleton_start_exclusive_iff_first :
    ∃ e : WorkflowExecution, ∀ id, RunningUnder Sample.store
      (Sample.after (Sample.begin (Sample.definition true 0))) "order" 1 id ↔
        id = e.workflowExecutionId := by
  have run : History Sample.store Sample.store.empty
      (record Sample.store Sample.store.empty [Sample.register (Sample.definition true 0)])
      (Sample.after [Sample.register (Sample.definition true 0)]) :=
    history_record (by decide +kernel)
  have hstarted : startedId ((Sample.start 1000000 0).result
      (Sample.after [Sample.register (Sample.definition true 0)])) = some (Sample.id 0) := by
    decide +kernel
  have hfresh : (Sample.start 1000000 0).isFresh
      (Sample.after [Sample.register (Sample.definition true 0)]) = true := by
    decide +kernel
  have hdefinition : (Sample.store.get (Sample.after [Sample.register (Sample.definition true 0)])
      .definitions (definitionKey "order" 1)).map
        (fun row : WorkflowDefinitionRow => row.fromRow.singleton) = some true := by
    decide +kernel
  have hnone : ∀ id, Sample.store.get
      (Sample.after [Sample.register (Sample.definition true 0)]) .executions id = none :=
    fun _ => rfl
  have hafter : Sample.after (Sample.begin (Sample.definition true 0)) =
      (Sample.start 1000000 0).after
        (Sample.after [Sample.register (Sample.definition true 0)]) := rfl
  have hop : (Sample.start 1000000 0).operation = .startWorkflow "order" 1 .null := rfl
  rw [hafter]
  generalize Sample.start 1000000 0 = start at hstarted hfresh hop ⊢
  generalize Sample.after [Sample.register (Sample.definition true 0)] = db at *
  obtain ⟨row, definition, singleton⟩ := Option.map_eq_some_iff.mp hdefinition
  obtain ⟨e, hr, -⟩ := execution_of_startedId hstarted
  refine ⟨e, (singleton_start_exclusive_iff run ⟨Call.fresh_of_isFresh hfresh, rfl⟩ hop hr
    definition singleton).mpr ?_⟩
  intro id running
  obtain ⟨row, hrow, -⟩ := running
  rw [hnone] at hrow
  cases hrow

/-- An execution started before the definition became a singleton stays Running. -/
theorem singleton_start_beside_earlier_execution :
    ¬ ∀ (db db' : Sample.store.Db) (h : List Entry) (c : Call) (name : String) (version : Int32)
      (input : Json) (e : WorkflowExecution) (row : WorkflowDefinitionRow),
      History Sample.store Sample.store.empty h db → Call.Step db c db' →
      c.operation = .startWorkflow name version input → c.result db = .ok (.execution e) →
      Sample.store.get db .definitions (definitionKey name version) = some row →
      row.fromRow.singleton = true →
      ∀ id, RunningUnder Sample.store db' name version id ↔ id = e.workflowExecutionId := by
  intro hall
  have run : History Sample.store Sample.store.empty
      (record Sample.store Sample.store.empty Sample.reflagged) (Sample.after Sample.reflagged) :=
    history_record (by decide +kernel)
  have hstarted : startedId ((Sample.start 2000000 1).result (Sample.after Sample.reflagged)) =
      some (Sample.id 1) := by
    decide +kernel
  have hfresh : (Sample.start 2000000 1).isFresh (Sample.after Sample.reflagged) = true := by
    decide +kernel
  have hdefinition : (Sample.store.get (Sample.after Sample.reflagged)
      .definitions (definitionKey "order" 1)).map
        (fun row : WorkflowDefinitionRow => row.fromRow.singleton) = some true := by
    decide +kernel
  have hearlier : (Sample.store.get ((Sample.start 2000000 1).after
      (Sample.after Sample.reflagged)) .executions (Sample.id 0)).map
        (fun row : WorkflowExecutionRow => (row.fromRow.status, row.fromRow.versionKey)) =
          some (.running, ("order", 1)) := by
    decide +kernel
  have hop : (Sample.start 2000000 1).operation = .startWorkflow "order" 1 .null := rfl
  generalize Sample.start 2000000 1 = start at hstarted hfresh hop hearlier
  generalize Sample.after Sample.reflagged = db at *
  obtain ⟨row, definition, singleton⟩ := Option.map_eq_some_iff.mp hdefinition
  obtain ⟨earlier, hrow, hfields⟩ := Option.map_eq_some_iff.mp hearlier
  obtain ⟨hr, hv⟩ := Prod.mk.inj hfields
  obtain ⟨e, hresult, hid⟩ := execution_of_startedId hstarted
  have hsame := (hall _ _ _ start _ _ _ e row run ⟨Call.fresh_of_isFresh hfresh, rfl⟩ hop hresult
    definition singleton (Sample.id 0)).mp ⟨earlier, hrow, hr, hv⟩
  rw [hid] at hsame
  exact absurd hsame (by decide +kernel)

end WorkflowEngine
