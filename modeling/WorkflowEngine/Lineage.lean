import WorkflowEngine.Attempts
import WorkflowEngine.Epoch

/-!
# What an attempt keeps

The record of an attempt is rewritten as it is claimed, renewed and ended, and
then no more; its key, its version, what it was given and when it was made and
scheduled stay throughout. A property that new attempts have and that rewriting
keeps is therefore one of all attempts.
-/

namespace WorkflowEngine
open Txn Txn.Program Orchestrator
open Iso8601 (Exact)

structure WorkflowStepExecution.SameOrigin (s s' : WorkflowStepExecution) : Prop where
  stepKey : s'.stepKey = s.stepKey
  versionKey : s'.versionKey = s.versionKey
  input : s'.input = s.input
  state : s'.state = s.state
  createdAt : s'.createdAt = s.createdAt
  scheduledAt : s'.scheduledAt = s.scheduledAt

/-- Only a claimed attempt has a lease. -/
def WorkflowStepExecution.Tied (s : WorkflowStepExecution) : Prop :=
  ∀ deadline ∈ s.leaseExpiresAt, s.status = .running

theorem WorkflowStepExecution.tied_of_none {s : WorkflowStepExecution} (h : s.leaseExpiresAt = none) :
    s.Tied := by
  intro deadline hdeadline
  rw [h] at hdeadline
  cases hdeadline

theorem WorkflowStepExecution.Tied.stored {s : WorkflowStepExecution} (h : s.Tied) :
    s.stored.Tied := by
  intro deadline hdeadline
  obtain ⟨lease, hlease, -⟩ := Option.map_eq_some_iff.mp hdeadline
  exact h lease hlease

/-- Rewriting an active attempt keeps the property, and one made at a time of the kind has it. -/
structure Heritable (P : WorkflowStepExecution → Prop) (N : TimePoint → Prop) : Prop where
  kept : ∀ {s s' : WorkflowStepExecution}, P s → s.status.Active → s.SameOrigin s' → P s'.stored
  born : ∀ {s : WorkflowStepExecution} {now : TimePoint}, N now → s.createdAt = some now → P s.stored

def heritage (P : WorkflowStepExecution → Prop) (N : TimePoint → Prop) :
    Contract schema Question Question.Answer where
  row
    | .steps, row => P row.fromRow ∧ row.fromRow.Tied
    | .definitions, _ => True
    | .executions, _ => True
    | .singletonLocks, _ => True
  answer
    | .clock, now => N now
    | .draw, _ => True
    | .reserve _, _ => True
    | .decideNextStep _, _ => True

namespace Heritable
variable {P : WorkflowStepExecution → Prop} {N : TimePoint → Prop} {now : TimePoint}
  {s s' : WorkflowStepExecution}

theorem keeps_nowForStorage : Keeps (heritage P N) N nowForStorage := keeps_demand Question.clock

theorem keeps_getStep (k : String) :
    Keeps (heritage P N) (fun r => ∀ row ∈ r, P row.fromRow ∧ row.fromRow.Tied) (getStep k) :=
  keeps_read (σ := schema) .steps k

theorem keeps_querySteps (q : QuerySpec) :
    Keeps (heritage P N) (fun rows => ∀ row ∈ rows, P row.fromRow ∧ row.fromRow.Tied)
      (querySteps q) :=
  keeps_find (σ := schema) .steps q

theorem keeps_putExecution (row : WorkflowExecutionRow) :
    Keeps (heritage P N) (fun _ => True) (putExecution row) := ⟨trivial, trivial⟩

theorem keeps_putStep (h : P s.stored ∧ s.Tied) :
    Keeps (heritage P N) (fun _ => True) (putStep s.toRow) := by
  refine keeps_store (σ := schema) (t := .steps) ?_
  change P s.toRow.fromRow ∧ s.toRow.fromRow.Tied
  rw [s.fromRow_toRow]
  exact ⟨h.1, h.2.stored⟩

theorem keeps_rewrite (h : Heritable P N) (hs : P s) (active : s.status.Active)
    (tied : s'.Tied := by exact WorkflowStepExecution.tied_of_none rfl) (same : s' = { s with
      status := s'.status, workerId := s'.workerId, failureReason := s'.failureReason
      output := s'.output, leaseExpiresAt := s'.leaseExpiresAt, startedAt := s'.startedAt
      completedAt := s'.completedAt } := by rfl) :
    Keeps (heritage P N) (fun _ => True) (putStep s'.toRow) := by
  refine keeps_putStep ⟨h.kept hs active ?_, tied⟩
  rw [same]
  exact ⟨rfl, rfl, rfl, rfl, rfl, rfl⟩

theorem keeps_makeStepExecution (h : Heritable P N) (e : WorkflowExecution) (name : String)
    (attempt : Int32) (input : Json) (scheduledAt : Option TimePoint) :
    Keeps (heritage P N) (fun s => P s.stored ∧ s.Tied)
      (makeStepExecution e name attempt input scheduledAt) :=
  keeps_nowForStorage.bind fun _ hnow =>
    keeps_pure ⟨h.born hnow rfl, WorkflowStepExecution.tied_of_none rfl⟩

theorem keeps_validateClaimOwnership (s : WorkflowStepExecution) (workerId : String) :
    Keeps (heritage P N) (fun _ => s.status = .running) (validateClaimOwnership s workerId) := by
  refine keeps_nowForStorage.bind fun now _ => ?_
  refine (keeps_throwIf _ _).bind fun _ hstatus => ?_
  refine (keeps_orThrow _ _).bind fun owner _ => ?_
  refine (keeps_throwIf _ _).bind fun _ _ => ?_
  refine (keeps_orThrow _ _).bind fun deadline _ => ?_
  exact (keeps_throwIf _ _).imp fun _ _ => not_not.mp hstatus

theorem keeps_getClaimedStep (e : WorkflowExecution) (id name workerId : String) :
    Keeps (heritage P N) (fun s => P s ∧ s.status = .running)
      (getClaimedStep e id name workerId) := by
  refine (keeps_getStep _).bind fun found hfound => ?_
  refine (keeps_orThrow found _).bind fun row hrow => ?_
  exact (keeps_validateClaimOwnership _ _).bind fun _ hrunning =>
    keeps_pure ⟨(hfound row (Option.mem_def.mpr hrow)).1, hrunning⟩

theorem keeps_registerWorkflowDefinition (d : WorkflowDefinition) :
    Keeps (heritage P N) (fun _ => True) (registerWorkflowDefinition d) := by
  refine (readOnly_validateWorkflowNameAndVersion _ _).keeps.bind fun _ _ => ?_
  exact (keeps_store (σ := schema) (t := .definitions) trivial).bind fun _ _ => keeps_pure trivial

theorem keeps_takeSingletonLock (singleton : Bool) (e : WorkflowExecution) :
    Keeps (heritage P N) (fun _ => True) (takeSingletonLock singleton e) := by
  cases singleton with
  | false => exact keeps_pure trivial
  | true =>
    refine (readOnly_getLock _).keeps.bind fun lock _ => ?_
    refine (readOnly_checkSingletonLock _ _).keeps.bind fun _ _ => ?_
    exact keeps_store (σ := schema) (t := .singletonLocks) trivial

theorem keeps_startWorkflow (h : Heritable P N) (name : String) (version : Int32) (input : Json) :
    Keeps (heritage P N) (fun _ => True) (startWorkflow name version input) := by
  refine (readOnly_validateWorkflowNameAndVersion _ _).keeps.bind fun _ _ => ?_
  refine (readOnly_getDefinition _).keeps.bind fun found _ => ?_
  refine (readOnly_orThrow found _).keeps.bind fun row _ => ?_
  refine readOnly_generateExecutionId.keeps.bind fun id _ => ?_
  refine keeps_nowForStorage.bind fun startedAt _ => ?_
  refine (keeps_takeSingletonLock _ _).bind fun _ _ => ?_
  refine (keeps_putExecution _).bind fun _ _ => ?_
  refine (h.keeps_makeStepExecution _ _ _ _ _).bind fun first hfirst => ?_
  exact (keeps_putStep hfirst).bind fun _ _ => keeps_pure trivial

theorem keeps_claimStep (h : Heritable P N) (d : WorkflowDefinition) (workerId : String)
    (now : TimePoint) (claimed : List WorkflowStepExecution)
    {found : Option WorkflowStepExecutionRow}
    (hfound : ∀ row ∈ found, P row.fromRow ∧ row.fromRow.Tied) :
    Keeps (heritage P N) (fun _ => True) (claimStep d workerId now claimed found) := by
  cases found with
  | none => exact keeps_pure trivial
  | some row =>
    simp only [claimStep]
    split_ifs with hclaimable
    · have active := Ledger.active_of_isClaimable hclaimable
      refine (keeps_lift _).bind fun step _ => ?_
      refine (keeps_lift _).bind fun lease _ => ?_
      refine (h.keeps_rewrite (hfound row rfl).1 active ?_).bind fun _ _ => keeps_pure trivial
      exact fun _ _ => rfl
    · exact keeps_pure trivial

theorem keeps_claimSteps (h : Heritable P N) (d : WorkflowDefinition) (workerId : String)
    (now : TimePoint) (maxResults : ℕ) (claimed candidates : List WorkflowStepExecution) :
    Keeps (heritage P N) (fun _ => True) (claimSteps d workerId now maxResults claimed candidates) := by
  induction candidates generalizing claimed with
  | nil => exact keeps_pure trivial
  | cons c candidates ih =>
    rw [claimSteps]
    split_ifs
    · exact keeps_pure trivial
    · refine (keeps_getStep _).bind fun found hfound => ?_
      exact (h.keeps_claimStep d workerId now claimed hfound).bind fun claimed _ => ih claimed

theorem keeps_pollAndClaimWorkflowSteps (h : Heritable P N) (name : String) (version : Int32)
    (workerId : String) (maxResults : ℕ) :
    Keeps (heritage P N) (fun _ => True)
      (pollAndClaimWorkflowSteps name version workerId maxResults) := by
  refine (readOnly_validateWorkflowNameAndVersion _ _).keeps.bind fun _ _ => ?_
  refine (readOnly_validateWorkerId _).keeps.bind fun _ _ => ?_
  refine (readOnly_throwIf _ _).keeps.bind fun _ _ => ?_
  refine (readOnly_getDefinition _).keeps.bind fun found _ => ?_
  refine (readOnly_orThrow found _).keeps.bind fun row _ => ?_
  refine keeps_nowForStorage.bind fun now _ => ?_
  refine (readOnly_querySteps _).keeps.bind fun pending _ => ?_
  refine (readOnly_querySteps _).keeps.bind fun running _ => ?_
  refine (readOnly_reserve _).keeps.bind fun _ _ => ?_
  exact h.keeps_claimSteps _ _ _ _ _ _

theorem keeps_keepAliveStep (h : Heritable P N) (id name workerId : String) :
    Keeps (heritage P N) (fun _ => True) (keepAliveStep id name workerId) := by
  refine (readOnly_validateExecutionId _).keeps.bind fun _ _ => ?_
  refine (readOnly_validateStepName _).keeps.bind fun _ _ => ?_
  refine (readOnly_validateWorkerId _).keeps.bind fun _ _ => ?_
  refine (readOnly_getCurrentExecution _ _).keeps.bind fun e _ => ?_
  refine (readOnly_getDefinitionOf _).keeps.bind fun d _ => ?_
  refine (keeps_getClaimedStep _ _ _ _).bind fun s hs => ?_
  refine (keeps_lift _).bind fun step _ => ?_
  refine keeps_nowForStorage.bind fun now _ => ?_
  refine (keeps_lift _).bind fun lease _ => ?_
  refine (h.keeps_rewrite hs.1 (.inr hs.2) ?_).bind fun _ _ => keeps_pure trivial
  exact fun _ _ => hs.2

theorem keeps_scheduleAfter (delay : Option Seconds) :
    Keeps (heritage P N) (fun _ => True) (scheduleAfter delay) := by
  cases delay with
  | none => exact keeps_pure trivial
  | some delay => exact keeps_nowForStorage.bind fun _ _ => keeps_pure trivial

theorem keeps_advance (h : Heritable P N) (d : WorkflowDefinition) (e : WorkflowExecution)
    (decision : NextStepDecision) (delay : Option Seconds) :
    Keeps (heritage P N) (fun _ => True) (advance d e decision delay) := by
  refine (readOnly_orThrow _ _).keeps.bind fun next _ => ?_
  refine (readOnly_throwIf _ _).keeps.bind fun _ _ => ?_
  refine (keeps_putExecution _).bind fun _ _ => ?_
  refine (keeps_scheduleAfter delay).bind fun scheduledAt _ => ?_
  refine (h.keeps_makeStepExecution _ _ _ _ _).bind fun s hs => ?_
  exact (keeps_putStep hs).bind fun _ _ => keeps_pure trivial

theorem keeps_completeStep (h : Heritable P N) (id name workerId : String) (output : Json)
    (delay : Option Seconds) :
    Keeps (heritage P N) (fun _ => True) (completeStep id name workerId output delay) := by
  refine (readOnly_validateExecutionId _).keeps.bind fun _ _ => ?_
  refine (readOnly_validateStepName _).keeps.bind fun _ _ => ?_
  refine (readOnly_validateWorkerId _).keeps.bind fun _ _ => ?_
  refine (keeps_throwIf _ _).bind fun _ _ => ?_
  refine (readOnly_getCurrentExecution _ _).keeps.bind fun e _ => ?_
  refine (keeps_getClaimedStep _ _ _ _).bind fun s hs => ?_
  refine (readOnly_getDefinitionOf _).keeps.bind fun d _ => ?_
  refine (readOnly_decideNextStep _).keeps.bind fun decision _ => ?_
  refine keeps_nowForStorage.bind fun completedAt _ => ?_
  refine (h.keeps_rewrite hs.1 (.inr hs.2)).bind fun _ _ => ?_
  split_ifs
  · refine keeps_nowForStorage.bind fun at_ _ => ?_
    exact (keeps_putExecution _).bind fun _ _ => keeps_pure trivial
  · exact h.keeps_advance d _ decision delay

theorem keeps_failStep (h : Heritable P N) (id name workerId reason : String) :
    Keeps (heritage P N) (fun _ => True) (failStep id name workerId reason) := by
  refine (readOnly_validateExecutionId _).keeps.bind fun _ _ => ?_
  refine (readOnly_validateStepName _).keeps.bind fun _ _ => ?_
  refine (readOnly_validateWorkerId _).keeps.bind fun _ _ => ?_
  refine (readOnly_getCurrentExecution _ _).keeps.bind fun e _ => ?_
  refine (keeps_getClaimedStep _ _ _ _).bind fun s hs => ?_
  refine (readOnly_getDefinitionOf _).keeps.bind fun d _ => ?_
  refine (keeps_lift _).bind fun step _ => ?_
  refine keeps_nowForStorage.bind fun completedAt _ => ?_
  refine (h.keeps_rewrite hs.1 (.inr hs.2)).bind fun _ _ => ?_
  split_ifs
  · refine (keeps_putExecution _).bind fun _ _ => ?_
    refine (h.keeps_makeStepExecution _ _ _ _ _).bind fun retry hretry => ?_
    exact (keeps_putStep hretry).bind fun _ _ => keeps_pure trivial
  · refine keeps_nowForStorage.bind fun at_ _ => ?_
    exact (keeps_putExecution _).bind fun _ _ => keeps_pure trivial

theorem keeps_cancelSteps (h : Heritable P N) (now : TimePoint)
    {rows : List WorkflowStepExecutionRow}
    (hrows : ∀ row ∈ rows, P row.fromRow ∧ row.fromRow.Tied) :
    Keeps (heritage P N) (fun _ => True) (Orchestrator.cancelSteps now rows) := by
  induction rows with
  | nil => exact keeps_pure trivial
  | cons row rows ih =>
    have hrest := ih fun row' hrow' => hrows row' (List.mem_cons_of_mem row hrow')
    simp only [Orchestrator.cancelSteps]
    split_ifs with active
    · exact (h.keeps_rewrite (hrows row List.mem_cons_self).1 active).bind fun _ _ => hrest
    · exact hrest

theorem keeps_cancelWorkflow (h : Heritable P N) (id : String) :
    Keeps (heritage P N) (fun _ => True) (cancelWorkflow id) := by
  refine (readOnly_validateExecutionId _).keeps.bind fun _ _ => ?_
  refine (readOnly_getExecution _).keeps.bind fun found _ => ?_
  refine (readOnly_orThrow found _).keeps.bind fun row _ => ?_
  refine (readOnly_throwIf _ _).keeps.bind fun _ _ => ?_
  refine keeps_nowForStorage.bind fun now _ => ?_
  refine (keeps_querySteps _).bind fun rows hrows => ?_
  refine (h.keeps_cancelSteps now hrows).bind fun _ _ => ?_
  exact (keeps_putExecution _).bind fun _ _ => keeps_pure trivial

theorem keeps_failExpiredStep (h : Heritable P N) (now : TimePoint) (result : SweepResult)
    (hs : P s) (running : s.status = .running) (e : WorkflowExecution) (d : WorkflowDefinition) :
    Keeps (heritage P N) (fun _ => True) (failExpiredStep now result s e d) := by
  refine (keeps_lift _).bind fun step _ => ?_
  refine (h.keeps_rewrite hs (.inr running)).bind fun _ _ => ?_
  split_ifs
  · refine (keeps_putExecution _).bind fun _ _ => ?_
    refine (h.keeps_makeStepExecution _ _ _ _ _).bind fun retry hretry => ?_
    exact (keeps_putStep hretry).bind fun _ _ => keeps_pure trivial
  · exact (keeps_putExecution _).bind fun _ _ => keeps_pure trivial

theorem keeps_sweepStep (h : Heritable P N) (now : TimePoint) (result : SweepResult)
    {row : WorkflowStepExecutionRow} (hs : P row.fromRow ∧ row.fromRow.Tied) :
    Keeps (heritage P N) (fun _ => True) (sweepStep now result row) := by
  simp only [sweepStep]
  split_ifs with hexpired
  · exact keeps_pure trivial
  · refine (readOnly_getExecution _).keeps.bind fun found _ => ?_
    cases found with
    | none => exact keeps_pure trivial
    | some execution =>
      dsimp only
      split_ifs
      · exact keeps_pure trivial
      · exact keeps_pure trivial
      · refine (readOnly_getDefinition _).keeps.bind fun found _ => ?_
        cases found with
        | none => exact keeps_pure trivial
        | some definition =>
          have hlapsed : leaseExpired row.fromRow now = true := by simpa using hexpired
          obtain ⟨deadline, hdeadline, -⟩ := lease_of_leaseExpired.mp hlapsed
          exact h.keeps_failExpiredStep now result hs.1 (hs.2 deadline hdeadline) _ _

theorem keeps_sweepSteps (h : Heritable P N) (now : TimePoint) (result : SweepResult)
    {rows : List WorkflowStepExecutionRow}
    (hrows : ∀ row ∈ rows, P row.fromRow ∧ row.fromRow.Tied) :
    Keeps (heritage P N) (fun _ => True) (sweepSteps now result rows) := by
  induction rows generalizing result with
  | nil => exact keeps_pure trivial
  | cons row rows ih =>
    refine (h.keeps_sweepStep now result (hrows row List.mem_cons_self)).bind fun result _ => ?_
    exact ih result fun row' hrow' => hrows row' (List.mem_cons_of_mem row hrow')

theorem keeps_sweepExpiredLeases (h : Heritable P N) :
    Keeps (heritage P N) (fun _ => True) sweepExpiredLeases := by
  refine keeps_nowForStorage.bind fun now _ => ?_
  exact (keeps_querySteps _).bind fun rows hrows => h.keeps_sweepSteps now {} hrows

theorem keeps_program (h : Heritable P N) (op : Operation) :
    Keeps (heritage P N) (fun _ => True) op.program := by
  cases op with
  | registerWorkflowDefinition d =>
    exact (keeps_registerWorkflowDefinition d).bind fun _ _ => keeps_pure trivial
  | startWorkflow name version input =>
    exact (h.keeps_startWorkflow name version input).bind fun _ _ => keeps_pure trivial
  | pollAndClaimWorkflowSteps name version workerId maxResults =>
    exact (h.keeps_pollAndClaimWorkflowSteps name version workerId maxResults).bind
      fun _ _ => keeps_pure trivial
  | keepAliveStep id name workerId =>
    exact (h.keeps_keepAliveStep id name workerId).bind fun _ _ => keeps_pure trivial
  | completeStep id name workerId output delay =>
    exact (h.keeps_completeStep id name workerId output delay).bind fun _ _ => keeps_pure trivial
  | failStep id name workerId reason =>
    exact (h.keeps_failStep id name workerId reason).bind fun _ _ => keeps_pure trivial
  | cancelWorkflow id => exact (h.keeps_cancelWorkflow id).bind fun _ _ => keeps_pure trivial
  | sweepExpiredLeases => exact h.keeps_sweepExpiredLeases.bind fun _ _ => keeps_pure trivial

variable {E : Engine schema} {db db' : E.Db} {c : Call} {calls : List Call}

theorem step (h : Heritable P N) (call : Call.Step db c db') (clock : ∀ n, N (c.reading n))
    (rows : (heritage P N).Holds db) : (heritage P N).Holds db' := by
  obtain ⟨-, rfl⟩ := call
  refine (h.keeps_program c.operation).atomic (fun n q => ?_) rows
  cases q with
  | clock => exact clock n
  | draw => trivial
  | reserve m => trivial
  | decideNextStep context => trivial

/-- Calls whose clocks read only times of the kind keep the property of all attempts. -/
theorem holds_of_calls (h : Heritable P N) (run : Calls E db calls db')
    (clock : ∀ c ∈ calls, ∀ n, N (c.reading n)) (rows : (heritage P N).Holds db) :
    (heritage P N).Holds db' :=
  (run.always (I := (heritage P N).Holds) (P := fun c => ∀ n, N (c.reading n)) (Q := fun _ => True)
    (fun _ _ _ hdb hclock call => ⟨h.step call hclock hdb, trivial⟩) clock rows).1

end Heritable

namespace WorkflowStepExecution

@[refl] theorem SameOrigin.refl (s : WorkflowStepExecution) : s.SameOrigin s :=
  ⟨rfl, rfl, rfl, rfl, rfl, rfl⟩

theorem SameOrigin.trans {s s' s'' : WorkflowStepExecution} (h : s.SameOrigin s')
    (h' : s'.SameOrigin s'') : s.SameOrigin s'' :=
  ⟨h'.stepKey.trans h.stepKey, h'.versionKey.trans h.versionKey, h'.input.trans h.input,
    h'.state.trans h.state, h'.createdAt.trans h.createdAt, h'.scheduledAt.trans h.scheduledAt⟩

theorem SameOrigin.stored {s s' : WorkflowStepExecution} (h : s.SameOrigin s')
    (hs : s.stored = s) : s.SameOrigin s'.stored := by
  refine ⟨h.stepKey, h.versionKey, h.input, h.state, ?_, ?_⟩
  · change storedTime s'.createdAt = s.createdAt
    rw [h.createdAt]
    exact congrArg WorkflowStepExecution.createdAt hs
  · change storedTime s'.scheduledAt = s.scheduledAt
    rw [h.scheduledAt]
    exact congrArg WorkflowStepExecution.scheduledAt hs

/-- The store has the attempt, rewritten if it was active, or the attempt was made since. -/
def From {E : Engine schema} (db : E.Db) (t : TimePoint) (s : WorkflowStepExecution) : Prop :=
  (∃ row, E.get db .steps s.stepKey.text = some row ∧ row.fromRow.SameOrigin s ∧
    (row.fromRow.status.Active ∨ s = row.fromRow)) ∨
    ∃ c, s.createdAt = some c ∧ t ≤ c ∧ Exact c

end WorkflowStepExecution

variable {E : Engine schema} {db db' : E.Db} {t : TimePoint} {calls : List Call}

theorem heritable_from (h : ReachableFromEpoch E db) :
    Heritable (WorkflowStepExecution.From db t) fun now => t ≤ now ∧ Exact now where
  kept := by
    intro s s' hs active same
    rcases hs with ⟨row, hrow, horigin, hrewritten⟩ | ⟨c, hc, hct, hexact⟩
    · have hactive : row.fromRow.status.Active := hrewritten.elim id fun heq => heq ▸ active
      refine .inl ⟨row, ?_, (horigin.trans same).stored (h.holds .steps _ row hrow), .inl hactive⟩
      rw [WorkflowStepExecution.stored_stepKey, same.stepKey]
      exact hrow
    · refine .inr ⟨c, ?_, hct, hexact⟩
      change storedTime s'.createdAt = some c
      rw [same.createdAt, hc]
      exact congrArg some (Iso8601.stored_exact hexact)
  born := by
    intro s now hnow hs
    refine .inr ⟨now, ?_, hnow⟩
    change storedTime s.createdAt = some now
    rw [hs]
    exact congrArg some (Iso8601.stored_exact hnow.2)

theorem Encoded.stepKey_text (enc : Encoded db) {k : String} {row : WorkflowStepExecutionRow}
    (h : E.get db .steps k = some row) : row.fromRow.stepKey.text = k := by
  obtain rfl : row.key = k := E.key_of_get _ _ _ _ h
  exact (enc.step_row h).2.2.symm

theorem Reachable.tied (h : Reachable E db) {k : String} {row : WorkflowStepExecutionRow}
    (hrow : E.get db .steps k = some row) : row.fromRow.Tied := by
  obtain ⟨calls, run⟩ := h
  have anything : Heritable (fun _ => True) fun _ => True := ⟨fun _ _ _ => trivial, fun _ _ => trivial⟩
  exact (anything.holds_of_calls run (fun _ _ _ => trivial) (Contract.holds_empty _) .steps k row
    hrow).2

theorem Reachable.holds_from (h : Reachable E db) :
    (heritage (WorkflowStepExecution.From db t) fun now => t ≤ now ∧ Exact now).Holds db := by
  intro table k row hrow
  cases table with
  | steps =>
    have hkey := h.sound.encoded.stepKey_text hrow
    exact ⟨.inl ⟨row, hkey.symm ▸ hrow, .refl _, .inr rfl⟩, h.tied hrow⟩
  | _ => trivial

/-- Over any calls, each attempt keeps what it was given and when it was made and scheduled, and one
that has ended stays as it is: the row under a key is of the attempt that was there, or of one made
during the calls. -/
theorem origins_kept (h : ReachableFromEpoch E db) (run : Calls E db calls db')
    (clock : ∀ c ∈ calls, ∀ n, t ≤ c.reading n ∧ Exact (c.reading n)) {k : String}
    {row : WorkflowStepExecutionRow} (found : E.get db' .steps k = some row) :
    (∃ row₀, E.get db .steps k = some row₀ ∧ row₀.fromRow.SameOrigin row.fromRow ∧
      (row₀.fromRow.status.Active ∨ row.fromRow = row₀.fromRow)) ∨
      ∃ c, row.fromRow.createdAt = some c ∧ t ≤ c := by
  have sound' := sound_of_calls run h.reachable.sound
  rcases ((heritable_from h).holds_of_calls run clock h.reachable.holds_from .steps k row found).1 with
    ⟨row₀, hrow₀, hkept⟩ | ⟨c, hc, hct, -⟩
  · exact .inl ⟨row₀, sound'.encoded.stepKey_text found ▸ hrow₀, hkept⟩
  · exact .inr ⟨c, hc, hct⟩

theorem origins_kept_lapse : ∃ row row₀ : WorkflowStepExecutionRow,
    Sample.store.get (Sample.after (Sample.begin (Sample.definition false 1))) .steps
      (stepExecutionKey (Sample.id 0) "ship" 0) = some row₀ ∧
    Sample.store.get (Sample.after Sample.lapse) .steps
      (stepExecutionKey (Sample.id 0) "ship" 0) = some row ∧
    row.fromRow.status = .failed ∧ row₀.fromRow.SameOrigin row.fromRow := by
  have hreachable : ReachableFromEpoch Sample.store
      (Sample.after (Sample.begin (Sample.definition false 1))) := by
    refine ⟨_, calls_play (by decide +kernel), fun c hc n => ?_⟩
    rcases List.mem_pair.mp hc with rfl | rfl
    · exact (by decide : (0 : ℤ) ≤ 0)
    · exact (by decide : (0 : ℤ) ≤ 1000000)
  have hstatus := Sample.lapse_rows.2
  have hrun := Sample.calls_lapse
  have hclock : ∀ c ∈ Sample.lapse.drop 2, ∀ n, 2000000 ≤ c.reading n ∧ Exact (c.reading n) := by
    intro c hc n
    have hreadings : (Sample.lapse.drop 2).map (fun c => c.reading n) =
        [2000000, 20000000000, 21000000000] := rfl
    have hmem := List.mem_map_of_mem (f := fun c => c.reading n) hc
    rw [hreadings] at hmem
    generalize c.reading n = now at hmem ⊢
    simp only [List.mem_cons, List.not_mem_nil, or_false] at hmem
    rcases hmem with rfl | rfl | rfl
    · exact ⟨by decide, by decide, by decide, by decide⟩
    · exact ⟨by decide, by decide, by decide, by decide⟩
    · exact ⟨by decide, by decide, by decide, by decide⟩
  generalize Sample.after Sample.lapse = db' at *
  generalize Sample.after (Sample.begin (Sample.definition false 1)) = db at *
  obtain ⟨row, found, hfields⟩ := Option.map_eq_some_iff.mp hstatus
  obtain ⟨hfailed, hcreated⟩ := Prod.mk.inj hfields
  rcases origins_kept hreachable hrun hclock found with ⟨row₀, found₀, same, -⟩ | ⟨c, hc, hct⟩
  · exact ⟨row, row₀, found₀, found, hfailed, same⟩
  · rw [hcreated] at hc
    obtain rfl := Option.some_inj.mp hc
    exact absurd hct (by decide)

end WorkflowEngine
