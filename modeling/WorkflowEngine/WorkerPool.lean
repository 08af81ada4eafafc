import WorkflowEngine.Records
import WorkflowEngine.Systems.Run
import WorkflowEngine.Systems.Threads

/-!
# The worker pool

Pollers claim steps for idle executors and put them on a queue; executors take
them from it. A step of the system is one section under the state mutex, one
read of the atomic flag, or the end of a client call, which takes as long as it
likes. The records of claimed and executed steps are kept beside the state.
-/

namespace WorkflowEngine

namespace Cxx

/-- `static_cast<int>` of a `std::size_t`. -/
def toInt (n : ℕ) : ℤ := Int.bmod n (2 ^ 32)

/-- A value modulo 2^64, as `std::size_t` arithmetic and `static_cast<std::size_t>` leave it. -/
def toSizeT (n : ℤ) : ℕ := (n % 2 ^ 64).toNat

theorem toInt_eq {n : ℕ} (h : n < 2 ^ 31) : toInt n = n := by
  unfold toInt
  rw [Int.bmod_def]
  omega

theorem toSizeT_eq {n : ℤ} (h : 0 ≤ n) (hmax : n < 2 ^ 64) : (toSizeT n : ℤ) = n := by
  rw [toSizeT, Int.emod_eq_of_lt h hmax, Int.toNat_of_nonneg h]

end Cxx

namespace WorkerPool
open Systems

structure Options where
  threadCount : ℕ := 4
  pollerCount : ℕ := 2
  maxResultsPerPoll : ℕ := 4

structure Config where
  definitions : List WorkflowDefinitionKey
  workerId : String
  options : Options

structure PollAndClaimWorkflowStepsRequest where
  workflowName : String
  workflowVersion : Int32
  workerId : String
  maxResults : ℕ := 1
  deriving DecidableEq

/-- What the threads share: two members under the state mutex and the atomic flag, and the steps
that calls of `pollAndClaimWorkflowSteps` returned and that were passed to `executeStep`. -/
structure Shared where
  idleExecutors : ℤ
  workQueue : List WorkflowStepExecution := []
  stopping : Bool := false
  claimed : List WorkflowStepExecution := []
  executed : List WorkflowStepExecution := []

/-- `for (i = pollerIndex; i < definitions.size(); i += pollerCount)` -/
def Config.subset (config : Config) (pollerIndex : ℕ) : List ℕ :=
  (List.range config.definitions.length).filter fun i =>
    pollerIndex ≤ i && (i - pollerIndex) % config.options.pollerCount == 0

def toRequest (config : Config) (shared : Shared) : ℕ :=
  min (Cxx.toSizeT shared.idleExecutors) config.options.maxResultsPerPoll

def Config.request (config : Config) (key : WorkflowDefinitionKey) (maxResults : ℕ) :
    PollAndClaimWorkflowStepsRequest where
  workflowName := key.workflowName
  workflowVersion := key.workflowVersion
  workerId := config.workerId
  maxResults := maxResults

inductive Poller
  | entry
  /-- At `while (!stopping)`. -/
  | cycle
  /-- At the next pass of the loop over the definitions that are left. -/
  | scan (foundWork : Bool) (rest : List ℕ)
  | reserve (foundWork : Bool) (defIdx : ℕ) (rest : List ℕ)
  /-- The client call is under way. -/
  | polling (foundWork : Bool) (rest : List ℕ) (request : PollAndClaimWorkflowStepsRequest)
  | polled (foundWork : Bool) (rest : List ℕ) (toRequest : ℕ) (steps : List WorkflowStepExecution)
  | threw (foundWork : Bool) (rest : List ℕ) (toRequest : ℕ)
  | waiting
  | done

inductive PollerEvent
  | enter | leave | begin | breakOff | proceed | full
  | take (toRequest : ℕ)
  | answer (request : PollAndClaimWorkflowStepsRequest) (steps : List WorkflowStepExecution)
  | throws
  | giveBack
  | deliver (steps : List WorkflowStepExecution)
  | again | wait | wake

inductive PollerStep (config : Config) (pollerIndex : ℕ) :
    Shared → Poller → PollerEvent → Shared → Poller → Prop
  | enter {s : Shared} : PollerStep config pollerIndex s .entry .enter s
      (if (config.subset pollerIndex).isEmpty then .done else .cycle)
  | leave {s : Shared} (h : s.stopping = true) :
      PollerStep config pollerIndex s .cycle .leave s .done
  -- `std::shuffle` may leave any order.
  | begin {s : Shared} {order : List ℕ} (h : s.stopping = false)
      (shuffle : order.Perm (config.subset pollerIndex)) :
      PollerStep config pollerIndex s .cycle .begin s (.scan false order)
  | breakOff {s : Shared} {foundWork : Bool} {defIdx : ℕ} {rest : List ℕ} (h : s.stopping = true) :
      PollerStep config pollerIndex s (.scan foundWork (defIdx :: rest)) .breakOff s
        (.scan foundWork [])
  | proceed {s : Shared} {foundWork : Bool} {defIdx : ℕ} {rest : List ℕ} (h : s.stopping = false) :
      PollerStep config pollerIndex s (.scan foundWork (defIdx :: rest)) .proceed s
        (.reserve foundWork defIdx rest)
  | full {s : Shared} {foundWork : Bool} {defIdx : ℕ} {rest : List ℕ} (h : s.idleExecutors ≤ 0) :
      PollerStep config pollerIndex s (.reserve foundWork defIdx rest) .full s (.scan foundWork rest)
  | take {s : Shared} {foundWork : Bool} {defIdx : ℕ} {rest : List ℕ} {key : WorkflowDefinitionKey}
      (hkey : config.definitions[defIdx]? = some key) (h : ¬ s.idleExecutors ≤ 0) :
      PollerStep config pollerIndex s (.reserve foundWork defIdx rest) (.take (toRequest config s))
        { s with idleExecutors := s.idleExecutors - Cxx.toInt (toRequest config s) }
        (.polling foundWork rest (config.request key (toRequest config s)))
  | answer {s : Shared} {foundWork : Bool} {rest : List ℕ}
      {request : PollAndClaimWorkflowStepsRequest} {steps : List WorkflowStepExecution} :
      PollerStep config pollerIndex s (.polling foundWork rest request) (.answer request steps)
        { s with claimed := s.claimed ++ steps } (.polled foundWork rest request.maxResults steps)
  | throws {s : Shared} {foundWork : Bool} {rest : List ℕ}
      {request : PollAndClaimWorkflowStepsRequest} :
      PollerStep config pollerIndex s (.polling foundWork rest request) .throws s
        (.threw foundWork rest request.maxResults)
  | giveBack {s : Shared} {foundWork : Bool} {rest : List ℕ} {n : ℕ} :
      PollerStep config pollerIndex s (.threw foundWork rest n) .giveBack
        { s with idleExecutors := s.idleExecutors + Cxx.toInt n } (.scan foundWork rest)
  | deliver {s : Shared} {foundWork : Bool} {rest : List ℕ} {n : ℕ}
      {steps : List WorkflowStepExecution} :
      PollerStep config pollerIndex s (.polled foundWork rest n steps) (.deliver steps)
        { s with
          idleExecutors := s.idleExecutors + Cxx.toInt (Cxx.toSizeT (n - steps.length))
          workQueue := s.workQueue ++ steps }
        (.scan (foundWork || !steps.isEmpty) rest)
  | again {s : Shared} {foundWork : Bool} (h : foundWork = true ∨ s.stopping = true) :
      PollerStep config pollerIndex s (.scan foundWork []) .again s .cycle
  | wait {s : Shared} (h : s.stopping = false) :
      PollerStep config pollerIndex s (.scan false []) .wait s .waiting
  | wake {s : Shared} : PollerStep config pollerIndex s .waiting .wake s .cycle

inductive Executor
  | waiting
  | holding (step : WorkflowStepExecution)
  /-- `executeStep` is under way. -/
  | executing (step : WorkflowStepExecution)
  | done
  deriving DecidableEq

inductive ExecutorEvent
  | take | leave | execute | finish

inductive ExecutorStep : ℕ → Shared → Executor → ExecutorEvent → Shared → Executor → Prop
  | take {i : ℕ} {s : Shared} {step : WorkflowStepExecution} {rest : List WorkflowStepExecution}
      (h : s.workQueue = step :: rest) :
      ExecutorStep i s .waiting .take { s with workQueue := rest } (.holding step)
  | leave {i : ℕ} {s : Shared} (hstopping : s.stopping = true) (h : s.workQueue = []) :
      ExecutorStep i s .waiting .leave s .done
  | execute {i : ℕ} {s : Shared} {step : WorkflowStepExecution} :
      ExecutorStep i s (.holding step) .execute { s with executed := s.executed ++ [step] }
        (.executing step)
  | finish {i : ℕ} {s : Shared} {step : WorkflowStepExecution} :
      ExecutorStep i s (.executing step) .finish
        { s with idleExecutors := s.idleExecutors + 1 } .waiting

inductive Stop
  | notCalled | joiningPollers | joiningExecutors | returned
  deriving DecidableEq

structure Pool where
  shared : Shared
  pollers : List Poller
  executors : List Executor
  stop : Stop := .notCalled

inductive Event
  | poller (i : ℕ) (e : PollerEvent)
  | executor (i : ℕ) (e : ExecutorEvent)
  | stop | joinPollers | joinExecutors

inductive Step (config : Config) : Pool → Event → Pool → Prop
  | poller {pool : Pool} {i : ℕ} {e : PollerEvent} {shared : Shared} {pollers : List Poller}
      (h : Moves (PollerStep config) pool.shared pool.pollers i e shared pollers) :
      Step config pool (.poller i e) { pool with shared := shared, pollers := pollers }
  | executor {pool : Pool} {i : ℕ} {e : ExecutorEvent} {shared : Shared} {executors : List Executor}
      (h : Moves ExecutorStep pool.shared pool.executors i e shared executors) :
      Step config pool (.executor i e) { pool with shared := shared, executors := executors }
  | stop {pool : Pool} (h : pool.stop = .notCalled) :
      Step config pool .stop
        { pool with shared := { pool.shared with stopping := true }, stop := .joiningPollers }
  | joinPollers {pool : Pool} (h : pool.stop = .joiningPollers)
      (hdone : ∀ p ∈ pool.pollers, p = .done) :
      Step config pool .joinPollers { pool with stop := .joiningExecutors }
  | joinExecutors {pool : Pool} (h : pool.stop = .joiningExecutors)
      (hdone : ∀ x ∈ pool.executors, x = .done) :
      Step config pool .joinExecutors { pool with stop := .returned }

def start (config : Config) : Pool where
  shared := { idleExecutors := Cxx.toInt config.options.threadCount }
  pollers := List.replicate config.options.pollerCount .entry
  executors := List.replicate config.options.threadCount .waiting

variable {config : Config} {pollerIndex i : ℕ} {s s' : Shared} {p p' : Poller} {x x' : Executor}
  {pool pool' : Pool} {events : List Event} {e : Event}

def Poller.reserved : Poller → ℕ
  | .polling _ _ request => request.maxResults
  | .polled _ _ toRequest _ => toRequest
  | .threw _ _ toRequest => toRequest
  | _ => 0

def Poller.undelivered : Poller → List WorkflowStepExecution
  | .polled _ _ _ steps => steps
  | _ => []

def Executor.busy : Executor → ℕ
  | .holding _ | .executing _ => 1
  | _ => 0

/-- A poll returns at most as many steps as it was asked for. -/
def Event.WithinRequest : Event → Prop
  | .poller _ (.answer request steps) => steps.length ≤ request.maxResults
  | _ => True

theorem toRequest_le (hidle : 0 ≤ s.idleExecutors) (hmax : s.idleExecutors < 2 ^ 31) :
    (toRequest config s : ℤ) ≤ s.idleExecutors := by
  have hcast := Cxx.toSizeT_eq hidle (by omega)
  unfold toRequest
  omega

theorem PollerStep.balance {e : PollerEvent} (h : PollerStep config pollerIndex s p e s' p')
    (hidle : 0 ≤ s.idleExecutors) (hmax : s.idleExecutors + p.reserved < 2 ^ 31)
    (hfits : p.undelivered.length ≤ p.reserved) (hwithin : (Event.poller i e).WithinRequest) :
    0 ≤ s'.idleExecutors ∧ p'.undelivered.length ≤ p'.reserved ∧
    s'.idleExecutors + p'.reserved + s'.workQueue.length =
      s.idleExecutors + p.reserved + s.workQueue.length := by
  cases h with
  | enter =>
    split
    · exact ⟨hidle, hfits, rfl⟩
    · exact ⟨hidle, hfits, rfl⟩
  | take hkey hpos =>
    have hle : (toRequest config s : ℤ) ≤ s.idleExecutors := toRequest_le hidle (by omega)
    have hcast : Cxx.toInt (toRequest config s) = toRequest config s := Cxx.toInt_eq (by omega)
    simp only [hcast, Poller.reserved, Poller.undelivered, Config.request, List.length_nil]
    omega
  | answer => exact ⟨hidle, hwithin, rfl⟩
  | giveBack =>
    simp only [Poller.reserved, Poller.undelivered, List.length_nil] at hmax hfits ⊢
    rw [Cxx.toInt_eq (by omega)]
    omega
  | deliver =>
    simp only [Poller.reserved, Poller.undelivered, List.length_nil, List.length_append] at hmax hfits ⊢
    have hcast := Cxx.toSizeT_eq (n := _ - _) (Int.sub_nonneg.mpr (Int.ofNat_le.mpr hfits)) (by omega)
    rw [Cxx.toInt_eq (by omega), hcast]
    omega
  | _ => exact ⟨hidle, hfits, rfl⟩

theorem ExecutorStep.balance {e : ExecutorEvent} (h : ExecutorStep i s x e s' x')
    (hidle : 0 ≤ s.idleExecutors) : 0 ≤ s'.idleExecutors ∧
    s'.idleExecutors + s'.workQueue.length + x'.busy =
      s.idleExecutors + s.workQueue.length + x.busy := by
  cases h with
  | take hqueue =>
    simp only [Executor.busy, hqueue, List.length_cons]
    omega
  | finish =>
    simp only [Executor.busy]
    omega
  | _ => exact ⟨hidle, rfl⟩

/-- Every slot is idle, reserved by a poller, on the queue or with an executor. -/
structure Balanced (config : Config) (pool : Pool) : Prop where
  idle_nonneg : 0 ≤ pool.shared.idleExecutors
  fits : ∀ p ∈ pool.pollers, p.undelivered.length ≤ p.reserved
  slots : pool.shared.idleExecutors + (pool.pollers.map Poller.reserved).sum +
    pool.shared.workQueue.length + (pool.executors.map Executor.busy).sum = config.options.threadCount

theorem Balanced.step (hcount : config.options.threadCount < 2 ^ 31) (h : Balanced config pool)
    (hwithin : e.WithinRequest) (hstep : Step config pool e pool') : Balanced config pool' := by
  have hslots := h.slots
  cases hstep with
  | poller hmoves =>
    obtain ⟨p, p', hp, hlocal, -, hmem, hsum⟩ := hmoves.inv
    obtain ⟨hle, hsum⟩ := hsum Poller.reserved
    obtain ⟨hidle, hfits, hbalance⟩ := hlocal.balance h.idle_nonneg (by omega) (h.fits p hp) hwithin
    refine ⟨hidle, ?_, by dsimp only; omega⟩
    intro q hq
    rcases hmem q hq with rfl | hq
    · exact hfits
    · exact h.fits q hq
  | executor hmoves =>
    obtain ⟨x, x', -, hlocal, -, -, hsum⟩ := hmoves.inv
    obtain ⟨hidle, hbalance⟩ := hlocal.balance h.idle_nonneg
    have hsum := (hsum Executor.busy).2
    exact ⟨hidle, h.fits, by dsimp only; omega⟩
  | stop | joinPollers | joinExecutors => exact ⟨h.idle_nonneg, h.fits, hslots⟩

theorem balanced_start (hcount : config.options.threadCount < 2 ^ 31) :
    Balanced config (start config) := by
  have hidle := Cxx.toInt_eq hcount
  refine ⟨?_, ?_, ?_⟩
  · simp [start, hidle]
  · intro p hp
    rw [List.eq_of_mem_replicate hp]
    exact Nat.le_refl _
  · simp [start, hidle, Poller.reserved, Executor.busy]

theorem balanced_of_run (hcount : config.options.threadCount < 2 ^ 31)
    (hwithin : ∀ e ∈ events, e.WithinRequest) (hrun : Run (Step config) (start config) events pool) :
    Balanced config pool := by
  have hstep : ∀ pool e pool', Balanced config pool → e.WithinRequest → Step config pool e pool' →
      Balanced config pool' ∧ True := fun _ _ _ h hw hs => ⟨h.step hcount hw hs, trivial⟩
  exact (hrun.always (Q := fun _ => True) hstep hwithin (balanced_start hcount)).1

/-- No slot is lost or taken twice, and no poll asks for more slots than are idle. -/
theorem executor_slots_conserved (hcount : config.options.threadCount < 2 ^ 31)
    (hwithin : ∀ e ∈ events, e.WithinRequest)
    (hrun : Run (Step config) (start config) events pool) :
    0 ≤ pool.shared.idleExecutors ∧
    pool.shared.idleExecutors + (pool.pollers.map Poller.reserved).sum +
      pool.shared.workQueue.length + (pool.executors.map Executor.busy).sum =
        config.options.threadCount ∧
    (pool.pollers.map fun p => p.undelivered.length).sum + pool.shared.workQueue.length +
      (pool.executors.map Executor.busy).sum ≤ config.options.threadCount ∧
    ∀ i n pool', Step config pool (.poller i (.take n)) pool' → (n : ℤ) ≤ pool.shared.idleExecutors := by
  have h := balanced_of_run hcount hwithin hrun
  have hslots := h.slots
  have hidle := h.idle_nonneg
  refine ⟨hidle, hslots, ?_, ?_⟩
  · have hsum : (pool.pollers.map fun p => p.undelivered.length).sum ≤
        (pool.pollers.map Poller.reserved).sum := List.sum_le_sum h.fits
    omega
  · intro i n pool' hstep
    cases hstep with
    | poller hmoves =>
      obtain ⟨p, p', -, hlocal, -⟩ := hmoves.inv
      cases hlocal with
      | take hkey hpos => exact toRequest_le hidle (by omega)

def single : Config where
  definitions := [⟨"orders", 1⟩]
  workerId := "pool"
  options := { threadCount := 1, pollerCount := 1, maxResultsPerPoll := 1 }

def claimedStep : WorkflowStepExecution where
  workflowExecutionId := "id"
  workflowName := "orders"
  workflowVersion := 1
  stepName := "ship"
  attempt := 0

theorem executor_slots_conserved_single : ∃ pool : Pool,
    pool.shared.workQueue = [claimedStep] ∧
    0 ≤ pool.shared.idleExecutors ∧
    pool.shared.idleExecutors + (pool.pollers.map Poller.reserved).sum +
      pool.shared.workQueue.length + (pool.executors.map Executor.busy).sum =
        single.options.threadCount ∧
    (pool.pollers.map fun p => p.undelivered.length).sum + pool.shared.workQueue.length +
      (pool.executors.map Executor.busy).sum ≤ single.options.threadCount ∧
    ∀ i n pool', Step single pool (.poller i (.take n)) pool' →
      (n : ℤ) ≤ pool.shared.idleExecutors := by
  refine ⟨_, ?_, executor_slots_conserved (by decide) ?_
    (.cons (.poller (.mk [] [] .enter)) <|
    .cons (.poller (.mk [] [] (@PollerStep.begin single 0 _ [0] rfl (.refl _)))) <|
    .cons (.poller (.mk [] [] (.proceed rfl))) <|
    .cons (.poller (.mk [] [] (@PollerStep.take single 0 _ _ _ _ ⟨"orders", 1⟩ rfl (by decide)))) <|
    .cons (.poller (.mk [] [] (@PollerStep.answer single 0 _ _ _ _ [claimedStep]))) <|
    .cons (.poller (.mk [] [] .deliver)) .nil)⟩
  · rfl
  · simp only [List.mem_cons, List.not_mem_nil, or_false]
    intro e he
    rcases he with rfl | rfl | rfl | rfl | rfl | rfl
    · trivial
    · trivial
    · trivial
    · trivial
    · exact Nat.le_refl 1
    · trivial

def Executor.held : Executor → List WorkflowStepExecution
  | .holding step => [step]
  | _ => []

def Drained (pool : Pool) : Prop :=
  pool.shared.workQueue = [] ∧ pool.shared.claimed.Perm pool.shared.executed

/-- A poller puts steps on the queue only while some executor has not left. -/
def Attended (pool : Pool) (e : Event) : Prop :=
  ∀ i steps, e = .poller i (.deliver steps) → steps ≠ [] → ∃ x ∈ pool.executors, x ≠ .done

/-- The executors have left and there are steps on the queue. -/
def Abandoned (pool : Pool) : Prop :=
  (∀ x ∈ pool.executors, x = .done) ∧ pool.shared.workQueue ≠ []

theorem PollerStep.counts {e : PollerEvent} (h : PollerStep config pollerIndex s p e s' p')
    (step : WorkflowStepExecution) : s'.executed = s.executed ∧
    s'.claimed.count step + s.workQueue.count step + p.undelivered.count step =
      s.claimed.count step + s'.workQueue.count step + p'.undelivered.count step := by
  cases h with
  | enter =>
    split
    · exact ⟨rfl, rfl⟩
    · exact ⟨rfl, rfl⟩
  | answer =>
    simp only [Poller.undelivered, List.count_append, List.count_nil, true_and]
    omega
  | deliver =>
    simp only [Poller.undelivered, List.count_append, List.count_nil, true_and]
    omega
  | _ => exact ⟨rfl, rfl⟩

theorem ExecutorStep.counts {e : ExecutorEvent} (h : ExecutorStep i s x e s' x')
    (step : WorkflowStepExecution) : s'.claimed = s.claimed ∧
    s.executed.count step + s.workQueue.count step + x.held.count step =
      s'.executed.count step + s'.workQueue.count step + x'.held.count step := by
  cases h with
  | take hqueue =>
    simp only [Executor.held, hqueue, List.count_cons, List.count_nil, true_and]
    omega
  | execute =>
    simp only [Executor.held, List.count_append, List.count_nil, true_and]
    omega
  | _ => exact ⟨rfl, rfl⟩

/-- Every claimed step is on its way to an executor or was passed to `executeStep`. -/
def Accounted (pool : Pool) : Prop := ∀ step, pool.shared.claimed.count step =
  pool.shared.executed.count step + pool.shared.workQueue.count step +
  (pool.pollers.map fun p => p.undelivered.count step).sum +
  (pool.executors.map fun x => x.held.count step).sum

theorem Accounted.step (h : Accounted pool) (hstep : Step config pool e pool') :
    Accounted pool' := by
  intro step
  have hstep' := h step
  cases hstep with
  | poller hmoves =>
    obtain ⟨p, p', -, hlocal, -, -, hsum⟩ := hmoves.inv
    obtain ⟨hexecuted, hcounts⟩ := hlocal.counts step
    have hsum := (hsum fun p => p.undelivered.count step).2
    dsimp only at hsum ⊢
    rw [hexecuted]
    omega
  | executor hmoves =>
    obtain ⟨x, x', -, hlocal, -, -, hsum⟩ := hmoves.inv
    obtain ⟨hclaimed, hcounts⟩ := hlocal.counts step
    have hsum := (hsum fun x => x.held.count step).2
    dsimp only at hsum ⊢
    rw [hclaimed]
    omega
  | stop | joinPollers | joinExecutors => exact hstep'

theorem accounted_start : Accounted (start config) := by
  intro step
  simp [start, Poller.undelivered, Executor.held]

structure Joined (pool : Pool) : Prop where
  pollers : pool.stop = .joiningExecutors ∨ pool.stop = .returned → ∀ p ∈ pool.pollers, p = .done
  executors : pool.stop = .returned → ∀ x ∈ pool.executors, x = .done

theorem Joined.step (h : Joined pool) (hstep : Step config pool e pool') : Joined pool' := by
  cases hstep with
  | poller hmoves =>
    obtain ⟨p, p', hp, hlocal, -⟩ := hmoves.inv
    refine ⟨?_, h.executors⟩
    intro hstop
    rw [h.pollers hstop p hp] at hlocal
    cases hlocal
  | executor hmoves =>
    obtain ⟨x, x', hx, hlocal, -⟩ := hmoves.inv
    refine ⟨h.pollers, ?_⟩
    intro hstop
    rw [h.executors hstop x hx] at hlocal
    cases hlocal
  | stop => exact ⟨by simp, by simp⟩
  | joinPollers hstop hdone => exact ⟨fun _ => hdone, by simp⟩
  | joinExecutors hstop hdone => exact ⟨fun _ => h.pollers (.inl hstop), fun _ => hdone⟩

theorem Abandoned.step (h : Abandoned pool) (hstep : Step config pool e pool') :
    Abandoned pool' := by
  cases hstep with
  | poller hmoves =>
    obtain ⟨p, p', -, hlocal, -⟩ := hmoves.inv
    refine ⟨h.1, ?_⟩
    have hqueue := h.2
    cases hlocal with
    | deliver => simp [hqueue]
    | _ => exact hqueue
  | executor hmoves =>
    obtain ⟨x, x', hx, hlocal, -⟩ := hmoves.inv
    rw [h.1 x hx] at hlocal
    cases hlocal
  | stop | joinPollers | joinExecutors => exact h

/-- Steps are abandoned by a delivery that no executor attends, and by nothing else. -/
theorem abandoned_of_step (hstep : Step config pool e pool') (h : ¬ Abandoned pool)
    (h' : Abandoned pool') : ¬ Attended pool e := by
  cases hstep with
  | poller hmoves =>
    obtain ⟨p, p', -, hlocal, -⟩ := hmoves.inv
    obtain ⟨hdone, hqueue⟩ := h'
    have hempty : pool.shared.workQueue = [] := by
      by_contra hne
      exact h ⟨hdone, hne⟩
    cases hlocal with
    | @deliver _ _ _ steps =>
      intro hattended
      have hne : steps ≠ [] := by simpa [hempty] using hqueue
      obtain ⟨x, hx, hx'⟩ := hattended _ steps rfl hne
      exact hx' (hdone x hx)
    | _ => exact absurd hempty hqueue
  | executor hmoves =>
    obtain ⟨x, x', -, hlocal, hx', -⟩ := hmoves.inv
    obtain ⟨hdone, hqueue⟩ := h'
    have hleft := hdone x' hx'
    cases hlocal with
    | leave hstopping hempty => exact absurd hempty hqueue
    | _ => cases hleft
  | stop | joinPollers | joinExecutors => exact absurd h' h

theorem abandoned_of_unattended (hstep : Step config pool e pool') (h : ¬ Attended pool e) :
    Abandoned pool' := by
  simp only [Attended, not_forall, not_exists, not_and, not_not] at h
  obtain ⟨i, steps, rfl, hne, hdone⟩ := h
  cases hstep with
  | poller hmoves =>
    obtain ⟨p, p', -, hlocal, -⟩ := hmoves.inv
    cases hlocal with
    | deliver => exact ⟨hdone, by simp [hne]⟩

theorem abandoned_start : ¬ Abandoned (start config) := fun h => h.2 rfl

/-- A run in which every delivery is attended. -/
def AttendedRun (config : Config) : Pool → List Event → Pool → Prop :=
  Run fun pool e pool' => Step config pool e pool' ∧ Attended pool e

theorem not_abandoned_of_attended (hrun : AttendedRun config (start config) events pool) :
    ¬ Abandoned pool := by
  apply Run.invariant (I := fun pool => ¬ Abandoned pool) ?_ hrun abandoned_start
  intro pool e pool' h hstep habandoned
  exact abandoned_of_step hstep.1 h habandoned hstep.2

theorem attended_of_not_abandoned (hrun : Run (Step config) (start config) events pool)
    (h : ¬ Abandoned pool) : AttendedRun config (start config) events pool := by
  induction hrun with
  | nil => exact .nil
  | snoc run last ih =>
    refine .snoc (ih fun habandoned => h (habandoned.step last)) ⟨last, ?_⟩
    by_contra hattended
    exact h (abandoned_of_unattended last hattended)

/-- When `stop` returns nothing has been abandoned, if every delivery on the way was attended. If
one was not, the steps it delivered are still on the queue. -/
theorem stop_drains_iff (hrun : Run (Step config) (start config) events pool)
    (hreturned : pool.stop = .returned) :
    Drained pool ↔ AttendedRun config (start config) events pool := by
  constructor
  · intro hdrained
    exact attended_of_not_abandoned hrun fun habandoned => habandoned.2 hdrained.1
  · intro hattended
    have hjoined : Joined pool := Run.invariant (I := Joined) (fun _ _ _ h hs => h.step hs) hrun
      ⟨by simp [start], by simp [start]⟩
    have haccounted : Accounted pool :=
      Run.invariant (I := Accounted) (fun _ _ _ h hs => h.step hs) hrun accounted_start
    have hpollers := hjoined.pollers (.inr hreturned)
    have hexecutors := hjoined.executors hreturned
    have hqueue : pool.shared.workQueue = [] := by
      by_contra hne
      exact not_abandoned_of_attended hattended ⟨hexecutors, hne⟩
    refine ⟨hqueue, List.perm_iff_count.mpr fun step => ?_⟩
    have hundelivered : (pool.pollers.map fun p => p.undelivered.count step).sum = 0 := by
      apply List.sum_eq_zero
      intro n hn
      obtain ⟨p, hp, rfl⟩ := List.mem_map.mp hn
      rw [hpollers p hp]
      rfl
    have hheld : (pool.executors.map fun x => x.held.count step).sum = 0 := by
      apply List.sum_eq_zero
      intro n hn
      obtain ⟨x, hx, rfl⟩ := List.mem_map.mp hn
      rw [hexecutors x hx]
      rfl
    have hcount := haccounted step
    rw [hqueue, hundelivered, hheld] at hcount
    simpa using hcount

theorem stop_drains_iff_single : ∃ events pool, pool.shared.claimed = [claimedStep] ∧
    (Drained pool ↔ AttendedRun single (start single) events pool) := by
  refine ⟨_, _, ?_, stop_drains_iff (.cons (.poller (.mk [] [] .enter)) <|
    .cons (.poller (.mk [] [] (@PollerStep.begin single 0 _ [0] rfl (.refl _)))) <|
    .cons (.poller (.mk [] [] (.proceed rfl))) <|
    .cons (.poller (.mk [] [] (@PollerStep.take single 0 _ _ _ _ ⟨"orders", 1⟩ rfl (by decide)))) <|
    .cons (.poller (.mk [] [] (@PollerStep.answer single 0 _ _ _ _ [claimedStep]))) <|
    .cons (.poller (.mk [] [] .deliver)) <|
    .cons (.poller (.mk [] [] (.again (.inl rfl)))) <|
    .cons (.executor (.mk [] [] (.take rfl))) <|
    .cons (.stop rfl) <|
    .cons (.executor (.mk [] [] .execute)) <|
    .cons (.executor (.mk [] [] .finish)) <|
    .cons (.executor (.mk [] [] (.leave rfl rfl))) <|
    .cons (.poller (.mk [] [] (.leave rfl))) <|
    .cons (.joinPollers rfl (by simp)) <|
    .cons (.joinExecutors rfl (by simp)) .nil) rfl⟩
  rfl

/-- The call of `stop` comes while the poll is under way: the executor leaves before the poll
returns, and the step that the poll claimed stays on the queue. -/
theorem stop_abandons_late_step : ∃ events pool, Run (Step single) (start single) events pool ∧
    pool.stop = .returned ∧ ¬ Drained pool := by
  refine ⟨_, _, .cons (.poller (.mk [] [] .enter)) <|
    .cons (.poller (.mk [] [] (@PollerStep.begin single 0 _ [0] rfl (.refl _)))) <|
    .cons (.poller (.mk [] [] (.proceed rfl))) <|
    .cons (.poller (.mk [] [] (@PollerStep.take single 0 _ _ _ _ ⟨"orders", 1⟩ rfl (by decide)))) <|
    .cons (.stop rfl) <|
    .cons (.executor (.mk [] [] (.leave rfl rfl))) <|
    .cons (.poller (.mk [] [] (@PollerStep.answer single 0 _ _ _ _ [claimedStep]))) <|
    .cons (.poller (.mk [] [] .deliver)) <|
    .cons (.poller (.mk [] [] (.again (.inl rfl)))) <|
    .cons (.poller (.mk [] [] (.leave rfl))) <|
    .cons (.joinPollers rfl (by simp)) <|
    .cons (.joinExecutors rfl (by simp)) .nil, rfl, ?_⟩
  intro h
  cases h.1

end WorkerPool
end WorkflowEngine
