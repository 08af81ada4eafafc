import WorkflowEngine.Systems.Run
import WorkflowEngine.Txn.Frame

/-!
# Optimistic transactions

Any number of sessions run programs side by side, each over the snapshot of the
store at its begin. A session commits only if the keys that it read still have
the versions of its snapshot and its queries still select the same keys in the
same versions. It may start over, with a new environment, or give up.

In every run the committed sessions are serial in the order of their commits:
over the store that a session is committed on, its program returns what the
session returned and stages what it staged. Of two sessions that overlap, the
later commit depends on nothing that the earlier one wrote.
-/

namespace WorkflowEngine.Txn.Occ

variable {σ : Schema} {Q : Type} {A : Q → Type} {ε α : Type} {E : Engine σ}

def advance (env : Env σ Q A) : Program σ Q A ε α → Tx E → Program σ Q A ε α × Tx E
  | .ret a, tx => (.ret a, tx)
  | .fail e, tx => (.fail e, tx)
  | .get t k next, tx => (next (E.get tx.view t k), tx.noteKey t k)
  | .query t q next, tx => (next (env.arrange t q (E.select tx.view t q)), tx.noteQuery t q)
  | .put t r next, tx => (next, tx.stage t r)
  | .ask q next, tx => (next (env.answer tx.ticks q), tx.tick)

theorem exec_advance (env : Env σ Q A) (p : Program σ Q A ε α) (tx : Tx E) :
    Program.exec env (advance env p tx).1 (advance env p tx).2 = Program.exec env p tx := by
  cases p <;> rfl

def bump (version : σ.Address → ℕ) (ws : List (Write σ)) (a : σ.Address) : ℕ :=
  if a ∈ ws.map Write.address then version a + 1 else version a

theorem bump_of_mem {version : σ.Address → ℕ} {ws : List (Write σ)} {w : Write σ} (h : w ∈ ws) :
    bump version ws w.address = version w.address + 1 :=
  if_pos (List.mem_map_of_mem h)

theorem le_bump (version : σ.Address → ℕ) (ws : List (Write σ)) (a : σ.Address) :
    version a ≤ bump version ws a := by
  unfold bump
  split_ifs <;> omega

/-- The keys that a query selects, with their versions. -/
def fingerprint (db : E.Db) (version : σ.Address → ℕ) (q : σ.Table × σ.Query) :
    Set (String × ℕ) :=
  { p | ∃ r ∈ E.select db q.1 q.2, p = (σ.key q.1 r, version ⟨q.1, σ.key q.1 r⟩) }

section Fingerprint
variable {db db' : E.Db} {version version' : σ.Address → ℕ} {q : σ.Table × σ.Query}

theorem version_eq_of_fingerprint (h : fingerprint db version q = fingerprint db' version' q)
    {r : σ.Row q.1} (hr : r ∈ E.select db q.1 q.2) :
    version ⟨q.1, σ.key q.1 r⟩ = version' ⟨q.1, σ.key q.1 r⟩ := by
  have hmem : (σ.key q.1 r, version ⟨q.1, σ.key q.1 r⟩) ∈ fingerprint db' version' q := by
    rw [← h]
    exact ⟨r, hr, rfl⟩
  obtain ⟨r', _, heq⟩ := hmem
  obtain ⟨hkey, hversion⟩ := Prod.mk.inj heq
  rw [hversion, hkey]

theorem select_eq_of_fingerprint (h : fingerprint db version q = fingerprint db' version' q)
    (same : ∀ a : σ.Address, version a = version' a → E.get db a.1 a.2 = E.get db' a.1 a.2) :
    E.select db q.1 q.2 = E.select db' q.1 q.2 := by
  apply E.select_congr
  intro r hr
  constructor
  · intro hget
    have hsel : r ∈ E.select db q.1 q.2 := E.mem_select.mpr ⟨hget, hr⟩
    have hsame := same ⟨q.1, σ.key q.1 r⟩ (version_eq_of_fingerprint h hsel)
    exact hsame.symm.trans hget
  · intro hget
    have hsel : r ∈ E.select db' q.1 q.2 := E.mem_select.mpr ⟨hget, hr⟩
    have hsame := same ⟨q.1, σ.key q.1 r⟩ (version_eq_of_fingerprint h.symm hsel).symm
    exact hsame.trans hget

end Fingerprint

/-- The jobs that sessions run and the program of each. -/
structure Service (σ : Schema) where
  Question : Type
  Answer : Question → Type
  Error : Type
  Reply : Type
  Job : Type
  program : Job → Program σ Question Answer Error Reply

variable (P : Service σ) (E : Engine σ)

structure Session where
  job : P.Job
  env : Env σ P.Question P.Answer
  began : ℕ
  snapshot : E.Db
  seen : σ.Address → ℕ
  rest : Program σ P.Question P.Answer P.Error P.Reply
  tx : Tx E

/-- A committed session: how many commits there were at its begin, the store
that it was committed on and what it returned. -/
structure Committed where
  job : P.Job
  env : Env σ P.Question P.Answer
  began : ℕ
  before : E.Db
  result : P.Reply

structure State where
  store : E.Db
  version : σ.Address → ℕ
  session : ℕ → Option (Session P E)
  log : List (Committed P E)

inductive Move where
  | begin (i : ℕ) (job : P.Job) (env : Env σ P.Question P.Answer)
  | work (i : ℕ)
  | commit (i : ℕ)
  | retry (i : ℕ) (env : Env σ P.Question P.Answer)
  | abandon (i : ℕ)

variable {P E}

def Session.begin (s : State P E) (job : P.Job) (env : Env σ P.Question P.Answer) : Session P E where
  job := job
  env := env
  began := s.log.length
  snapshot := s.store
  seen := s.version
  rest := P.program job
  tx := Tx.begin s.store

def Session.work (x : Session P E) : Session P E :=
  { x with rest := (advance x.env x.rest x.tx).1, tx := (advance x.env x.rest x.tx).2 }

/-- What the session read is as it was at its begin. -/
structure Session.Unchanged (x : Session P E) (s : State P E) : Prop where
  key : ∀ a ∈ x.tx.keysRead, s.version a = x.seen a
  query : ∀ q ∈ x.tx.queries,
    fingerprint s.store s.version q = fingerprint x.snapshot x.seen q

namespace State

def empty (db : E.Db) : State P E := ⟨db, fun _ => 0, fun _ => none, []⟩

def setSession (s : State P E) (i : ℕ) (x : Option (Session P E)) : State P E :=
  { s with session := Function.update s.session i x }

def commit (s : State P E) (x : Session P E) (result : P.Reply) : State P E :=
  { s with
    store := E.applyWrites s.store x.tx.writes
    version := bump s.version x.tx.writes
    log := s.log ++ [⟨x.job, x.env, x.began, s.store, result⟩] }

inductive Step : State P E → Move P → State P E → Prop
  | begin {s : State P E} {i : ℕ} (job : P.Job) (env : Env σ P.Question P.Answer)
      (free : s.session i = none) :
      Step s (.begin i job env) (s.setSession i (some (Session.begin s job env)))
  | work {s : State P E} {i : ℕ} {x : Session P E} (session : s.session i = some x) :
      Step s (.work i) (s.setSession i (some x.work))
  | commit {s : State P E} {i : ℕ} {x : Session P E} {result : P.Reply}
      (session : s.session i = some x) (returned : x.rest = .ret result)
      (unchanged : x.Unchanged s) :
      Step s (.commit i) ((s.commit x result).setSession i none)
  | retry {s : State P E} {i : ℕ} {x : Session P E} (env : Env σ P.Question P.Answer)
      (session : s.session i = some x) :
      Step s (.retry i env) (s.setSession i (some (Session.begin s x.job env)))
  | abandon {s : State P E} {i : ℕ} {x : Session P E} (session : s.session i = some x) :
      Step s (.abandon i) (s.setSession i none)

end State

namespace Committed

/-- The session's program, run alone over the store that it was committed on. -/
def serial (x : Committed P E) : Except P.Error P.Reply × Tx E :=
  Program.exec x.env (P.program x.job) (Tx.begin x.before)

def Step (db : E.Db) (x : Committed P E) (db' : E.Db) : Prop :=
  x.before = db ∧ Program.atomic x.env (P.program x.job) db = (.ok x.result, db')

/-- The second session, run alone, reads and selects nothing that the first one wrote. -/
structure Spares (x y : Committed P E) : Prop where
  key : ∀ w ∈ x.serial.2.writes, w.address ∉ y.serial.2.keysRead
  query : ∀ w ∈ x.serial.2.writes, ∀ q ∈ y.serial.2.queries,
    ∀ r ∈ E.select y.before q.1 q.2, w.address ≠ ⟨q.1, σ.key q.1 r⟩

end Committed

/-- A later commit that began before an earlier one depends on nothing of it. -/
def Apart (log : List (Committed P E)) : Prop :=
  ∀ m n (x y : Committed P E), m < n → log[m]? = some x → log[n]? = some y → y.began ≤ m → x.Spares y

/-- What holds of a session as long as it runs. -/
structure Session.Sound (x : Session P E) (s : State P E) : Prop where
  exec : Program.exec x.env x.rest x.tx = Program.exec x.env (P.program x.job) (Tx.begin x.snapshot)
  began : x.began ≤ s.log.length
  seen : ∀ a, x.seen a ≤ s.version a
  same : ∀ a : σ.Address, s.version a = x.seen a → E.get s.store a.1 a.2 = E.get x.snapshot a.1 a.2
  written : ∀ m y, s.log[m]? = some y → x.began ≤ m → ∀ w ∈ y.serial.2.writes,
    x.seen w.address < s.version w.address

structure State.Sound (db : E.Db) (s : State P E) : Prop where
  session : ∀ i x, s.session i = some x → x.Sound s
  serial : Systems.Run Committed.Step db s.log s.store
  apart : Apart s.log

theorem getElem?_concat {T : Type*} {l : List T} {a b : T} {m : ℕ} (h : (l ++ [a])[m]? = some b) :
    l[m]? = some b ∨ m = l.length ∧ b = a := by
  rcases lt_trichotomy m l.length with hm | hm | hm
  · left
    rwa [List.getElem?_append_left hm] at h
  · right
    subst hm
    rw [List.getElem?_concat_length] at h
    exact ⟨rfl, (Option.some.inj h).symm⟩
  · have hlt := (List.getElem?_eq_some_iff.mp h).1
    rw [List.length_append, List.length_singleton] at hlt
    omega

namespace Session

theorem sound_begin (s : State P E) (job : P.Job) (env : Env σ P.Question P.Answer) :
    (Session.begin s job env).Sound s where
  exec := rfl
  began := le_refl _
  seen a := le_refl _
  same a h := rfl
  written m y hy hm := by
    have hlt : m < s.log.length := (List.getElem?_eq_some_iff.mp hy).1
    have hbegan : s.log.length ≤ m := hm
    omega

theorem Sound.work {x : Session P E} {s : State P E} (h : x.Sound s) : x.work.Sound s where
  exec := (exec_advance x.env x.rest x.tx).trans h.exec
  began := h.began
  seen := h.seen
  same := h.same
  written := h.written

end Session

namespace State
variable {s s' : State P E} {x y : Session P E} {result : P.Reply} {db : E.Db}

/-- The transaction of an unchanged session goes as it would go alone over the
store that it is committed on. -/
theorem serial_commit (h : x.Sound s) (returned : x.rest = .ret result) (unchanged : x.Unchanged s) :
    ∃ tx, Program.exec x.env (P.program x.job) (Tx.begin s.store) = (.ok result, tx) ∧
      Parallel x.snapshot s.store x.tx tx := by
  have hexec : Program.exec x.env (P.program x.job) (Tx.begin x.snapshot) = (.ok result, x.tx) := by
    rw [← h.exec, returned]
    rfl
  have hagree : Agree E x.snapshot s.store x.tx.keysRead x.tx.queries := by
    constructor
    · intro a ha
      exact (h.same a (unchanged.key a ha)).symm
    · intro q hq
      exact (select_eq_of_fingerprint (unchanged.query q hq) h.same).symm
  have hcongr := Program.exec_congr x.env (P.program x.job) (parallel_begin x.snapshot s.store)
  rw [hexec] at hcongr
  obtain ⟨hresult, hparallel⟩ := hcongr hagree
  refine ⟨(Program.exec x.env (P.program x.job) (Tx.begin s.store)).2, ?_, hparallel⟩
  exact Prod.ext hresult rfl

theorem sound_commit (h : x.Sound s) (returned : x.rest = .ret result) (unchanged : x.Unchanged s)
    (hy : y.Sound s) : y.Sound (s.commit x result) where
  exec := hy.exec
  began := by
    have hlength : (s.commit x result).log.length = s.log.length + 1 := by simp [commit]
    have hbegan := hy.began
    omega
  seen a := (hy.seen a).trans (le_bump _ _ _)
  same a ha := by
    have hseen := hy.seen a
    by_cases hmem : a ∈ x.tx.writes.map Write.address
    · have hbump : bump s.version x.tx.writes a = s.version a + 1 := if_pos hmem
      have hsame : bump s.version x.tx.writes a = y.seen a := ha
      omega
    · have hbump : bump s.version x.tx.writes a = s.version a := if_neg hmem
      have hother : E.get (E.applyWrites s.store x.tx.writes) a.1 a.2 = E.get s.store a.1 a.2 := by
        apply E.get_applyWrites_other
        intro w hw hwa
        have hwritten : w.address ∈ x.tx.writes.map Write.address := List.mem_map_of_mem hw
        rw [hwa] at hwritten
        exact hmem hwritten
      exact hother.trans (hy.same a (hbump.symm.trans ha))
  written m z hz hm w hw := by
    rcases getElem?_concat hz with hz | ⟨_, rfl⟩
    · exact (hy.written m z hz hm w hw).trans_le (le_bump _ _ _)
    · obtain ⟨tx, hserial, hparallel⟩ := serial_commit h returned unchanged
      have hwrites : (Committed.serial ⟨x.job, x.env, x.began, s.store, result⟩).2.writes =
          x.tx.writes := by
        rw [Committed.serial, hserial, hparallel.writes]
      rw [hwrites] at hw
      have hbump : bump s.version x.tx.writes w.address = s.version w.address + 1 := bump_of_mem hw
      have hseen := hy.seen w.address
      change y.seen w.address < bump s.version x.tx.writes w.address
      omega

/-- A commit that overlaps earlier ones depends on nothing of them. -/
theorem spares_commit (h : x.Sound s) (returned : x.rest = .ret result) (unchanged : x.Unchanged s)
    {m : ℕ} {z : Committed P E} (hz : s.log[m]? = some z) (hm : x.began ≤ m) :
    z.Spares ⟨x.job, x.env, x.began, s.store, result⟩ := by
  obtain ⟨tx, hserial, hparallel⟩ := serial_commit h returned unchanged
  have hlt : ∀ w ∈ z.serial.2.writes, x.seen w.address < s.version w.address := h.written m z hz hm
  constructor
  · intro w hw hkey
    rw [Committed.serial, hserial, hparallel.keysRead] at hkey
    exact (hlt w hw).ne' (unchanged.key _ hkey)
  · intro w hw q hq r hr heq
    rw [Committed.serial, hserial, hparallel.queries] at hq
    have hversion := version_eq_of_fingerprint (unchanged.query q hq) hr
    rw [← heq] at hversion
    exact (hlt w hw).ne' hversion

theorem apart_commit (happart : Apart s.log) (h : x.Sound s) (returned : x.rest = .ret result)
    (unchanged : x.Unchanged s) : Apart (s.commit x result).log := by
  intro m n z z' hmn hz hz' hbegan
  rcases getElem?_concat hz' with hz' | ⟨hn, rfl⟩
  · rcases getElem?_concat hz with hz | ⟨hm, rfl⟩
    · exact happart m n z z' hmn hz hz' hbegan
    · have hlt : n < s.log.length := (List.getElem?_eq_some_iff.mp hz').1
      omega
  · rcases getElem?_concat hz with hz | ⟨hm, rfl⟩
    · exact spares_commit h returned unchanged hz hbegan
    · omega

theorem Sound.setSession (h : s.Sound db) (i : ℕ) {o : Option (Session P E)}
    (ho : ∀ x, o = some x → x.Sound s) : (s.setSession i o).Sound db where
  session j y hy := by
    have hsound : y.Sound s := by
      by_cases hj : j = i
      · subst hj
        apply ho
        simpa [State.setSession] using hy
      · apply h.session j
        simpa [State.setSession, hj] using hy
    exact ⟨hsound.exec, hsound.began, hsound.seen, hsound.same, hsound.written⟩
  serial := h.serial
  apart := h.apart

theorem Sound.commit (h : s.Sound db) {i : ℕ} (session : s.session i = some x)
    (returned : x.rest = .ret result) (unchanged : x.Unchanged s) :
    (s.commit x result).Sound db where
  session j y hy := sound_commit (h.session i x session) returned unchanged (h.session j y hy)
  serial := by
    obtain ⟨tx, hserial, hparallel⟩ := serial_commit (h.session i x session) returned unchanged
    refine h.serial.snoc ⟨rfl, Program.atomic_ok.mpr ⟨tx, hserial, ?_⟩⟩
    exact hparallel.view'
  apart := apart_commit h.apart (h.session i x session) returned unchanged

theorem sound_empty (db : E.Db) : (empty db : State P E).Sound db where
  session i x h := by cases h
  serial := .nil
  apart m n z z' hmn hz := by cases hz

theorem Step.sound {m : Move P} (h : s.Sound db) (hstep : Step s m s') : s'.Sound db := by
  cases hstep with
  | begin job env free =>
    refine h.setSession _ fun x hx => ?_
    cases hx
    exact Session.sound_begin s job env
  | work session =>
    refine h.setSession _ fun x hx => ?_
    cases hx
    exact (h.session _ _ session).work
  | commit session returned unchanged =>
    refine (h.commit session returned unchanged).setSession _ fun x hx => ?_
    cases hx
  | retry env session =>
    refine h.setSession _ fun x hx => ?_
    cases hx
    exact Session.sound_begin s _ env
  | abandon session =>
    refine h.setSession _ fun x hx => ?_
    cases hx

/-- Whatever the order of their steps, the committed sessions are serial in
commit order, and sessions that overlap are apart. -/
theorem run_sound {ms : List (Move P)} (run : Systems.Run Step (empty db) ms s) : s.Sound db :=
  run.invariant (fun _ _ _ h hstep => hstep.sound h) (sound_empty db)

end State

section Serial
variable {db db' : E.Db} {log : List (Committed P E)} {x : Committed P E} {m : ℕ}

theorem Committed.Step.returns (h : x.Step db db') :
    Program.Returns x.env (P.program x.job) (Tx.begin x.before) x.result x.serial.2 := by
  obtain ⟨rfl, hatomic⟩ := h
  obtain ⟨tx, hret, -⟩ := Program.atomic_ok.mp hatomic
  have hserial : x.serial = (.ok x.result, tx) := hret
  rw [hserial]
  exact hret

/-- A commit of the log is a step from the store that it was committed on, and
the commits before it lead there. -/
theorem run_before (run : Systems.Run Committed.Step db log db') (hx : log[m]? = some x) :
    Systems.Run Committed.Step db (log.take m) x.before ∧ ∃ db₁, x.Step x.before db₁ := by
  obtain ⟨hlt, rfl⟩ := List.getElem?_eq_some_iff.mp hx
  have hsplit : log = log.take m ++ log[m] :: log.drop (m + 1) := by simp
  rw [hsplit] at run
  obtain ⟨db₀, hbefore, hafter⟩ := run.append_inv
  obtain ⟨db₁, hstep, -⟩ := hafter.cons_inv
  obtain rfl := hstep.1
  exact ⟨hbefore, db₁, hstep⟩

end Serial

theorem Committed.Spares.not_updates {x y : Committed P E} {a : σ.Address} (h : x.Spares y)
    (hx : x.serial.2.Updates a) : ¬ y.serial.2.Updates a := by
  intro hy
  obtain ⟨w, hw, rfl⟩ := hx.written
  exact h.key w hw hy.read

def Session.finish (x : Session P E) : Session P E :=
  { x with
    rest := Program.lift (Program.exec x.env x.rest x.tx).1
    tx := (Program.exec x.env x.rest x.tx).2 }

namespace State
variable {s : State P E} {i : ℕ} {x : Session P E}

theorem session_self (s : State P E) (i : ℕ) (o : Option (Session P E)) :
    (s.setSession i o).session i = o := Function.update_self ..

theorem session_of_ne (s : State P E) {i j : ℕ} (h : j ≠ i) (o : Option (Session P E)) :
    (s.setSession i o).session j = s.session j := Function.update_of_ne h _ _

theorem setSession_self (h : s.session i = some x) : s.setSession i (some x) = s := by
  rw [setSession, ← h, Function.update_eq_self]

theorem setSession_setSession (s : State P E) (i : ℕ) (o o' : Option (Session P E)) :
    (s.setSession i o).setSession i o' = s.setSession i o' := by
  simp only [setSession, Function.update_idem]

theorem run_finish (h : s.session i = some x) :
    ∃ ms, Systems.Run Step s ms (s.setSession i (some x.finish)) := by
  obtain ⟨job, env, began, snapshot, seen, rest, tx⟩ := x
  induction rest generalizing s tx with
  | ret a =>
    refine ⟨[], ?_⟩
    change Systems.Run Step s [] (s.setSession i (some ⟨job, env, began, snapshot, seen, .ret a, tx⟩))
    rw [setSession_self h]
    exact .nil
  | fail e =>
    refine ⟨[], ?_⟩
    change Systems.Run Step s [] (s.setSession i (some ⟨job, env, began, snapshot, seen, .fail e, tx⟩))
    rw [setSession_self h]
    exact .nil
  | get t k next ih =>
    obtain ⟨ms, run⟩ := ih _ _ (s := s.setSession i _) (Function.update_self ..)
    rw [setSession_setSession] at run
    exact ⟨_, run.cons (.work h)⟩
  | query t q next ih =>
    obtain ⟨ms, run⟩ := ih _ _ (s := s.setSession i _) (Function.update_self ..)
    rw [setSession_setSession] at run
    exact ⟨_, run.cons (.work h)⟩
  | put t r next ih =>
    obtain ⟨ms, run⟩ := ih _ (s := s.setSession i _) (Function.update_self ..)
    rw [setSession_setSession] at run
    exact ⟨_, run.cons (.work h)⟩
  | ask q next ih =>
    obtain ⟨ms, run⟩ := ih _ _ (s := s.setSession i _) (Function.update_self ..)
    rw [setSession_setSession] at run
    exact ⟨_, run.cons (.work h)⟩

theorem finish_begin {job : P.Job} {env : Env σ P.Question P.Answer} {result : P.Reply} {tx : Tx E}
    (h : Program.Returns env (P.program job) (Tx.begin s.store) result tx) :
    (Session.begin s job env).finish =
      { Session.begin s job env with rest := .ret result, tx := tx } := by
  have hexec : Program.exec env (P.program job) (Tx.begin s.store) = (.ok result, tx) := h
  simp only [Session.finish, Session.begin, hexec, Program.lift]

/-- A session that finds the store as it was at its begin commits. -/
theorem run_commit {job : P.Job} {env : Env σ P.Question P.Answer} {result : P.Reply} {db : E.Db}
    (h : s.session i = some (Session.begin s job env))
    (hatomic : Program.atomic env (P.program job) s.store = (.ok result, db)) :
    ∃ ms s', Systems.Run Step s ms s' ∧ s'.store = db ∧
      s'.session = Function.update s.session i none ∧
      s'.log = s.log ++ [⟨job, env, s.log.length, s.store, result⟩] := by
  obtain ⟨tx, hret, rfl⟩ := Program.atomic_ok.mp hatomic
  obtain ⟨ms, run⟩ := run_finish h
  rw [finish_begin hret] at run
  have hcommit := run.snoc (.commit (session_self ..) rfl ⟨fun _ _ => rfl, fun _ _ => rfl⟩)
  refine ⟨_, _, hcommit, ?_, ?_, rfl⟩
  · exact (Program.view_begin hret).symm
  · simp only [setSession, State.commit, Function.update_idem]

end State

def Selected (q : σ.Table × σ.Query) (t : σ.Table) (r : σ.Row t) : Prop :=
  t = q.1 ∧ σ.selects t q.2 r = true

/-- The write is of no key that the transaction read, and no query of it
selects the row or the one that it replaces. -/
structure Foreign (db : E.Db) (w : Write σ) (tx : Tx E) : Prop where
  key : w.address ∉ tx.keysRead
  row : ∀ q ∈ tx.queries, ¬ Selected q w.table w.row
  replaced : ∀ q ∈ tx.queries, ∀ r ∈ E.get db w.table (σ.key w.table w.row),
    ¬ Selected q w.table r

section Foreign
variable {db : E.Db} {version : σ.Address → ℕ} {ws : List (Write σ)} {tx : Tx E}
  {q : σ.Table × σ.Query}

theorem Foreign.address_ne {w : Write σ} (h : Foreign db w tx) (hq : q ∈ tx.queries)
    {r : σ.Row q.1} (hr : r ∈ E.select db q.1 q.2) : w.address ≠ ⟨q.1, σ.key q.1 r⟩ := by
  intro heq
  obtain ⟨hget, hselects⟩ := E.mem_select.mp hr
  have hreplaced := h.replaced q hq
  obtain ⟨t, row⟩ := w
  obtain ⟨ht, hkey⟩ := Sigma.mk.inj heq
  dsimp only at ht hkey hreplaced
  subst ht
  rw [eq_of_heq hkey] at hreplaced
  exact hreplaced r hget ⟨rfl, hselects⟩

theorem fingerprint_applyWrites (foreign : ∀ w ∈ ws, Foreign db w tx) (hq : q ∈ tx.queries) :
    fingerprint (E.applyWrites db ws) (bump version ws) q = fingerprint db version q := by
  have hother : ∀ r ∈ E.select db q.1 q.2,
      (⟨q.1, σ.key q.1 r⟩ : σ.Address) ∉ ws.map Write.address := by
    intro r hr hmem
    obtain ⟨w, hw, hwa⟩ := List.mem_map.mp hmem
    exact (foreign w hw).address_ne hq hr hwa
  have hselect : ∀ r, r ∈ E.select (E.applyWrites db ws) q.1 q.2 ↔ r ∈ E.select db q.1 q.2 := by
    intro r
    constructor
    · intro hr
      obtain ⟨hget, hselects⟩ := E.mem_select.mp hr
      rcases E.mem_of_get_applyWrites hget with hget | hmem
      · exact E.mem_select.mpr ⟨hget, hselects⟩
      · exact absurd ⟨rfl, hselects⟩ ((foreign _ hmem).row q hq)
    · intro hr
      obtain ⟨hget, hselects⟩ := E.mem_select.mp hr
      refine E.mem_select.mpr ⟨?_, hselects⟩
      rw [E.get_applyWrites_other fun w hw => (foreign w hw).address_ne hq hr, hget]
  ext p
  simp only [fingerprint, Set.mem_ofPred_eq]
  refine exists_congr fun r => ?_
  rw [hselect]
  refine and_congr_right fun hr => ?_
  rw [show bump version ws ⟨q.1, σ.key q.1 r⟩ = _ from if_neg (hother r hr)]

end Foreign

namespace State
variable {s : State P E} {x y : Session P E} {result : P.Reply}

/-- A commit of foreign writes does not stop a session. -/
theorem unchanged_commit (h : y.Unchanged s) (foreign : ∀ w ∈ x.tx.writes, Foreign s.store w y.tx) :
    y.Unchanged (s.commit x result) := by
  constructor
  · intro a ha
    have hother : a ∉ x.tx.writes.map Write.address := by
      intro hmem
      obtain ⟨w, hw, rfl⟩ := List.mem_map.mp hmem
      exact (foreign w hw).key ha
    exact (if_neg hother).trans (h.key a ha)
  · intro q hq
    rw [← h.query q hq]
    exact fingerprint_applyWrites foreign hq

/-- Two sessions over one snapshot commit one after the other if the writes of
the first are foreign to the second. -/
theorem run_overlap {i j : ℕ} {job job' : P.Job} {env env' : Env σ P.Question P.Answer}
    {result result' : P.Reply} {tx tx' : Tx E} (hij : i ≠ j) (free : s.session i = none)
    (free' : s.session j = none)
    (h : Program.Returns env (P.program job) (Tx.begin s.store) result tx)
    (h' : Program.Returns env' (P.program job') (Tx.begin s.store) result' tx')
    (foreign : ∀ w ∈ tx.writes, Foreign s.store w tx') :
    ∃ ms s', Systems.Run Step s ms s' ∧ s'.log = s.log ++
      [⟨job, env, s.log.length, s.store, result⟩,
        ⟨job', env', s.log.length, E.applyWrites s.store tx.writes, result'⟩] := by
  let x := Session.begin s job env
  let x' := Session.begin s job' env'
  let s₂ := (s.setSession i (some x)).setSession j (some x')
  have hbegin : Step s (.begin i job env) (s.setSession i (some x)) := .begin job env free
  have hbegin' : Step (s.setSession i (some x)) (.begin j job' env') s₂ :=
    .begin job' env' ((session_of_ne s hij.symm _).trans free')
  obtain ⟨ms, run⟩ := run_finish (s := s₂) (i := i) (x := x)
    ((session_of_ne _ hij _).trans (session_self s i _))
  rw [finish_begin h] at run
  obtain ⟨ms', run'⟩ := run_finish (s := s₂.setSession i (some { x with rest := .ret result, tx := tx }))
    (i := j) (x := x') ((session_of_ne _ hij.symm _).trans (session_self _ j _))
  rw [finish_begin h'] at run'
  have hrun := (run.cons hbegin').cons hbegin |>.append run'
  have hcommit := hrun.snoc (.commit ((session_of_ne _ hij _).trans (session_self ..)) rfl
    ⟨fun _ _ => rfl, fun _ _ => rfl⟩)
  have hcommit' := hcommit.snoc (.commit ((session_of_ne _ hij.symm _).trans (session_self ..)) rfl ?_)
  · refine ⟨_, _, hcommit', ?_⟩
    simp [setSession, State.commit, x, x', s₂, Session.begin]
  · have hunchanged : Session.Unchanged { x' with rest := .ret result', tx := tx' } s :=
      ⟨fun _ _ => rfl, fun _ _ => rfl⟩
    have hcommitted : Session.Unchanged { x' with rest := .ret result', tx := tx' }
        (s.commit { x with rest := .ret result, tx := tx } result) :=
      unchanged_commit hunchanged foreign
    exact ⟨hcommitted.key, hcommitted.query⟩

end State
end WorkflowEngine.Txn.Occ
