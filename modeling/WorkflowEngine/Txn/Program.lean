import WorkflowEngine.Txn.Engine

/-!
# Transactional programs

A program reads and writes tables through one transaction, asks its
environment for values that no table holds (a clock reading, a random draw, a
callback's answer) and may fail. It has no other access to the store, so what
an execution depends on is what it read, what it queried and what it was told.

A transaction sees its own staged writes. `writes` lists them, oldest first;
`keysRead` and `queries` record what came from the snapshot below them.
-/

namespace WorkflowEngine.Txn

inductive Program (σ : Schema) (Q : Type) (A : Q → Type) (ε : Type) (α : Type) where
  | ret (a : α)
  | fail (e : ε)
  | get (t : σ.Table) (k : String) (next : Option (σ.Row t) → Program σ Q A ε α)
  | query (t : σ.Table) (q : σ.Query) (next : List (σ.Row t) → Program σ Q A ε α)
  | put (t : σ.Table) (r : σ.Row t) (next : Program σ Q A ε α)
  | ask (q : Q) (next : A q → Program σ Q A ε α)

/-- What one call is told: the answer to its n-th question, and the order in
which a query's rows arrive. -/
structure Env (σ : Schema) (Q : Type) (A : Q → Type) where
  answer : ℕ → (q : Q) → A q
  arrange : (t : σ.Table) → σ.Query → Multiset (σ.Row t) → List (σ.Row t)
  arrange_coe : ∀ t q m, (arrange t q m : Multiset (σ.Row t)) = m

structure Tx {σ : Schema} (E : Engine σ) where
  view : E.Db
  writes : List (Write σ)
  keysRead : List σ.Address
  queries : List (σ.Table × σ.Query)
  ticks : ℕ

namespace Tx
variable {σ : Schema} {E : Engine σ}

def begin (db : E.Db) : Tx E := ⟨db, [], [], [], 0⟩

def noteKey (tx : Tx E) (t : σ.Table) (k : String) : Tx E :=
  if ⟨t, k⟩ ∈ tx.writes.map Write.address then tx
  else { tx with keysRead := ⟨t, k⟩ :: tx.keysRead }

def noteQuery (tx : Tx E) (t : σ.Table) (q : σ.Query) : Tx E :=
  { tx with queries := (t, q) :: tx.queries }

def stage (tx : Tx E) (t : σ.Table) (r : σ.Row t) : Tx E :=
  { tx with view := E.put tx.view t r, writes := tx.writes ++ [⟨t, r⟩] }

def tick (tx : Tx E) : Tx E := { tx with ticks := tx.ticks + 1 }

@[simp] theorem begin_view (db : E.Db) : (begin db).view = db := rfl
@[simp] theorem begin_writes (db : E.Db) : (begin db).writes = [] := rfl
@[simp] theorem noteQuery_view (tx : Tx E) (t : σ.Table) (q : σ.Query) :
    (tx.noteQuery t q).view = tx.view := rfl
@[simp] theorem noteQuery_writes (tx : Tx E) (t : σ.Table) (q : σ.Query) :
    (tx.noteQuery t q).writes = tx.writes := rfl
@[simp] theorem noteQuery_ticks (tx : Tx E) (t : σ.Table) (q : σ.Query) :
    (tx.noteQuery t q).ticks = tx.ticks := rfl
@[simp] theorem stage_view (tx : Tx E) (t : σ.Table) (r : σ.Row t) :
    (tx.stage t r).view = E.put tx.view t r := rfl
@[simp] theorem stage_writes (tx : Tx E) (t : σ.Table) (r : σ.Row t) :
    (tx.stage t r).writes = tx.writes ++ [⟨t, r⟩] := rfl
@[simp] theorem stage_ticks (tx : Tx E) (t : σ.Table) (r : σ.Row t) :
    (tx.stage t r).ticks = tx.ticks := rfl
@[simp] theorem tick_view (tx : Tx E) : tx.tick.view = tx.view := rfl
@[simp] theorem tick_writes (tx : Tx E) : tx.tick.writes = tx.writes := rfl
@[simp] theorem tick_ticks (tx : Tx E) : tx.tick.ticks = tx.ticks + 1 := rfl

@[simp] theorem noteKey_view (tx : Tx E) (t : σ.Table) (k : String) :
    (tx.noteKey t k).view = tx.view := by
  unfold noteKey
  split_ifs <;> rfl

@[simp] theorem noteKey_writes (tx : Tx E) (t : σ.Table) (k : String) :
    (tx.noteKey t k).writes = tx.writes := by
  unfold noteKey
  split_ifs <;> rfl

@[simp] theorem noteKey_ticks (tx : Tx E) (t : σ.Table) (k : String) :
    (tx.noteKey t k).ticks = tx.ticks := by
  unfold noteKey
  split_ifs <;> rfl

end Tx

namespace Program
variable {σ : Schema} {Q : Type} {A : Q → Type} {ε α β : Type}

def bind : Program σ Q A ε α → (α → Program σ Q A ε β) → Program σ Q A ε β
  | .ret a, f => f a
  | .fail e, _ => .fail e
  | .get t k next, f => .get t k fun r => bind (next r) f
  | .query t q next, f => .query t q fun rs => bind (next rs) f
  | .put t r next, f => .put t r (bind next f)
  | .ask q next, f => .ask q fun a => bind (next a) f

def handle : Program σ Q A ε α → (ε → Program σ Q A ε α) → Program σ Q A ε α
  | .ret a, _ => .ret a
  | .fail e, f => f e
  | .get t k next, f => .get t k fun r => handle (next r) f
  | .query t q next, f => .query t q fun rs => handle (next rs) f
  | .put t r next, f => .put t r (handle next f)
  | .ask q next, f => .ask q fun a => handle (next a) f

instance : Monad (Program σ Q A ε) where
  pure := ret
  bind := bind

instance : MonadExcept ε (Program σ Q A ε) where
  throw := fail
  tryCatch := handle

def read (t : σ.Table) (k : String) : Program σ Q A ε (Option (σ.Row t)) := .get t k .ret
def find (t : σ.Table) (q : σ.Query) : Program σ Q A ε (List (σ.Row t)) := .query t q .ret
def store (t : σ.Table) (r : σ.Row t) : Program σ Q A ε Unit := .put t r (.ret ())
def demand (q : Q) : Program σ Q A ε (A q) := .ask q .ret

/-- A computation that needs no store. -/
def lift : Except ε α → Program σ Q A ε α
  | .ok a => .ret a
  | .error e => .fail e

def throwIf (bad : Prop) [Decidable bad] (e : ε) : Program σ Q A ε Unit :=
  if bad then throw e else pure ()

def orThrow : Option α → ε → Program σ Q A ε α
  | some a, _ => pure a
  | none, e => throw e

variable {E : Engine σ}

def exec (env : Env σ Q A) : Program σ Q A ε α → Tx E → Except ε α × Tx E
  | .ret a, tx => (.ok a, tx)
  | .fail e, tx => (.error e, tx)
  | .get t k next, tx => exec env (next (E.get tx.view t k)) (tx.noteKey t k)
  | .query t q next, tx =>
      exec env (next (env.arrange t q (E.select tx.view t q))) (tx.noteQuery t q)
  | .put t r next, tx => exec env next (tx.stage t r)
  | .ask q next, tx => exec env (next (env.answer tx.ticks q)) tx.tick

/-- One call as a transaction of its own: a failure leaves the store alone. -/
def atomic (env : Env σ Q A) (p : Program σ Q A ε α) (db : E.Db) : Except ε α × E.Db :=
  match exec env p (Tx.begin db) with
  | (.ok a, tx) => (.ok a, tx.view)
  | (.error e, _) => (.error e, db)

def Returns (env : Env σ Q A) (p : Program σ Q A ε α) (tx : Tx E) (a : α) (tx' : Tx E) : Prop :=
  exec env p tx = (.ok a, tx')

def Throws (env : Env σ Q A) (p : Program σ Q A ε α) (tx : Tx E) (e : ε) (tx' : Tx E) : Prop :=
  exec env p tx = (.error e, tx')

variable {env : Env σ Q A} {tx tx' : Tx E}

theorem exec_bind (p : Program σ Q A ε α) (f : α → Program σ Q A ε β) (tx : Tx E) :
    exec env (p >>= f) tx = match exec env p tx with
      | (.ok a, tx') => exec env (f a) tx'
      | (.error e, tx') => (.error e, tx') := by
  change exec env (bind p f) tx = _
  induction p generalizing tx with
  | ret a => rfl
  | fail e => rfl
  | get t k next ih => exact ih _ _
  | query t q next ih => exact ih _ _
  | put t r next ih => exact ih _
  | ask q next ih => exact ih _ _

theorem returns_bind {p : Program σ Q A ε α} {f : α → Program σ Q A ε β} {b : β} :
    Returns env (p >>= f) tx b tx' ↔
      ∃ a tx₁, Returns env p tx a tx₁ ∧ Returns env (f a) tx₁ b tx' := by
  unfold Returns
  rw [exec_bind]
  rcases exec env p tx with ⟨e | a, tx₁⟩
  · simp
  · simp

theorem exec_bind_of_returns {p : Program σ Q A ε α} {f : α → Program σ Q A ε β} {a : α}
    (h : Returns env p tx a tx') : exec env (p >>= f) tx = exec env (f a) tx' := by
  rw [exec_bind, show exec env p tx = _ from h]

theorem throws_bind {p : Program σ Q A ε α} {f : α → Program σ Q A ε β} {e : ε} :
    Throws env (p >>= f) tx e tx' ↔ Throws env p tx e tx' ∨
      ∃ a tx₁, Returns env p tx a tx₁ ∧ Throws env (f a) tx₁ e tx' := by
  unfold Throws Returns
  rw [exec_bind]
  rcases exec env p tx with ⟨e | a, tx₁⟩
  · simp
  · simp

@[simp] theorem returns_pure {a b : α} :
    Returns env (pure a : Program σ Q A ε α) tx b tx' ↔ b = a ∧ tx' = tx := by
  change (Except.ok a, tx) = (Except.ok b, tx') ↔ _
  simp [eq_comm]

@[simp] theorem returns_throw {e : ε} {b : α} :
    ¬ Returns env (throw e : Program σ Q A ε α) tx b tx' := by
  change ¬ (Except.error e, tx) = (Except.ok b, tx')
  simp

@[simp] theorem throws_pure {a : α} {e : ε} :
    ¬ Throws env (pure a : Program σ Q A ε α) tx e tx' := by
  change ¬ (Except.ok a, tx) = (Except.error e, tx')
  simp

@[simp] theorem throws_throw {e e' : ε} :
    Throws env (throw e : Program σ Q A ε α) tx e' tx' ↔ e' = e ∧ tx' = tx := by
  change (Except.error e, tx) = (Except.error e', tx') ↔ _
  simp [eq_comm]

@[simp] theorem returns_read {t : σ.Table} {k : String} {r : Option (σ.Row t)} :
    Returns env (read t k : Program σ Q A ε _) tx r tx' ↔
      r = E.get tx.view t k ∧ tx' = tx.noteKey t k := by
  change (Except.ok _, _) = (Except.ok r, tx') ↔ _
  simp [eq_comm]

@[simp] theorem throws_read {t : σ.Table} {k : String} {e : ε} :
    ¬ Throws env (read t k : Program σ Q A ε _) tx e tx' := by
  change ¬ (Except.ok _, _) = (Except.error e, tx')
  simp

@[simp] theorem returns_find {t : σ.Table} {q : σ.Query} {rs : List (σ.Row t)} :
    Returns env (find t q : Program σ Q A ε _) tx rs tx' ↔
      rs = env.arrange t q (E.select tx.view t q) ∧ tx' = tx.noteQuery t q := by
  change (Except.ok _, _) = (Except.ok rs, tx') ↔ _
  simp [eq_comm]

@[simp] theorem throws_find {t : σ.Table} {q : σ.Query} {e : ε} :
    ¬ Throws env (find t q : Program σ Q A ε _) tx e tx' := by
  change ¬ (Except.ok _, _) = (Except.error e, tx')
  simp

@[simp] theorem returns_store {t : σ.Table} {r : σ.Row t} {u : Unit} :
    Returns env (store t r : Program σ Q A ε _) tx u tx' ↔ tx' = tx.stage t r := by
  change (Except.ok (), _) = (Except.ok u, tx') ↔ _
  simp [eq_comm]

@[simp] theorem throws_store {t : σ.Table} {r : σ.Row t} {e : ε} :
    ¬ Throws env (store t r : Program σ Q A ε _) tx e tx' := by
  change ¬ (Except.ok (), _) = (Except.error e, tx')
  simp

@[simp] theorem returns_demand {q : Q} {a : A q} :
    Returns env (demand q : Program σ Q A ε _) tx a tx' ↔
      a = env.answer tx.ticks q ∧ tx' = tx.tick := by
  change (Except.ok _, _) = (Except.ok a, tx') ↔ _
  simp [eq_comm]

@[simp] theorem throws_demand {q : Q} {e : ε} :
    ¬ Throws env (demand q : Program σ Q A ε _) tx e tx' := by
  change ¬ (Except.ok _, _) = (Except.error e, tx')
  simp

@[simp] theorem returns_lift {x : Except ε α} {a : α} :
    Returns env (lift x : Program σ Q A ε α) tx a tx' ↔ x = .ok a ∧ tx' = tx := by
  cases x with
  | ok b => exact returns_pure.trans (by simp [eq_comm])
  | error e =>
    have h : ¬ Returns env (lift (.error e) : Program σ Q A ε α) tx a tx' := returns_throw
    simp [h]

@[simp] theorem throws_lift {x : Except ε α} {e : ε} :
    Throws env (lift x : Program σ Q A ε α) tx e tx' ↔ x = .error e ∧ tx' = tx := by
  cases x with
  | ok b =>
    have h : ¬ Throws env (lift (.ok b) : Program σ Q A ε α) tx e tx' := throws_pure
    simp [h]
  | error e' => exact throws_throw.trans (by simp [eq_comm])

@[simp] theorem returns_throwIf {bad : Prop} [Decidable bad] {e : ε} {u : Unit} :
    Returns env (throwIf bad e : Program σ Q A ε Unit) tx u tx' ↔ ¬ bad ∧ tx' = tx := by
  unfold throwIf
  split_ifs with h <;> simp [h]

@[simp] theorem throws_throwIf {bad : Prop} [Decidable bad] {e e' : ε} :
    Throws env (throwIf bad e : Program σ Q A ε Unit) tx e' tx' ↔ bad ∧ e' = e ∧ tx' = tx := by
  unfold throwIf
  split_ifs with h <;> simp [h]

@[simp] theorem returns_orThrow {o : Option α} {e : ε} {a : α} :
    Returns env (orThrow o e : Program σ Q A ε α) tx a tx' ↔ o = some a ∧ tx' = tx := by
  cases o <;> simp [orThrow, eq_comm]

@[simp] theorem throws_orThrow {o : Option α} {e e' : ε} :
    Throws env (orThrow o e : Program σ Q A ε α) tx e' tx' ↔ o = none ∧ e' = e ∧ tx' = tx := by
  cases o <;> simp [orThrow]

theorem returns_or_throws (env : Env σ Q A) (p : Program σ Q A ε α) (tx : Tx E) :
    (∃ a tx', Returns env p tx a tx') ∨ ∃ e tx', Throws env p tx e tx' := by
  unfold Returns Throws
  rcases exec env p tx with ⟨e | a, tx'⟩
  · exact .inr ⟨e, tx', rfl⟩
  · exact .inl ⟨a, tx', rfl⟩

theorem Returns.not_throws {p : Program σ Q A ε α} {a : α} {e : ε} {tx₁ tx₂ : Tx E}
    (h₁ : Returns env p tx a tx₁) : ¬ Throws env p tx e tx₂ := by
  intro h₂
  have h := h₁.symm.trans h₂
  simp at h

theorem atomic_ok {p : Program σ Q A ε α} {db db' : E.Db} {a : α} :
    atomic env p db = (.ok a, db') ↔ ∃ tx, Returns env p (Tx.begin db) a tx ∧ tx.view = db' := by
  unfold atomic Returns
  rcases exec env p (Tx.begin db) with ⟨e | b, tx⟩
  · simp
  · simp

@[simp] theorem lift_ok_bind {a : α} {f : α → Program σ Q A ε β} :
    ((lift (.ok a) : Program σ Q A ε α) >>= f) = f a := rfl

theorem throwIf_bind {bad : Prop} [Decidable bad] {e : ε} {f : Unit → Program σ Q A ε β} :
    (throwIf bad e >>= f) = if bad then throw e else f () := by
  unfold throwIf
  split_ifs with h
  · rfl
  · rfl

/-- What a call returns, seen through a function. -/
theorem atomic_bind_pure (p : Program σ Q A ε α) (f : α → β) (db : E.Db) :
    atomic env (p >>= fun a => pure (f a)) db =
      ((atomic env p db).1.map f, (atomic env p db).2) := by
  unfold atomic
  rw [exec_bind]
  rcases exec env p (Tx.begin db) with ⟨e | a, tx⟩
  · rfl
  · rfl

theorem atomic_error {p : Program σ Q A ε α} {db db' : E.Db} {e : ε} :
    atomic env p db = (.error e, db') ↔
      (∃ tx, Throws env p (Tx.begin db) e tx) ∧ db' = db := by
  unfold atomic Throws
  rcases exec env p (Tx.begin db) with ⟨e | b, tx⟩
  · simp [eq_comm]
  · simp

/-- Writes are only ever added, and the view is the snapshot with them on top. -/
theorem exec_writes (env : Env σ Q A) (p : Program σ Q A ε α) (tx : Tx E) :
    ∃ ws, (exec env p tx).2.writes = tx.writes ++ ws ∧
      (exec env p tx).2.view = E.applyWrites tx.view ws := by
  induction p generalizing tx with
  | ret a => exact ⟨[], by simp [exec], rfl⟩
  | fail e => exact ⟨[], by simp [exec], rfl⟩
  | get t k next ih =>
    obtain ⟨ws, hw, hv⟩ := ih (E.get tx.view t k) (tx.noteKey t k)
    rw [Tx.noteKey_writes] at hw
    rw [Tx.noteKey_view] at hv
    exact ⟨ws, hw, hv⟩
  | query t q next ih =>
    obtain ⟨ws, hw, hv⟩ := ih (env.arrange t q (E.select tx.view t q)) (tx.noteQuery t q)
    exact ⟨ws, hw, hv⟩
  | put t r next ih =>
    obtain ⟨ws, hw, hv⟩ := ih (tx.stage t r)
    exact ⟨⟨t, r⟩ :: ws, by simpa [exec] using hw, hv⟩
  | ask q next ih =>
    obtain ⟨ws, hw, hv⟩ := ih (env.answer tx.ticks q) tx.tick
    exact ⟨ws, hw, hv⟩

/-- What a failure leaves staged is all that a commit after it writes. -/
theorem view_of_writes {p : Program σ Q A ε α} {e : ε} (ht : Throws env p tx e tx')
    (hw : tx'.writes = tx.writes) : tx'.view = tx.view := by
  obtain ⟨ws, hws, hview⟩ := exec_writes env p tx
  rw [show exec env p tx = _ from ht] at hws hview
  have hnil : ws = [] := List.append_right_eq_self.mp (hws.symm.trans hw)
  rw [hview, hnil, E.applyWrites_nil]

theorem view_begin {p : Program σ Q A ε α} {db : E.Db} {a : α}
    (hr : Returns env p (Tx.begin db) a tx) : tx.view = E.applyWrites db tx.writes := by
  obtain ⟨ws, hws, hview⟩ := exec_writes env p (Tx.begin db)
  rw [show exec env p (Tx.begin db) = _ from hr] at hws hview
  rw [hview, show tx.writes = ws from hws]
  rfl

end Program

/-- The answers from the second question on. -/
def Env.later {σ : Schema} {Q : Type} {A : Q → Type} (env : Env σ Q A) : Env σ Q A :=
  { env with answer := fun n q => env.answer (n + 1) q }

/-- A run after one more question is a run on the answers from there on. -/
theorem Program.exec_tick {σ : Schema} {Q : Type} {A : Q → Type} {ε α : Type} {E : Engine σ}
    (env : Env σ Q A) (p : Program σ Q A ε α) (tx : Tx E) :
    exec env p tx.tick = ((exec env.later p tx).1, (exec env.later p tx).2.tick) := by
  induction p generalizing tx with
  | ret a => rfl
  | fail e => rfl
  | get t k next ih =>
    have hnote : tx.tick.noteKey t k = (tx.noteKey t k).tick := by
      by_cases h : ⟨t, k⟩ ∈ tx.writes.map Write.address
      · rw [Tx.noteKey, Tx.noteKey, if_pos h, if_pos (show _ ∈ tx.tick.writes.map _ from h)]
      · rw [Tx.noteKey, Tx.noteKey, if_neg h, if_neg (show _ ∉ tx.tick.writes.map _ from h)]
        rfl
    rw [exec, exec, hnote]
    exact ih _ _
  | query t q next ih => exact ih _ (tx.noteQuery t q)
  | put t r next ih => exact ih (tx.stage t r)
  | ask q next ih => exact ih _ tx.tick

end WorkflowEngine.Txn
