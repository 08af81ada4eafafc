import WorkflowEngine.Txn.Program

/-!
# Programs that do not write, and programs that do not fail

Both are conditions on the shape of a program, for whatever it reads and is
told. A program that does both may fail after it has written: its failure then
strands the writes in the transaction. Checks first and writes last is the
pattern that avoids it.
-/

namespace WorkflowEngine.Txn.Program

variable {σ : Schema} {Q : Type} {A : Q → Type} {ε α β : Type}

def ReadOnly : Program σ Q A ε α → Prop
  | .ret _ => True
  | .fail _ => True
  | .get _ _ next => ∀ r, ReadOnly (next r)
  | .query _ _ next => ∀ rs, ReadOnly (next rs)
  | .put _ _ _ => False
  | .ask _ next => ∀ a, ReadOnly (next a)

def Total : Program σ Q A ε α → Prop
  | .ret _ => True
  | .fail _ => False
  | .get _ _ next => ∀ r, Total (next r)
  | .query _ _ next => ∀ rs, Total (next rs)
  | .put _ _ next => Total next
  | .ask _ next => ∀ a, Total (next a)

variable {E : Engine σ} {env : Env σ Q A} {tx tx' : Tx E}

def Fails (env : Env σ Q A) (p : Program σ Q A ε α) (tx : Tx E) : Prop :=
  ∃ e tx', Throws env p tx e tx'

/-- The program fails and leaves writes behind. -/
def Strands (env : Env σ Q A) (p : Program σ Q A ε α) (tx : Tx E) : Prop :=
  ∃ e tx', Throws env p tx e tx' ∧ tx'.writes ≠ tx.writes

theorem ReadOnly.unchanged {p : Program σ Q A ε α} (h : ReadOnly p) (env : Env σ Q A)
    (tx : Tx E) :
    (exec env p tx).2.view = tx.view ∧ (exec env p tx).2.writes = tx.writes := by
  induction p generalizing tx with
  | ret a => exact ⟨rfl, rfl⟩
  | fail e => exact ⟨rfl, rfl⟩
  | get t k next ih =>
    obtain ⟨hv, hw⟩ := ih _ (h (E.get tx.view t k)) (tx.noteKey t k)
    exact ⟨hv.trans (tx.noteKey_view t k), hw.trans (tx.noteKey_writes t k)⟩
  | query t q next ih => exact ih _ (h _) (tx.noteQuery t q)
  | put t r next => exact h.elim
  | ask q next ih => exact ih _ (h _) tx.tick

theorem ReadOnly.view {p : Program σ Q A ε α} {a : α} (h : ReadOnly p)
    (hr : Returns env p tx a tx') : tx'.view = tx.view := by
  have he := (h.unchanged env tx).1
  rwa [show Program.exec env p tx = _ from hr] at he

theorem ReadOnly.writes {p : Program σ Q A ε α} {a : α} (h : ReadOnly p)
    (hr : Returns env p tx a tx') : tx'.writes = tx.writes := by
  have he := (h.unchanged env tx).2
  rwa [show Program.exec env p tx = _ from hr] at he

theorem ReadOnly.writes_of_throws {p : Program σ Q A ε α} {e : ε} (h : ReadOnly p)
    (ht : Throws env p tx e tx') : tx'.writes = tx.writes := by
  have he := (h.unchanged env tx).2
  rwa [show Program.exec env p tx = _ from ht] at he

theorem Total.not_throws {p : Program σ Q A ε α} {e : ε} (h : Total p) :
    ¬ Throws env p tx e tx' := by
  unfold Throws
  induction p generalizing tx with
  | ret a => simp [Program.exec]
  | fail e => exact h.elim
  | get t k next ih => exact ih _ (h _)
  | query t q next ih => exact ih _ (h _)
  | put t r next ih => exact ih h
  | ask q next ih => exact ih _ (h _)

theorem Total.returns {p : Program σ Q A ε α} (h : Total p) (env : Env σ Q A) (tx : Tx E) :
    ∃ a tx', Returns env p tx a tx' := by
  rcases returns_or_throws env p tx with hr | ⟨e, tx', ht⟩
  · exact hr
  · exact absurd ht h.not_throws

theorem Total.throws_bind {p : Program σ Q A ε α} {f : α → Program σ Q A ε β} {e : ε} (h : Total p)
    (ht : Throws env (p >>= f) tx e tx') :
    ∃ a tx₁, Returns env p tx a tx₁ ∧ Throws env (f a) tx₁ e tx' :=
  (Program.throws_bind.mp ht).resolve_left h.not_throws

/-- What comes after cannot throw. -/
theorem Throws.head {p : Program σ Q A ε α} {f : α → Program σ Q A ε β} {e : ε}
    (h : Throws env (p >>= f) tx e tx') (hf : ∀ a, Total (f a)) : Throws env p tx e tx' := by
  rcases throws_bind.mp h with h | ⟨a, tx₁, -, h⟩
  · exact h
  · exact absurd h (hf a).not_throws

theorem ReadOnly.bind {p : Program σ Q A ε α} {f : α → Program σ Q A ε β} (h : ReadOnly p)
    (hf : ∀ a, ReadOnly (f a)) : ReadOnly (p >>= f) := by
  change ReadOnly (Program.bind p f)
  induction p with
  | ret a => exact hf a
  | fail e => exact trivial
  | get t k next ih => exact fun r => ih r (h r)
  | query t q next ih => exact fun rs => ih rs (h rs)
  | put t r next => exact h.elim
  | ask q next ih => exact fun a => ih a (h a)

theorem Total.bind {p : Program σ Q A ε α} {f : α → Program σ Q A ε β} (h : Total p)
    (hf : ∀ a, Total (f a)) : Total (p >>= f) := by
  change Total (Program.bind p f)
  induction p with
  | ret a => exact hf a
  | fail e => exact h.elim
  | get t k next ih => exact fun r => ih r (h r)
  | query t q next ih => exact fun rs => ih rs (h rs)
  | put t r next ih => exact ih h
  | ask q next ih => exact fun a => ih a (h a)

@[simp] theorem readOnly_pure (a : α) : ReadOnly (pure a : Program σ Q A ε α) := trivial
@[simp] theorem readOnly_throw (e : ε) : ReadOnly (throw e : Program σ Q A ε α) := trivial
@[simp] theorem readOnly_read (t : σ.Table) (k : String) :
    ReadOnly (read t k : Program σ Q A ε _) := fun _ => trivial
@[simp] theorem readOnly_find (t : σ.Table) (q : σ.Query) :
    ReadOnly (find t q : Program σ Q A ε _) := fun _ => trivial
@[simp] theorem readOnly_demand (q : Q) : ReadOnly (demand q : Program σ Q A ε _) := fun _ => trivial
@[simp] theorem readOnly_lift (x : Except ε α) : ReadOnly (lift x : Program σ Q A ε α) := by
  cases x <;> trivial
@[simp] theorem readOnly_throwIf (bad : Prop) [Decidable bad] (e : ε) :
    ReadOnly (throwIf bad e : Program σ Q A ε Unit) := by
  unfold throwIf
  split_ifs <;> trivial
@[simp] theorem readOnly_orThrow (o : Option α) (e : ε) :
    ReadOnly (orThrow o e : Program σ Q A ε α) := by
  cases o <;> trivial

@[simp] theorem total_pure (a : α) : Total (pure a : Program σ Q A ε α) := trivial
@[simp] theorem total_read (t : σ.Table) (k : String) :
    Total (read t k : Program σ Q A ε _) := fun _ => trivial
@[simp] theorem total_find (t : σ.Table) (q : σ.Query) :
    Total (find t q : Program σ Q A ε _) := fun _ => trivial
@[simp] theorem total_store (t : σ.Table) (r : σ.Row t) :
    Total (store t r : Program σ Q A ε _) := trivial
@[simp] theorem total_demand (q : Q) : Total (demand q : Program σ Q A ε _) := fun _ => trivial

@[simp] theorem fails_throw (e : ε) : Fails env (throw e : Program σ Q A ε α) tx :=
  ⟨e, tx, throws_throw.mpr ⟨rfl, rfl⟩⟩

@[simp] theorem fails_throwIf {bad : Prop} [Decidable bad] {e : ε} :
    Fails env (throwIf bad e : Program σ Q A ε Unit) tx ↔ bad := by
  simp only [Fails, throws_throwIf]
  constructor
  · intro h
    obtain ⟨_, _, h, -⟩ := h
    exact h
  · exact fun h => ⟨e, tx, h, rfl, rfl⟩

@[simp] theorem fails_orThrow {o : Option α} {e : ε} :
    Fails env (orThrow o e : Program σ Q A ε α) tx ↔ o = none := by
  simp only [Fails, throws_orThrow]
  constructor
  · intro h
    obtain ⟨_, _, h, -⟩ := h
    exact h
  · exact fun h => ⟨e, tx, h, rfl, rfl⟩

@[simp] theorem fails_lift {x : Except ε α} :
    Fails env (lift x : Program σ Q A ε α) tx ↔ ∃ e, x = .error e := by
  simp only [Fails, throws_lift]
  constructor
  · intro h
    obtain ⟨e, _, h, -⟩ := h
    exact ⟨e, h⟩
  · intro h
    obtain ⟨e, h⟩ := h
    exact ⟨e, tx, h, rfl⟩

theorem Total.not_fails {p : Program σ Q A ε α} (h : Total p) : ¬ Fails env p tx :=
  fun ⟨_, _, ht⟩ => h.not_throws ht

theorem Total.not_strands {p : Program σ Q A ε α} (h : Total p) : ¬ Strands env p tx :=
  fun ⟨_, _, ht, _⟩ => h.not_throws ht

theorem fails_bind {p : Program σ Q A ε α} {f : α → Program σ Q A ε β} :
    Fails env (p >>= f) tx ↔
      Fails env p tx ∨ ∃ a tx₁, Returns env p tx a tx₁ ∧ Fails env (f a) tx₁ := by
  simp only [Fails, throws_bind]
  constructor
  · intro h
    obtain ⟨e, tx', hp | ⟨a, tx₁, hr, hf⟩⟩ := h
    · exact .inl ⟨e, tx', hp⟩
    · exact .inr ⟨a, tx₁, hr, e, tx', hf⟩
  · intro h
    obtain (⟨e, tx', hp⟩ | ⟨a, tx₁, hr, e, tx', hf⟩) := h
    · exact ⟨e, tx', .inl hp⟩
    · exact ⟨e, tx', .inr ⟨a, tx₁, hr, hf⟩⟩

/-- Checks leave nothing behind. -/
theorem strands_bind {p : Program σ Q A ε α} {f : α → Program σ Q A ε β} (h : ReadOnly p) :
    Strands env (p >>= f) tx ↔ ∃ a tx₁, Returns env p tx a tx₁ ∧ Strands env (f a) tx₁ := by
  simp only [Strands, throws_bind]
  constructor
  · intro h
    obtain ⟨e, tx', hp | ⟨a, tx₁, hr, hf⟩, hw⟩ := h
    · exact absurd (h.writes_of_throws hp) hw
    · exact ⟨a, tx₁, hr, e, tx', hf, h.writes hr ▸ hw⟩
  · intro h
    obtain ⟨a, tx₁, hr, e, tx', hf, hw⟩ := h
    exact ⟨e, tx', .inr ⟨a, tx₁, hr, hf⟩, h.writes hr ▸ hw⟩

theorem ReadOnly.not_strands_bind {p : Program σ Q A ε α} {f : α → Program σ Q A ε β}
    (h : ReadOnly p) (hf : ∀ a (tx₁ : Tx E), ¬ Strands env (f a) tx₁) :
    ¬ Strands env (p >>= f) tx := by
  rw [strands_bind h]
  intro h
  obtain ⟨a, tx₁, -, hs⟩ := h
  exact hf a tx₁ hs

theorem strands_bind_total {p : Program σ Q A ε α} {f : α → Program σ Q A ε β}
    (h : ∀ a, Total (f a)) : Strands env (p >>= f) tx ↔ Strands env p tx := by
  simp only [Strands, throws_bind]
  constructor
  · intro h
    obtain ⟨e, tx', hp | ⟨a, tx₁, -, hf⟩, hw⟩ := h
    · exact ⟨e, tx', hp, hw⟩
    · exact absurd hf (h a).not_throws
  · intro h
    obtain ⟨e, tx', hp, hw⟩ := h
    exact ⟨e, tx', .inl hp, hw⟩

section GoesOn
variable {p q : Program σ Q A ε α} {tx₁ : Tx E}

theorem fails_of_exec_error {e : ε} (h : exec env p tx = (.error e, tx₁)) : Fails env p tx :=
  ⟨e, tx₁, h⟩

theorem not_strands_of_exec_error {e : ε} (h : exec env p tx = (.error e, tx₁))
    (hw : tx₁.writes = tx.writes) : ¬ Strands env p tx := by
  intro h
  obtain ⟨e', tx', ht, hne⟩ := h
  have hsame := ht.symm.trans h
  rw [Prod.mk.injEq] at hsame
  exact hne (hsame.2 ▸ hw)

theorem fails_congr (h : exec env p tx = exec env q tx₁) :
    Fails env p tx ↔ Fails env q tx₁ := by
  simp only [Fails, Throws, h]

theorem strands_congr (h : exec env p tx = exec env q tx₁)
    (hw : tx₁.writes = tx.writes) : Strands env p tx ↔ Strands env q tx₁ := by
  simp only [Strands, Throws, h, hw]

theorem strands_after_write (h : exec env p tx = exec env q tx₁)
    (hw : tx.writes.length < tx₁.writes.length) : Strands env p tx ↔ Fails env q tx₁ := by
  simp only [Strands, Fails, Throws, h]
  constructor
  · intro h
    obtain ⟨e, tx', ht, -⟩ := h
    exact ⟨e, tx', ht⟩
  · intro h
    obtain ⟨e, tx', ht⟩ := h
    refine ⟨e, tx', ht, fun hsame => ?_⟩
    obtain ⟨ws, hws, -⟩ := exec_writes env q tx₁
    rw [ht, hsame] at hws
    have hlength := congrArg List.length hws
    rw [List.length_append] at hlength
    omega

/-- After a write every failure leaves it behind. -/
theorem strands_store_bind {t : σ.Table} {r : σ.Row t} {f : Unit → Program σ Q A ε β} :
    Strands env (store t r >>= f) tx ↔ Fails env (f ()) (tx.stage t r) :=
  strands_after_write rfl (by simp)

end GoesOn

end WorkflowEngine.Txn.Program
