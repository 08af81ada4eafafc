import WorkflowEngine.Txn.Effects

/-!
# Programs that return

A program either returns or throws. What it takes to return is read off its
parts: the first returns, and then the rest does.
-/

namespace WorkflowEngine.Txn.Program

variable {σ : Schema} {Q : Type} {A : Q → Type} {ε α β : Type} {E : Engine σ} {env : Env σ Q A}
  {tx : Tx E}

def Succeeds (env : Env σ Q A) (p : Program σ Q A ε α) (tx : Tx E) : Prop :=
  ∃ a tx', Returns env p tx a tx'

theorem succeeds_bind {p : Program σ Q A ε α} {f : α → Program σ Q A ε β} :
    Succeeds env (p >>= f) tx ↔ ∃ a tx₁, Returns env p tx a tx₁ ∧ Succeeds env (f a) tx₁ := by
  simp only [Succeeds, returns_bind]
  constructor
  · intro h
    obtain ⟨b, tx', a, tx₁, hp, hf⟩ := h
    exact ⟨a, tx₁, hp, b, tx', hf⟩
  · intro h
    obtain ⟨a, tx₁, hp, b, tx', hf⟩ := h
    exact ⟨b, tx', a, tx₁, hp, hf⟩

theorem succeeds_iff_not_fails {p : Program σ Q A ε α} :
    Succeeds env p tx ↔ ¬ Fails env p tx := by
  constructor
  · intro h hf
    obtain ⟨a, tx', hr⟩ := h
    obtain ⟨e, tx'', ht⟩ := hf
    exact hr.not_throws ht
  · intro h
    rcases returns_or_throws env p tx with hr | ht
    · exact hr
    · exact absurd ht h

theorem Total.succeeds {p : Program σ Q A ε α} (h : Total p) : Succeeds env p tx :=
  h.returns env tx

/-- A last part that cannot fail asks for nothing more. -/
theorem succeeds_bind_total {p : Program σ Q A ε α} {f : α → Program σ Q A ε β}
    (hf : ∀ a, Total (f a)) : Succeeds env (p >>= f) tx ↔ Succeeds env p tx := by
  rw [succeeds_bind]
  constructor
  · intro h
    obtain ⟨a, tx₁, hp, -⟩ := h
    exact ⟨a, tx₁, hp⟩
  · intro h
    obtain ⟨a, tx₁, hp⟩ := h
    exact ⟨a, tx₁, hp, (hf a).succeeds⟩

theorem atomic_isOk {p : Program σ Q A ε α} {db : E.Db} :
    (∃ a, (atomic env p db).1 = .ok a) ↔ Succeeds env p (Tx.begin db) := by
  constructor
  · intro h
    obtain ⟨a, ha⟩ := h
    have hp : atomic env p db = (.ok a, (atomic env p db).2) := Prod.ext ha rfl
    obtain ⟨tx, hr, -⟩ := atomic_ok.mp hp
    exact ⟨a, tx, hr⟩
  · intro h
    obtain ⟨a, tx, hr⟩ := h
    exact ⟨a, congrArg Prod.fst (atomic_ok.mpr ⟨tx, hr, rfl⟩)⟩

end WorkflowEngine.Txn.Program
