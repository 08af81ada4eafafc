import WorkflowEngine.Txn.Effects

/-!
# What a program throws of its own accord

A run ends with an exception of the program's own if nothing that it was told
on the way is an exception. Which answers are exceptions is a parameter.
-/

namespace WorkflowEngine.Txn.Program

variable {σ : Schema} {Q : Type} {A : Q → Type} {ε α β : Type} {E : Engine σ}

/-- The exception that a run throws itself. -/
def refusal (raises : (q : Q) → A q → Bool) (env : Env σ Q A) : Program σ Q A ε α → Tx E → Option ε
  | .ret _, _ => none
  | .fail e, _ => some e
  | .get t k next, tx => refusal raises env (next (E.get tx.view t k)) (tx.noteKey t k)
  | .query t q next, tx =>
      refusal raises env (next (env.arrange t q (E.select tx.view t q))) (tx.noteQuery t q)
  | .put t r next, tx => refusal raises env next (tx.stage t r)
  | .ask q next, tx =>
      if raises q (env.answer tx.ticks q) then none
      else refusal raises env (next (env.answer tx.ticks q)) tx.tick

def Refuses (raises : (q : Q) → A q → Bool) (env : Env σ Q A) (p : Program σ Q A ε α) (tx : Tx E)
    (e : ε) : Prop :=
  refusal raises env p tx = some e

instance [DecidableEq ε] {raises : (q : Q) → A q → Bool} {env : Env σ Q A} {p : Program σ Q A ε α}
    {tx : Tx E} {e : ε} : Decidable (Refuses raises env p tx e) :=
  inferInstanceAs (Decidable (refusal raises env p tx = some e))

variable {raises : (q : Q) → A q → Bool} {env : Env σ Q A} {tx : Tx E} {e : ε}

theorem Refuses.throws {p : Program σ Q A ε α} (h : Refuses raises env p tx e) :
    ∃ tx', Throws env p tx e tx' := by
  unfold Refuses at h
  induction p generalizing tx with
  | ret a => cases h
  | fail e' =>
    obtain rfl := Option.some_inj.mp h
    exact ⟨tx, rfl⟩
  | get t k next ih => exact ih _ h
  | query t q next ih => exact ih _ h
  | put t r next ih => exact ih h
  | ask q next ih =>
    rw [refusal] at h
    split_ifs at h
    exact ih _ h

/-- A part refuses, or the parts before it have returned. -/
theorem refuses_bind {p : Program σ Q A ε α} {f : α → Program σ Q A ε β}
    (h : Refuses raises env (p >>= f) tx e) :
    Refuses raises env p tx e ∨ ∃ a tx', Returns env p tx a tx' ∧ Refuses raises env (f a) tx' e := by
  change Refuses raises env (bind p f) tx e at h
  unfold Refuses at h
  induction p generalizing tx with
  | ret a => exact .inr ⟨a, tx, rfl, h⟩
  | fail e' => exact .inl h
  | get t k next ih => exact ih _ h
  | query t q next ih => exact ih _ h
  | put t r next ih => exact ih h
  | ask q next ih =>
    rw [bind, refusal] at h
    split_ifs at h with hraises
    refine (ih _ h).imp ?_ id
    intro hq
    exact (if_neg hraises).trans hq

theorem Total.not_refuses {p : Program σ Q A ε α} (h : Total p) : ¬ Refuses raises env p tx e := by
  intro hr
  obtain ⟨tx', ht⟩ := hr.throws
  exact h.not_throws ht

/-- The first part cannot fail. -/
theorem Total.refuses_bind {p : Program σ Q A ε α} {f : α → Program σ Q A ε β} (hp : Total p)
    (h : Refuses raises env (p >>= f) tx e) :
    ∃ a tx', Returns env p tx a tx' ∧ Refuses raises env (f a) tx' e :=
  (Program.refuses_bind h).resolve_left hp.not_refuses

/-- What comes after the first part cannot fail. -/
theorem Refuses.head {p : Program σ Q A ε α} {f : α → Program σ Q A ε β}
    (h : Refuses raises env (p >>= f) tx e) (hf : ∀ a, Total (f a)) : Refuses raises env p tx e := by
  rcases Program.refuses_bind h with h | ⟨a, tx', -, h⟩
  · exact h
  · exact absurd h (hf a).not_refuses

theorem Refuses.throwIf {bad : Prop} [Decidable bad] {e' : ε}
    (h : Refuses raises env (throwIf bad e' : Program σ Q A ε Unit) tx e) : bad ∧ e = e' := by
  obtain ⟨tx', ht⟩ := h.throws
  obtain ⟨hbad, he, -⟩ := throws_throwIf.mp ht
  exact ⟨hbad, he⟩

theorem Refuses.orThrow {o : Option α} {e' : ε}
    (h : Refuses raises env (orThrow o e' : Program σ Q A ε α) tx e) : o = none ∧ e = e' := by
  obtain ⟨tx', ht⟩ := h.throws
  obtain ⟨ho, he, -⟩ := throws_orThrow.mp ht
  exact ⟨ho, he⟩

theorem Refuses.lift {x : Except ε α}
    (h : Refuses raises env (lift x : Program σ Q A ε α) tx e) : x = .error e := by
  obtain ⟨tx', ht⟩ := h.throws
  exact (throws_lift.mp ht).1

end WorkflowEngine.Txn.Program
