import WorkflowEngine.Txn.Effects

/-!
# Row contracts

A contract says what rows each table may hold and what the environment may
answer. A program keeps it if it writes only such rows whenever it reads only
such rows and is told only such answers; `Keeps` is computed along the program,
with a condition on what it returns, so that the parts of a program are treated
one by one.
-/

namespace WorkflowEngine.Txn

structure Contract (σ : Schema) (Q : Type) (A : Q → Type) where
  row : (t : σ.Table) → σ.Row t → Prop
  answer : (q : Q) → A q → Prop

namespace Contract
variable {σ : Schema} {Q : Type} {A : Q → Type} {E : Engine σ} {db : E.Db} {C : Contract σ Q A}

def Holds (C : Contract σ Q A) (db : E.Db) : Prop :=
  ∀ t k r, E.get db t k = some r → C.row t r

def Answers (C : Contract σ Q A) (env : Env σ Q A) : Prop :=
  ∀ n q, C.answer q (env.answer n q)

theorem holds_empty (C : Contract σ Q A) : C.Holds E.empty := by
  intro t k r h
  rw [E.get_empty] at h
  cases h

theorem Holds.put (h : C.Holds db) {t : σ.Table} {r : σ.Row t} (hr : C.row t r) :
    C.Holds (E.put db t r) := by
  intro t' k r' hget
  by_cases hk : (⟨t', k⟩ : σ.Address) = ⟨t, σ.key t r⟩
  · cases hk
    rw [E.get_put_self] at hget
    exact Option.some_inj.mp hget ▸ hr
  · rw [E.get_put_other _ _ _ _ _ hk] at hget
    exact h t' k r' hget

end Contract

namespace Program
variable {σ : Schema} {Q : Type} {A : Q → Type} {ε α β : Type} {C : Contract σ Q A}

def Keeps (C : Contract σ Q A) (post : α → Prop) : Program σ Q A ε α → Prop
  | .ret a => post a
  | .fail _ => True
  | .get t _ next => ∀ r : Option (σ.Row t), (∀ x ∈ r, C.row t x) → Keeps C post (next r)
  | .query t _ next => ∀ rs : List (σ.Row t), (∀ x ∈ rs, C.row t x) → Keeps C post (next rs)
  | .put t r next => C.row t r ∧ Keeps C post next
  | .ask q next => ∀ a, C.answer q a → Keeps C post (next a)

theorem Keeps.bind {p : Program σ Q A ε α} {f : α → Program σ Q A ε β} {post : α → Prop}
    {post' : β → Prop} (h : Keeps C post p) (hf : ∀ a, post a → Keeps C post' (f a)) :
    Keeps C post' (p >>= f) := by
  change Keeps C post' (Program.bind p f)
  induction p with
  | ret a => exact hf a h
  | fail e => trivial
  | get t k next ih => exact fun r hr => ih r (h r hr)
  | query t q next ih => exact fun rs hrs => ih rs (h rs hrs)
  | put t r next ih => exact ⟨h.1, ih h.2⟩
  | ask q next ih => exact fun a ha => ih a (h a ha)

theorem Keeps.imp {p : Program σ Q A ε α} {post post' : α → Prop} (h : Keeps C post p)
    (himp : ∀ a, post a → post' a) : Keeps C post' p := by
  induction p with
  | ret a => exact himp a h
  | fail e => trivial
  | get t k next ih => exact fun r hr => ih r (h r hr)
  | query t q next ih => exact fun rs hrs => ih rs (h rs hrs)
  | put t r next ih => exact ⟨h.1, ih h.2⟩
  | ask q next ih => exact fun a ha => ih a (h a ha)

theorem ReadOnly.keeps {p : Program σ Q A ε α} (h : ReadOnly p) : Keeps C (fun _ => True) p := by
  induction p with
  | ret a => trivial
  | fail e => trivial
  | get t k next ih => exact fun r _ => ih r (h r)
  | query t q next ih => exact fun rs _ => ih rs (h rs)
  | put t r next => exact h.elim
  | ask q next ih => exact fun a _ => ih a (h a)

theorem keeps_pure {post : α → Prop} {a : α} (h : post a) :
    Keeps C post (pure a : Program σ Q A ε α) := h

theorem keeps_read (t : σ.Table) (k : String) :
    Keeps C (fun r => ∀ x ∈ r, C.row t x) (read t k : Program σ Q A ε _) := fun _ hr => hr

theorem keeps_find (t : σ.Table) (q : σ.Query) :
    Keeps C (fun rs => ∀ x ∈ rs, C.row t x) (find t q : Program σ Q A ε _) := fun _ hrs => hrs

theorem keeps_store {t : σ.Table} {r : σ.Row t} (h : C.row t r) :
    Keeps C (fun _ => True) (store t r : Program σ Q A ε _) := ⟨h, trivial⟩

theorem keeps_demand (q : Q) : Keeps C (C.answer q) (demand q : Program σ Q A ε _) :=
  fun _ ha => ha

theorem keeps_lift (x : Except ε α) :
    Keeps C (fun a => x = .ok a) (lift x : Program σ Q A ε α) := by
  cases x with
  | ok a => exact rfl
  | error e => trivial

theorem keeps_throwIf (bad : Prop) [Decidable bad] (e : ε) :
    Keeps C (fun _ => ¬ bad) (throwIf bad e : Program σ Q A ε Unit) := by
  unfold throwIf
  split_ifs with h
  · trivial
  · exact h

theorem keeps_orThrow (o : Option α) (e : ε) :
    Keeps C (fun a => o = some a) (orThrow o e : Program σ Q A ε α) := by
  cases o with
  | none => trivial
  | some a => exact rfl

variable {E : Engine σ} {env : Env σ Q A} {db : E.Db}

theorem Keeps.exec {p : Program σ Q A ε α} {post : α → Prop} (h : Keeps C post p)
    (hanswers : C.Answers env) {tx : Tx E} (hrows : C.Holds tx.view) :
    C.Holds (Program.exec env p tx).2.view := by
  induction p generalizing tx with
  | ret a => exact hrows
  | fail e => exact hrows
  | get t k next ih =>
    refine ih _ (h _ fun r hr => hrows t k r hr) ?_
    rwa [Tx.noteKey_view]
  | query t q next ih =>
    refine ih _ (h _ fun r hr => ?_) hrows
    rw [← Multiset.mem_coe, env.arrange_coe] at hr
    exact hrows t _ r (E.mem_select.mp hr).1
  | put t r next ih => exact ih h.2 (hrows.put h.1)
  | ask q next ih => exact ih _ (h _ (hanswers tx.ticks q)) hrows

theorem Keeps.atomic {p : Program σ Q A ε α} {post : α → Prop} (h : Keeps C post p)
    (hanswers : C.Answers env) (hrows : C.Holds db) :
    C.Holds (Program.atomic env p db).2 := by
  have hexec : C.Holds (Program.exec env p (Tx.begin db)).2.view := h.exec hanswers hrows
  unfold Program.atomic
  generalize Program.exec env p (Tx.begin db) = result at hexec ⊢
  obtain ⟨e | a, tx⟩ := result
  · exact hrows
  · exact hexec

end Program
end WorkflowEngine.Txn
