import WorkflowEngine.Txn.Program

/-!
# What an execution depends on

Over two stores that agree on the keys that a program reads and on the answers
to its queries, the program runs the same: it returns or fails alike and stages
the same writes.
-/

namespace WorkflowEngine.Txn

variable {σ : Schema} {Q : Type} {A : Q → Type} {ε α : Type} {E : Engine σ} {env : Env σ Q A}
  {db db' : E.Db} {tx tx' : Tx E}

/-- The stores have the same rows at the keys and the same answers to the queries. -/
structure Agree (E : Engine σ) (db db' : E.Db) (keys : List σ.Address)
    (queries : List (σ.Table × σ.Query)) : Prop where
  key : ∀ a ∈ keys, E.get db a.1 a.2 = E.get db' a.1 a.2
  query : ∀ q ∈ queries, E.select db q.1 q.2 = E.select db' q.1 q.2

theorem Agree.mono {keys keys' : List σ.Address} {queries queries' : List (σ.Table × σ.Query)}
    (h : Agree E db db' keys' queries') (hkeys : keys ⊆ keys') (hqueries : queries ⊆ queries') :
    Agree E db db' keys queries :=
  ⟨fun a ha => h.key a (hkeys ha), fun q hq => h.query q (hqueries hq)⟩

/-- Two transactions that have done the same so far, each over its own store. -/
structure Parallel (db db' : E.Db) (tx tx' : Tx E) : Prop where
  view : tx.view = E.applyWrites db tx.writes
  view' : tx'.view = E.applyWrites db' tx.writes
  writes : tx'.writes = tx.writes
  keysRead : tx'.keysRead = tx.keysRead
  queries : tx'.queries = tx.queries
  ticks : tx'.ticks = tx.ticks

theorem parallel_begin (db db' : E.Db) : Parallel db db' (Tx.begin db) (Tx.begin db') :=
  ⟨rfl, rfl, rfl, rfl, rfl, rfl⟩

namespace Parallel

theorem get_eq (h : Parallel db db' tx tx') {t : σ.Table} {k : String}
    (agree : Agree E db db' (tx.noteKey t k).keysRead (tx.noteKey t k).queries) :
    E.get tx'.view t k = E.get tx.view t k := by
  rw [h.view, h.view']
  refine (E.get_applyWrites_congr fun hother => ?_).symm
  refine agree.key ⟨t, k⟩ ?_
  have hnew : ¬ (⟨t, k⟩ : σ.Address) ∈ tx.writes.map Write.address := by
    intro hmem
    obtain ⟨w, hw, hwa⟩ := List.mem_map.mp hmem
    exact hother w hw hwa
  rw [Tx.noteKey, if_neg hnew]
  exact List.mem_cons_self

theorem select_eq (h : Parallel db db' tx tx') {t : σ.Table} {q : σ.Query}
    (agree : Agree E db db' (tx.noteQuery t q).keysRead (tx.noteQuery t q).queries) :
    E.select tx'.view t q = E.select tx.view t q := by
  rw [h.view, h.view']
  exact (E.select_applyWrites_congr (agree.query (t, q) List.mem_cons_self)).symm

theorem noteKey (h : Parallel db db' tx tx') (t : σ.Table) (k : String) :
    Parallel db db' (tx.noteKey t k) (tx'.noteKey t k) := by
  have hnoted : (⟨t, k⟩ : σ.Address) ∈ tx'.writes.map Write.address ↔
      (⟨t, k⟩ : σ.Address) ∈ tx.writes.map Write.address := by rw [h.writes]
  by_cases hmem : (⟨t, k⟩ : σ.Address) ∈ tx.writes.map Write.address
  · rw [Tx.noteKey, Tx.noteKey, if_pos hmem, if_pos (hnoted.mpr hmem)]
    exact h
  · rw [Tx.noteKey, Tx.noteKey, if_neg hmem, if_neg (fun hm => hmem (hnoted.mp hm))]
    exact ⟨h.view, h.view', h.writes, congrArg (List.cons (⟨t, k⟩ : σ.Address)) h.keysRead,
      h.queries, h.ticks⟩

theorem noteQuery (h : Parallel db db' tx tx') (t : σ.Table) (q : σ.Query) :
    Parallel db db' (tx.noteQuery t q) (tx'.noteQuery t q) :=
  ⟨h.view, h.view', h.writes, h.keysRead, congrArg (List.cons (t, q)) h.queries, h.ticks⟩

theorem stage (h : Parallel db db' tx tx') (t : σ.Table) (r : σ.Row t) :
    Parallel db db' (tx.stage t r) (tx'.stage t r) := by
  refine ⟨?_, ?_, congrArg (· ++ _) h.writes, h.keysRead, h.queries, h.ticks⟩
  · rw [Tx.stage_view, Tx.stage_writes, E.applyWrites_concat, h.view]
  · rw [Tx.stage_view, Tx.stage_writes, E.applyWrites_concat, h.view']

theorem tick (h : Parallel db db' tx tx') : Parallel db db' tx.tick tx'.tick :=
  ⟨h.view, h.view', h.writes, h.keysRead, h.queries, congrArg (· + 1) h.ticks⟩

end Parallel

namespace Program

theorem exec_reads (env : Env σ Q A) (p : Program σ Q A ε α) (tx : Tx E) :
    tx.keysRead ⊆ (exec env p tx).2.keysRead ∧ tx.queries ⊆ (exec env p tx).2.queries := by
  induction p generalizing tx with
  | ret a => exact ⟨List.Subset.refl _, List.Subset.refl _⟩
  | fail e => exact ⟨List.Subset.refl _, List.Subset.refl _⟩
  | get t k next ih =>
    obtain ⟨hkeys, hqueries⟩ := ih (E.get tx.view t k) (tx.noteKey t k)
    refine ⟨fun a ha => hkeys ?_, fun q hq => hqueries ?_⟩
    · unfold Tx.noteKey
      split_ifs
      · exact ha
      · exact List.mem_cons_of_mem _ ha
    · unfold Tx.noteKey
      split_ifs
      · exact hq
      · exact hq
  | query t q next ih =>
    obtain ⟨hkeys, hqueries⟩ := ih (env.arrange t q (E.select tx.view t q)) (tx.noteQuery t q)
    exact ⟨hkeys, fun q hq => hqueries (List.mem_cons_of_mem _ hq)⟩
  | put t r next ih => exact ih (tx.stage t r)
  | ask q next ih => exact ih (env.answer tx.ticks q) tx.tick

theorem Returns.keysRead {p : Program σ Q A ε α} {a : α} (hr : Returns env p tx a tx') :
    tx.keysRead ⊆ tx'.keysRead := by
  have hsubset := (exec_reads env p tx).1
  rwa [show exec env p tx = _ from hr] at hsubset

/-- The program runs the same over a store that agrees on what it read. -/
theorem exec_congr (env : Env σ Q A) (p : Program σ Q A ε α) (h : Parallel db db' tx tx')
    (agree : Agree E db db' (exec env p tx).2.keysRead (exec env p tx).2.queries) :
    (exec env p tx').1 = (exec env p tx).1 ∧
      Parallel db db' (exec env p tx).2 (exec env p tx').2 := by
  induction p generalizing tx tx' with
  | ret a => exact ⟨rfl, h⟩
  | fail e => exact ⟨rfl, h⟩
  | get t k next ih =>
    obtain ⟨hkeys, hqueries⟩ := exec_reads env (next (E.get tx.view t k)) (tx.noteKey t k)
    have hget := h.get_eq (agree.mono hkeys hqueries)
    rw [exec, exec, hget]
    exact ih _ (h.noteKey t k) agree
  | query t q next ih =>
    obtain ⟨hkeys, hqueries⟩ :=
      exec_reads env (next (env.arrange t q (E.select tx.view t q))) (tx.noteQuery t q)
    have hselect := h.select_eq (agree.mono hkeys hqueries)
    rw [exec, exec, hselect]
    exact ih _ (h.noteQuery t q) agree
  | put t r next ih => exact ih (h.stage t r) agree
  | ask q next ih =>
    rw [exec, exec, h.ticks]
    exact ih _ h.tick agree

end Program

namespace Tx

/-- The transaction has read the place from its snapshot and written it. -/
structure Updates (tx : Tx E) (a : σ.Address) : Prop where
  read : a ∈ tx.keysRead
  written : ∃ w ∈ tx.writes, w.address = a

/-- What the transaction has written it had read before. -/
def ReadsFirst (tx : Tx E) : Prop := ∀ w ∈ tx.writes, w.address ∈ tx.keysRead

theorem readsFirst_of_nil (h : tx.writes = []) : tx.ReadsFirst := by
  intro w hw
  rw [h] at hw
  cases hw

theorem ReadsFirst.mem_noteKey (h : tx.ReadsFirst) (t : σ.Table) (k : String) :
    ⟨t, k⟩ ∈ (tx.noteKey t k).keysRead := by
  unfold noteKey
  split_ifs with hmem
  · obtain ⟨w, hw, hwa⟩ := List.mem_map.mp hmem
    rw [← hwa]
    exact h w hw
  · exact List.mem_cons_self

theorem ReadsFirst.noteKey (h : tx.ReadsFirst) (t : σ.Table) (k : String) :
    (tx.noteKey t k).ReadsFirst := by
  intro w hw
  rw [noteKey_writes] at hw
  unfold Tx.noteKey
  split_ifs
  · exact h w hw
  · exact List.mem_cons_of_mem _ (h w hw)

theorem ReadsFirst.stage (h : tx.ReadsFirst) {t : σ.Table} {r : σ.Row t}
    (hread : ⟨t, σ.key t r⟩ ∈ tx.keysRead) : (tx.stage t r).ReadsFirst := by
  intro w hw
  rw [stage_writes] at hw
  rcases List.mem_append.mp hw with hw | hw
  · exact h w hw
  · rw [List.mem_singleton.mp hw]
    exact hread

theorem updates_stage {t : σ.Table} {r : σ.Row t} (hread : ⟨t, σ.key t r⟩ ∈ tx.keysRead) :
    (tx.stage t r).Updates ⟨t, σ.key t r⟩ :=
  ⟨hread, ⟨t, r⟩, List.mem_append_right _ (List.mem_singleton_self _), rfl⟩

theorem Updates.noteKey {a : σ.Address} (h : tx.Updates a) (t : σ.Table) (k : String) :
    (tx.noteKey t k).Updates a := by
  unfold Tx.noteKey
  split_ifs
  · exact h
  · exact ⟨List.mem_cons_of_mem _ h.read, h.written⟩

theorem Updates.tick {a : σ.Address} (h : tx.Updates a) : tx.tick.Updates a := ⟨h.read, h.written⟩

theorem Updates.stage {a : σ.Address} (h : tx.Updates a) (t : σ.Table) (r : σ.Row t) :
    (tx.stage t r).Updates a := by
  obtain ⟨w, hw, hwa⟩ := h.written
  exact ⟨h.read, w, List.mem_append_left _ hw, hwa⟩

end Tx
end WorkflowEngine.Txn
