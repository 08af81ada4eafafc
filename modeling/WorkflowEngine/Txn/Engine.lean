import Mathlib

/-!
# Tables of keyed rows

A schema names its tables, the rows of each and the key a row is stored under.
An engine is any store for such tables: what a caller may rely on is listed as
the laws of `Engine`, and nothing below looks inside one. A query selects rows
by their content and returns them in no promised order, so its answer is a
multiset here. `Engine.finmap` shows that the laws have a model.
-/

namespace WorkflowEngine.Txn

structure Schema where
  Table : Type
  Row : Table → Type
  key : (t : Table) → Row t → String
  Query : Type
  selects : (t : Table) → Query → Row t → Bool
  [decTable : DecidableEq Table]

attribute [instance] Schema.decTable

abbrev Schema.Address (σ : Schema) := (_ : σ.Table) × String

instance Schema.lawfulBEqAddress (σ : Schema) : LawfulBEq σ.Address := inferInstance

structure Engine (σ : Schema) where
  Db : Type
  empty : Db
  get : Db → (t : σ.Table) → String → Option (σ.Row t)
  put : Db → (t : σ.Table) → σ.Row t → Db
  rows : Db → (t : σ.Table) → Multiset (σ.Row t)
  get_empty : ∀ t k, get empty t k = none
  key_of_get : ∀ db t k r, get db t k = some r → σ.key t r = k
  get_put_self : ∀ db t r, get (put db t r) t (σ.key t r) = some r
  get_put_other : ∀ db t r t' k, (⟨t', k⟩ : σ.Address) ≠ ⟨t, σ.key t r⟩ →
    get (put db t r) t' k = get db t' k
  mem_rows : ∀ db t r, r ∈ rows db t ↔ get db t (σ.key t r) = some r
  nodup_rows : ∀ db t, (rows db t).Nodup

structure Write (σ : Schema) where
  table : σ.Table
  row : σ.Row table

def Write.address {σ : Schema} (w : Write σ) : σ.Address := ⟨w.table, σ.key w.table w.row⟩

namespace Engine
variable {σ : Schema} (E : Engine σ)

def select (db : E.Db) (t : σ.Table) (q : σ.Query) : Multiset (σ.Row t) :=
  (E.rows db t).filter (fun r => σ.selects t q r = true)

def applyWrites (db : E.Db) (ws : List (Write σ)) : E.Db :=
  ws.foldl (fun db w => E.put db w.table w.row) db

theorem mem_select {db : E.Db} {t : σ.Table} {q : σ.Query} {r : σ.Row t} :
    r ∈ E.select db t q ↔ E.get db t (σ.key t r) = some r ∧ σ.selects t q r = true := by
  rw [select, Multiset.mem_filter, E.mem_rows]

theorem nodup_select (db : E.Db) (t : σ.Table) (q : σ.Query) : (E.select db t q).Nodup :=
  (E.nodup_rows db t).filter _

theorem select_congr {db db' : E.Db} {t : σ.Table} {q : σ.Query}
    (h : ∀ r, σ.selects t q r = true →
      (E.get db t (σ.key t r) = some r ↔ E.get db' t (σ.key t r) = some r)) :
    E.select db t q = E.select db' t q := by
  refine (Multiset.Nodup.ext (E.nodup_select _ _ _) (E.nodup_select _ _ _)).mpr fun r => ?_
  rw [mem_select, mem_select]
  exact and_congr_left fun hr => h r hr

theorem get_put_table {db : E.Db} {t t' : σ.Table} (r : σ.Row t) (k : String) (h : t' ≠ t) :
    E.get (E.put db t r) t' k = E.get db t' k :=
  E.get_put_other _ _ _ _ _ fun he => h (congrArg Sigma.fst he)

theorem get_put (db : E.Db) (t : σ.Table) (r : σ.Row t) (k : String) :
    E.get (E.put db t r) t k = if k = σ.key t r then some r else E.get db t k := by
  split_ifs with hk
  · rw [hk, E.get_put_self]
  · apply E.get_put_other
    intro he
    exact hk (by simpa using he)

@[simp] theorem applyWrites_nil (db : E.Db) : E.applyWrites db [] = db := rfl

theorem applyWrites_append (db : E.Db) (ws ws' : List (Write σ)) :
    E.applyWrites db (ws ++ ws') = E.applyWrites (E.applyWrites db ws) ws' := by
  simp only [applyWrites, List.foldl_append]

theorem applyWrites_concat (db : E.Db) (ws : List (Write σ)) (w : Write σ) :
    E.applyWrites db (ws ++ [w]) = E.put (E.applyWrites db ws) w.table w.row := by
  rw [applyWrites_append]
  rfl

theorem get_applyWrites_other {db : E.Db} {ws : List (Write σ)} {t : σ.Table} {k : String}
    (h : ∀ w ∈ ws, w.address ≠ ⟨t, k⟩) :
    E.get (E.applyWrites db ws) t k = E.get db t k := by
  induction ws generalizing db with
  | nil => rfl
  | cons w ws ih =>
    have hw : w.address ≠ ⟨t, k⟩ := h w (by simp)
    have hrest : E.get (E.applyWrites (E.put db w.table w.row) ws) t k =
        E.get (E.put db w.table w.row) t k := ih fun v hv => h v (by simp [hv])
    exact hrest.trans (E.get_put_other _ _ _ _ _ (Ne.symm hw))

theorem get_applyWrites_mem {db : E.Db} {ws : List (Write σ)} (h : (ws.map Write.address).Nodup)
    {w : Write σ} (hw : w ∈ ws) :
    E.get (E.applyWrites db ws) w.table (σ.key w.table w.row) = some w.row := by
  obtain ⟨before, after, rfl⟩ := List.append_of_mem hw
  rw [List.map_append, List.map_cons] at h
  have hlast : w.address ∉ after.map Write.address := (List.nodup_cons.mp (List.nodup_append.mp h).2.1).1
  have hne : ∀ v ∈ after, v.address ≠ ⟨w.table, σ.key w.table w.row⟩ :=
    fun v hv heq => hlast (List.mem_map.mpr ⟨v, hv, heq⟩)
  rw [applyWrites_append]
  change E.get (E.applyWrites (E.put (E.applyWrites db before) w.table w.row) after) _ _ = _
  rw [E.get_applyWrites_other hne, E.get_put_self]

theorem get_applyWrites_written {db db' : E.Db} {ws : List (Write σ)} {t : σ.Table} {k : String}
    (h : ∃ w ∈ ws, w.address = ⟨t, k⟩) :
    E.get (E.applyWrites db ws) t k = E.get (E.applyWrites db' ws) t k := by
  induction ws generalizing db db' with
  | nil => simp at h
  | cons w ws ih =>
    by_cases hrest : ∃ v ∈ ws, v.address = ⟨t, k⟩
    · exact ih hrest
    · obtain ⟨v, hv, hva⟩ := h
      have hvw : v = w := by
        rcases List.mem_cons.mp hv with rfl | hv
        · rfl
        · exact absurd ⟨v, hv, hva⟩ hrest
      subst hvw
      have hne : ∀ u ∈ ws, u.address ≠ ⟨t, k⟩ := fun u hu he => hrest ⟨u, hu, he⟩
      obtain ⟨tv, rv⟩ := v
      cases hva
      change E.get (E.applyWrites (E.put db tv rv) ws) tv _ =
        E.get (E.applyWrites (E.put db' tv rv) ws) tv _
      rw [E.get_applyWrites_other hne, E.get_applyWrites_other hne, E.get_put_self, E.get_put_self]

theorem mem_of_get_applyWrites {db : E.Db} {ws : List (Write σ)} {t : σ.Table} {k : String}
    {r : σ.Row t} (h : E.get (E.applyWrites db ws) t k = some r) :
    E.get db t k = some r ∨ (⟨t, r⟩ : Write σ) ∈ ws := by
  induction ws generalizing db with
  | nil => exact .inl h
  | cons w ws ih =>
    have hrest : E.get (E.applyWrites (E.put db w.table w.row) ws) t k = some r := h
    rcases ih hrest with hput | hmem
    · by_cases haddress : (⟨t, k⟩ : σ.Address) = w.address
      · obtain ⟨u, row⟩ := w
        cases haddress
        obtain rfl := Option.some_inj.mp ((E.get_put_self db u row).symm.trans hput)
        exact .inr (List.mem_cons_self ..)
      · exact .inl ((E.get_put_other _ _ _ _ _ haddress).symm.trans hput)
    · exact .inr (List.mem_cons_of_mem _ hmem)

theorem get_applyWrites_congr {db db' : E.Db} {ws : List (Write σ)} {t : σ.Table} {k : String}
    (h : (∀ w ∈ ws, w.address ≠ ⟨t, k⟩) → E.get db t k = E.get db' t k) :
    E.get (E.applyWrites db ws) t k = E.get (E.applyWrites db' ws) t k := by
  by_cases hw : ∃ w ∈ ws, w.address = ⟨t, k⟩
  · exact E.get_applyWrites_written hw
  · have hne : ∀ w ∈ ws, w.address ≠ ⟨t, k⟩ := fun w hm he => hw ⟨w, hm, he⟩
    rw [E.get_applyWrites_other hne, E.get_applyWrites_other hne, h hne]

theorem select_applyWrites_congr {db db' : E.Db} {ws : List (Write σ)} {t : σ.Table} {q : σ.Query}
    (h : E.select db t q = E.select db' t q) :
    E.select (E.applyWrites db ws) t q = E.select (E.applyWrites db' ws) t q := by
  apply E.select_congr
  intro r hr
  by_cases hw : ∃ w ∈ ws, w.address = ⟨t, σ.key t r⟩
  · have hsame : E.get (E.applyWrites db ws) t (σ.key t r) =
        E.get (E.applyWrites db' ws) t (σ.key t r) := E.get_applyWrites_written hw
    rw [hsame]
  · have hne : ∀ w ∈ ws, w.address ≠ ⟨t, σ.key t r⟩ := fun w hm he => hw ⟨w, hm, he⟩
    rw [E.get_applyWrites_other hne, E.get_applyWrites_other hne]
    have hmem : r ∈ E.select db t q ↔ r ∈ E.select db' t q := by rw [h]
    simpa only [mem_select, hr, and_true] using hmem

/-- Writes to places of their own may be made in any order. -/
theorem get_applyWrites_perm {db : E.Db} {ws ws' : List (Write σ)}
    (h : (ws.map Write.address).Nodup) (hperm : ws.Perm ws') (t : σ.Table) (k : String) :
    E.get (E.applyWrites db ws) t k = E.get (E.applyWrites db ws') t k := by
  have h' : (ws'.map Write.address).Nodup := (hperm.map Write.address).nodup_iff.mp h
  by_cases hw : ∃ w ∈ ws, w.address = ⟨t, k⟩
  · obtain ⟨w, hw, haddress⟩ := hw
    have hfound : E.get (E.applyWrites db ws) w.table (σ.key w.table w.row) = some w.row :=
      E.get_applyWrites_mem h hw
    have hfound' : E.get (E.applyWrites db ws') w.table (σ.key w.table w.row) = some w.row :=
      E.get_applyWrites_mem h' (hperm.mem_iff.mp hw)
    cases haddress
    exact hfound.trans hfound'.symm
  · have hne : ∀ w ∈ ws, w.address ≠ ⟨t, k⟩ := fun w hm he => hw ⟨w, hm, he⟩
    rw [E.get_applyWrites_other hne,
      E.get_applyWrites_other fun w hm => hne w (hperm.mem_iff.mpr hm)]

section Forgetting
variable {E} {forget : (t : σ.Table) → σ.Row t → σ.Row t} {db db' db'' : E.Db}

/-- The stores have the same rows, as far as they are not forgotten. -/
def Alike (forget : (t : σ.Table) → σ.Row t → σ.Row t) (db db' : E.Db) : Prop :=
  ∀ t k, (E.get db t k).map (forget t) = (E.get db' t k).map (forget t)

theorem alike_of_get (h : ∀ t k, E.get db t k = E.get db' t k) : Alike forget db db' := by
  intro t k
  rw [h]

theorem Alike.symm (h : Alike forget db db') : Alike forget db' db := fun t k => (h t k).symm

theorem Alike.trans (h : Alike forget db db') (h' : Alike forget db' db'') :
    Alike forget db db'' := fun t k => (h t k).trans (h' t k)

theorem Alike.put (h : Alike forget db db') {t : σ.Table} {r r' : σ.Row t}
    (hkey : σ.key t r = σ.key t r') (hforget : forget t r = forget t r') :
    Alike forget (E.put db t r) (E.put db' t r') := by
  intro t' k
  by_cases ht : t' = t
  · subst ht
    rw [E.get_put, E.get_put, hkey]
    split_ifs
    · exact congrArg some hforget
    · exact h t' k
  · rw [E.get_put_table _ _ ht, E.get_put_table _ _ ht]
    exact h t' k

/-- Two writes to one place, of rows that agree as far as they are not forgotten. -/
def AlikeWrite (forget : (t : σ.Table) → σ.Row t → σ.Row t) (w w' : Write σ) : Prop :=
  ∃ (t : σ.Table) (r r' : σ.Row t), w = ⟨t, r⟩ ∧ w' = ⟨t, r'⟩ ∧ σ.key t r = σ.key t r' ∧
    forget t r = forget t r'

theorem Alike.applyWrites {ws ws' : List (Write σ)} (h : Alike forget db db')
    (hws : List.Forall₂ (AlikeWrite forget) ws ws') :
    Alike forget (E.applyWrites db ws) (E.applyWrites db' ws') := by
  induction hws generalizing db db' with
  | nil => exact h
  | cons hw _ ih =>
    obtain ⟨t, r, r', rfl, rfl, hkey, hforget⟩ := hw
    exact ih (h.put hkey hforget)

end Forgetting

abbrev KeyedMap (σ : Schema) (t : σ.Table) := Finmap fun k : String => { r : σ.Row t // σ.key t r = k }

def finmap (σ : Schema) : Engine σ where
  Db := (t : σ.Table) → KeyedMap σ t
  empty := fun _ => ∅
  get db t k := ((db t).lookup k).map Subtype.val
  put db t r := Function.update db t ((db t).insert (σ.key t r) ⟨r, rfl⟩)
  rows db t := (db t).entries.map fun e => e.2.val
  get_empty _ _ := by simp
  key_of_get db t k r h := by
    obtain ⟨e, _, rfl⟩ := Option.map_eq_some_iff.mp h
    exact e.property
  get_put_self db t r := by simp
  get_put_other db t r t' k h := by
    by_cases ht : t' = t
    · subst ht
      have hk : k ≠ σ.key t' r := fun he => h (by rw [he])
      simp [Finmap.lookup_insert_of_ne _ hk]
    · rw [Function.update_of_ne ht]
  mem_rows db t r := by
    constructor
    · intro h
      obtain ⟨⟨k, r', hk⟩, he, rfl⟩ := Multiset.mem_map.mp h
      subst hk
      rw [Finmap.mem_lookup_iff.mpr he]
      rfl
    · intro h
      obtain ⟨e, he, hr⟩ := Option.map_eq_some_iff.mp h
      exact Multiset.mem_map.mpr ⟨⟨_, e⟩, Finmap.mem_lookup_iff.mp he, hr⟩
  nodup_rows db t := by
    refine Multiset.Nodup.map_on ?_ (Multiset.Nodup.of_map _ (db t).nodupKeys.nodup_keys)
    intro h' _ h'' _ h
    obtain ⟨k, r, hk⟩ := h'
    obtain ⟨k', r', hk'⟩ := h''
    dsimp only at h
    subst hk hk'
    subst h
    rfl

end Engine
end WorkflowEngine.Txn
