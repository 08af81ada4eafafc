import Mathlib

/-!
# Maps in key order

A finite map as the list of its entries in ascending order of the keys. The
order makes the list of a map unique: two maps that agree on every key are
equal.
-/

namespace WorkflowEngine.OrderedMap
variable {κ ν : Type*} [LinearOrder κ]

def lookup (m : List (κ × ν)) (key : κ) : Option ν := (m.find? fun f => f.1 == key).map Prod.snd

/-- `m[key] = v` -/
def set : List (κ × ν) → κ → ν → List (κ × ν)
  | [], key, v => [(key, v)]
  | f :: m, key, v =>
    if key < f.1 then (key, v) :: f :: m
    else if key = f.1 then (key, v) :: m
    else f :: set m key v

/-- `for (const auto& [k, v] : entries) m[k] = v` -/
def setAll (m entries : List (κ × ν)) : List (κ × ν) :=
  entries.foldl (fun m f => set m f.1 f.2) m

def Ascending (m : List (κ × ν)) : Prop := m.Pairwise fun f g => f.1 < g.1

variable {m entries : List (κ × ν)} {key : κ} {v : ν} {f : κ × ν}

@[simp] theorem lookup_nil : lookup ([] : List (κ × ν)) key = none := rfl

theorem lookup_cons : lookup (f :: m) key = if key = f.1 then some f.2 else lookup m key := by
  by_cases h : f.1 = key
  · simp [lookup, h]
  · simp [lookup, h, Ne.symm h]

@[simp] theorem lookup_set {k : κ} :
    lookup (set m key v) k = if k = key then some v else lookup m k := by
  induction m with
  | nil => simp [set, lookup_cons]
  | cons f m ih =>
    rw [set]
    by_cases hlt : key < f.1
    · rw [if_pos hlt, lookup_cons]
    · rw [if_neg hlt]
      by_cases heq : key = f.1
      · rw [if_pos heq, lookup_cons, lookup_cons, ← heq]
        by_cases hk : k = key <;> simp [hk]
      · rw [if_neg heq, lookup_cons, lookup_cons, ih]
        by_cases hk : k = f.1
        · rw [if_pos hk, if_neg (hk ▸ Ne.symm heq), if_pos hk]
        · rw [if_neg hk, if_neg hk]

theorem mem_set (h : f ∈ set m key v) : f = (key, v) ∨ f ∈ m := by
  induction m with
  | nil => simpa [set] using h
  | cons g m ih =>
    rw [set] at h
    by_cases hlt : key < g.1
    · rw [if_pos hlt] at h
      exact List.mem_cons.mp h
    · rw [if_neg hlt] at h
      by_cases heq : key = g.1
      · rw [if_pos heq] at h
        exact (List.mem_cons.mp h).imp_right (List.mem_cons_of_mem g)
      · rw [if_neg heq] at h
        rcases List.mem_cons.mp h with rfl | h
        · exact .inr List.mem_cons_self
        · exact (ih h).imp_right (List.mem_cons_of_mem g)

theorem forall_set {p : κ → Prop} (hkey : p key) (h : ∀ f ∈ m, p f.1) : ∀ f ∈ set m key v, p f.1 := by
  intro f hf
  rcases mem_set hf with rfl | hf
  · exact hkey
  · exact h f hf

theorem ascending_nil : Ascending ([] : List (κ × ν)) := List.Pairwise.nil

theorem Ascending.set (h : Ascending m) : Ascending (set m key v) := by
  induction m with
  | nil => exact List.pairwise_singleton _ _
  | cons f m ih =>
    obtain ⟨hf, hm⟩ := List.pairwise_cons.mp h
    rw [OrderedMap.set]
    by_cases hlt : key < f.1
    · rw [if_pos hlt]
      refine List.pairwise_cons.mpr ⟨?_, h⟩
      intro g hg
      rcases List.mem_cons.mp hg with rfl | hg
      · exact hlt
      · exact lt_trans hlt (hf g hg)
    · rw [if_neg hlt]
      by_cases heq : key = f.1
      · rw [if_pos heq]
        exact List.pairwise_cons.mpr ⟨heq ▸ hf, hm⟩
      · rw [if_neg heq]
        refine List.pairwise_cons.mpr ⟨?_, ih hm⟩
        intro g hg
        rcases mem_set hg with rfl | hg
        · exact lt_of_le_of_ne (not_lt.mp hlt) (Ne.symm heq)
        · exact hf g hg

theorem Ascending.setAll (h : Ascending m) : Ascending (setAll m entries) := by
  induction entries generalizing m with
  | nil => exact h
  | cons f entries ih => exact ih h.set

theorem lookup_eq_some_iff (h : Ascending m) : lookup m key = some v ↔ (key, v) ∈ m := by
  induction m with
  | nil => simp
  | cons f m ih =>
    obtain ⟨hf, hm⟩ := List.pairwise_cons.mp h
    rw [lookup_cons, List.mem_cons, ← ih hm]
    by_cases hkey : key = f.1
    · subst hkey
      have hnot : lookup m f.1 ≠ some v := by
        intro hlookup
        have hlt := hf (f.1, v) ((ih hm).mp hlookup)
        exact lt_irrefl _ hlt
      simp [hnot, Prod.ext_iff, eq_comm]
    · simp [hkey, Prod.ext_iff]

theorem Ascending.ext {m' : List (κ × ν)} (h : Ascending m) (h' : Ascending m')
    (hlookup : ∀ key, lookup m key = lookup m' key) : m = m' := by
  have hmem : ∀ f, f ∈ m ↔ f ∈ m' := by
    intro ⟨key, v⟩
    rw [← lookup_eq_some_iff h, ← lookup_eq_some_iff h', hlookup]
  have hne : ∀ {m : List (κ × ν)}, Ascending m → m.Nodup := by
    intro m hm
    refine List.Pairwise.imp ?_ hm
    intro f g hlt heq
    exact lt_irrefl _ (heq ▸ hlt)
  refine List.Perm.eq_of_pairwise ?_ h h' ((List.perm_ext_iff_of_nodup (hne h) (hne h')).mpr hmem)
  intro f g _ _ hfg hgf
  exact absurd hfg (lt_asymm hgf)

theorem lookup_setAll_of_nodup (h : (entries.map Prod.fst).Nodup) :
    lookup (setAll m entries) key = (lookup entries key).or (lookup m key) := by
  induction entries generalizing m with
  | nil => rfl
  | cons f entries ih =>
    obtain ⟨hf, hentries⟩ := List.nodup_cons.mp h
    rw [setAll, List.foldl_cons, ← setAll, ih hentries, lookup_set, lookup_cons]
    by_cases hkey : key = f.1
    · subst hkey
      have hnone : lookup entries f.1 = none := by
        rw [lookup, Option.map_eq_none_iff, List.find?_eq_none]
        intro g hg heq
        exact hf (List.mem_map.mpr ⟨g, hg, beq_iff_eq.mp heq⟩)
      simp [hnone]
    · simp [hkey]

theorem lookup_of_mem (h : (m.map Prod.fst).Nodup) (hf : f ∈ m) : lookup m f.1 = some f.2 := by
  induction m with
  | nil => cases hf
  | cons g m ih =>
    obtain ⟨hg, hm⟩ := List.nodup_cons.mp h
    rw [lookup_cons]
    rcases List.mem_cons.mp hf with rfl | hf
    · exact if_pos rfl
    · have hne : f.1 ≠ g.1 := fun heq => hg (heq ▸ List.mem_map_of_mem hf)
      rw [if_neg hne]
      exact ih hm hf

theorem Ascending.nodup_keys (h : Ascending m) : (m.map Prod.fst).Nodup :=
  List.pairwise_map.mpr (h.imp fun hlt => ne_of_lt hlt)

theorem lookup_setAll (h : Ascending entries) :
    lookup (setAll m entries) key = (lookup entries key).or (lookup m key) :=
  lookup_setAll_of_nodup h.nodup_keys

theorem lookup_filter {p : κ → Bool} :
    lookup (m.filter fun f => p f.1) key = if p key then lookup m key else none := by
  induction m with
  | nil => simp
  | cons f m ih =>
    rw [List.filter_cons, lookup_cons]
    by_cases hkey : key = f.1
    · subst hkey
      cases hp : p f.1 with
      | true => simp [lookup_cons]
      | false => simpa [hp] using ih
    · cases hp : p f.1 with
      | true => simp [lookup_cons, hkey, ih]
      | false => simp [hkey, ih]

theorem Ascending.filter {p : κ × ν → Bool} (h : Ascending m) : Ascending (m.filter p) :=
  List.Pairwise.filter p h

end WorkflowEngine.OrderedMap
