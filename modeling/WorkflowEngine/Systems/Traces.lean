import WorkflowEngine.Systems.Run

/-!
# What an observer sees of a run

A system is seen through a function of its states and a partial function of
its labels. When every step is either unseen or a step of a second system, a
run is seen as a run of the second system; a step may also be seen as several.
A state can go on to a goal when some run leads there.
-/

namespace WorkflowEngine.Systems

variable {S T L M : Type*}

theorem filterMap_concat (label : L → Option M) (ls : List L) (l : L) :
    (ls ++ [l]).filterMap label = ls.filterMap label ++ (label l).toList := by
  rw [List.filterMap_append]
  cases h : label l <;> simp [h]

theorem length_filterMap (label : L → Option M) (ls : List L) :
    (ls.filterMap label).length = (ls.map fun l => (label l).toList.length).sum := by
  induction ls with
  | nil => rfl
  | cons l ls ih => cases h : label l <;> simp [h, ih, Nat.add_comm]

namespace Run
variable {step : S → L → S → Prop} {step' : T → M → T → Prop} {s t : S} {ls : List L}

/-- The steps of a system under an invariant, seen as steps of another. -/
theorem observe {I : S → Prop} (see : S → T) (label : L → Option M)
    (hstep : ∀ s l t, I s → step s l t → I t ∧
      ((label l = none ∧ see t = see s) ∨ ∃ m, label l = some m ∧ step' (see s) m (see t)))
    (h : Run step s ls t) (hs : I s) :
    I t ∧ Run step' (see s) (ls.filterMap label) (see t) := by
  induction h with
  | nil => exact ⟨hs, nil⟩
  | snoc _ last ih =>
    obtain ⟨ht, hrun⟩ := ih
    obtain ⟨hu, hseen⟩ := hstep _ _ _ ht last
    refine ⟨hu, ?_⟩
    rw [filterMap_concat]
    rcases hseen with ⟨hnone, hsame⟩ | ⟨m, hm, hlast⟩
    · rw [hnone, hsame]
      simpa using hrun
    · rw [hm]
      exact hrun.snoc hlast

/-- Steps of a kind are matched by runs of another system, label by label. -/
theorem parts {C : L → Prop} {step₂ : S → L × List M → S → Prop} {R : S → T → Prop}
    (hstep : ∀ s l t a, R s a → C l → step s l t →
      ∃ ms b, Run step' a ms b ∧ step₂ s (l, ms) t ∧ R t b)
    (h : Run step s ls t) (hC : ∀ l ∈ ls, C l) {a : T} (hs : R s a) :
    ∃ parts b, parts.length = ls.length ∧ Run step₂ s (ls.zip parts) t ∧
      Run step' a parts.flatten b ∧ R t b := by
  induction h with
  | nil => exact ⟨[], a, rfl, nil, nil, hs⟩
  | @snoc _ _ ls l _ last ih =>
    obtain ⟨parts, b, hlength, hparts, hrun, hR⟩ := ih fun l hl => hC l (List.mem_append_left _ hl)
    obtain ⟨ms, c, hlast, hp, hR'⟩ := hstep _ _ _ b hR
      (hC l (List.mem_append_right _ (List.mem_singleton_self l))) last
    refine ⟨parts ++ [ms], c, ?_, ?_, ?_, hR'⟩
    · rw [List.length_append, List.length_append, hlength]
      rfl
    · rw [List.zip_append hlength.symm]
      exact hparts.snoc hp
    · rw [List.flatten_append, List.flatten_singleton]
      exact hrun.append hlast

end Run

/-- Some run leads from the state to one of the goal's. -/
def CanReach (step : S → L → S → Prop) (goal : S → Prop) (s : S) : Prop :=
  ∃ ls t, Run step s ls t ∧ goal t

namespace CanReach
variable {step : S → L → S → Prop} {goal : S → Prop} {s t : S} {l : L}

theorem here (h : goal s) : CanReach step goal s := ⟨[], s, .nil, h⟩

theorem cons (h : step s l t) (ht : CanReach step goal t) : CanReach step goal s := by
  obtain ⟨ls, u, hrun, hgoal⟩ := ht
  exact ⟨l :: ls, u, hrun.cons h, hgoal⟩

theorem trans {middle : S → Prop} (h : CanReach step middle s)
    (hmiddle : ∀ t, middle t → CanReach step goal t) : CanReach step goal s := by
  obtain ⟨ls, t, hrun, ht⟩ := h
  obtain ⟨ms, u, hrun', hgoal⟩ := hmiddle t ht
  exact ⟨ls ++ ms, u, hrun.append hrun', hgoal⟩

/-- A system inside another one reaches its goal there, too. -/
theorem embed {step' : T → M → T → Prop} (f : S → T) (g : L → M)
    (hstep : ∀ s l t, step s l t → step' (f s) (g l) (f t)) (h : CanReach step goal s) :
    CanReach step' (fun b => ∃ t, goal t ∧ b = f t) (f s) := by
  obtain ⟨ls, t, hrun, ht⟩ := h
  refine ⟨ls.map g, f t, ?_, t, ht, rfl⟩
  clear ht
  induction hrun with
  | nil => exact .nil
  | snoc _ last ih =>
    rw [List.map_append]
    exact ih.snoc (hstep _ _ _ last)

end CanReach

/-- Labels of which a state allows only so many more. -/
theorem Run.budget {step : S → L → S → Prop} {I : S → Prop} (cost : L → ℕ) (left : S → ℕ)
    (hstep : ∀ s l t, I s → step s l t → I t ∧ cost l + left t ≤ left s) {s t : S} {ls : List L}
    (h : Run step s ls t) (hs : I s) : I t ∧ (ls.map cost).sum + left t ≤ left s := by
  induction h with
  | nil => exact ⟨hs, by simp⟩
  | snoc _ last ih =>
    obtain ⟨ht, hle⟩ := ih
    obtain ⟨hu, hlast⟩ := hstep _ _ _ ht last
    refine ⟨hu, ?_⟩
    simp only [List.map_append, List.sum_append, List.map_cons, List.map_nil, List.sum_cons,
      List.sum_nil]
    omega

end WorkflowEngine.Systems
