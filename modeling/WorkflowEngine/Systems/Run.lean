import Mathlib

/-!
# Runs of labelled transition systems

A system is a relation between a state, a label and a next state. A run lists
the labels in the order in which they happened. Invariants are proved for one
step and used for runs; a simulation matches each concrete label with a run of
the abstract system.
-/

namespace WorkflowEngine.Systems

variable {S T L M : Type*}

inductive Run (step : S → L → S → Prop) (s : S) : List L → S → Prop
  | nil : Run step s [] s
  | snoc {t u : S} {ls : List L} {l : L} (run : Run step s ls t) (last : step t l u) :
      Run step s (ls ++ [l]) u

namespace Run
variable {step : S → L → S → Prop} {s t u : S} {ls ms : List L} {l : L}

theorem single (h : step s l t) : Run step s [l] t := snoc nil h

theorem append (h₁ : Run step s ls t) (h₂ : Run step t ms u) : Run step s (ls ++ ms) u := by
  induction h₂ with
  | nil => rwa [List.append_nil]
  | snoc _ last ih =>
    rw [← List.append_assoc]
    exact snoc ih last

theorem cons (h₁ : step s l t) (h₂ : Run step t ls u) : Run step s (l :: ls) u :=
  (single h₁).append h₂

theorem nil_inv (h : Run step s [] t) : t = s := by
  generalize hl : ([] : List L) = ks at h
  cases h with
  | nil => rfl
  | snoc => simp at hl

theorem snoc_inv (h : Run step s (ls ++ [l]) u) : ∃ t, Run step s ls t ∧ step t l u := by
  generalize hl : ls ++ [l] = ks at h
  cases h with
  | nil => simp at hl
  | snoc run last =>
    obtain ⟨rfl, rfl⟩ := by simpa using hl
    exact ⟨_, run, last⟩

theorem append_inv (h : Run step s (ls ++ ms) u) : ∃ t, Run step s ls t ∧ Run step t ms u := by
  induction ms using List.reverseRecOn generalizing u with
  | nil => exact ⟨u, by rwa [List.append_nil] at h, nil⟩
  | append_singleton ms m ih =>
    rw [← List.append_assoc] at h
    obtain ⟨v, hrun, hlast⟩ := h.snoc_inv
    obtain ⟨t, h₁, h₂⟩ := ih hrun
    exact ⟨t, h₁, snoc h₂ hlast⟩

theorem cons_inv (h : Run step s (l :: ls) u) : ∃ t, step s l t ∧ Run step t ls u := by
  have happend : Run step s ([l] ++ ls) u := h
  obtain ⟨t, h₁, h₂⟩ := happend.append_inv
  have hsnoc : Run step s ([] ++ [l]) t := h₁
  obtain ⟨s', h₀, hl⟩ := hsnoc.snoc_inv
  rw [h₀.nil_inv] at hl
  exact ⟨t, hl, h₂⟩

theorem functional (hstep : ∀ s l t t', step s l t → step s l t' → t = t') {t' : S}
    (h : Run step s ls t) (h' : Run step s ls t') : t = t' := by
  induction h generalizing t' with
  | nil => exact h'.nil_inv.symm
  | snoc _ last ih =>
    obtain ⟨u, hu, last'⟩ := h'.snoc_inv
    rw [← ih hu] at last'
    exact hstep _ _ _ _ last last'

theorem imp {step' : S → L → S → Prop}
    (hstep : ∀ s l t, l ∈ ls → step s l t → step' s l t) (h : Run step s ls t) :
    Run step' s ls t := by
  induction h with
  | nil => exact nil
  | snoc _ last ih =>
    refine snoc (ih fun s l t hl => hstep s l t (List.mem_append_left _ hl)) ?_
    exact hstep _ _ _ (List.mem_append_right _ (List.mem_singleton_self _)) last

theorem invariant {I : S → Prop} (hstep : ∀ s l t, I s → step s l t → I t)
    (h : Run step s ls t) (hs : I s) : I t := by
  induction h with
  | nil => exact hs
  | snoc _ last ih => exact hstep _ _ _ ih last

/-- An invariant of the state and the labels so far. -/
theorem history {I : List L → S → Prop}
    (hstep : ∀ ls s l t, Run step u ls s → I ls s → step s l t → I (ls ++ [l]) t)
    (h : Run step u ls t) (hs : I [] u) : I ls t := by
  induction h with
  | nil => exact hs
  | snoc run last ih => exact hstep _ _ _ _ run ih last

/-- An invariant that steps of a given kind preserve, and what it says of their labels. -/
theorem always {I : S → Prop} {P Q : L → Prop}
    (hstep : ∀ s l t, I s → P l → step s l t → I t ∧ Q l)
    (h : Run step s ls t) (hP : ∀ l ∈ ls, P l) (hs : I s) : I t ∧ ∀ l ∈ ls, Q l := by
  induction h with
  | nil => exact ⟨hs, by simp⟩
  | snoc _ last ih =>
    obtain ⟨ht, hQ⟩ := ih fun l hl => hP l (by simp [hl])
    obtain ⟨hu, hl⟩ := hstep _ _ _ ht (hP _ (by simp)) last
    refine ⟨hu, fun l' hl' => ?_⟩
    rcases List.mem_append.mp hl' with hl' | hl'
    · exact hQ l' hl'
    · rwa [List.mem_singleton.mp hl']

/-- Each step of one system is matched by a run of another. -/
theorem simulate {step' : T → M → T → Prop} {R : S → T → Prop}
    (hstep : ∀ s l t a, R s a → step s l t → ∃ ms b, Run step' a ms b ∧ R t b)
    {a : T} (h : Run step s ls t) (hs : R s a) : ∃ ms b, Run step' a ms b ∧ R t b := by
  induction h with
  | nil => exact ⟨[], a, nil, hs⟩
  | snoc _ last ih =>
    obtain ⟨ms, b, hrun, hR⟩ := ih
    obtain ⟨ns, c, hlast, hR'⟩ := hstep _ _ _ _ hR last
    exact ⟨ms ++ ns, c, hrun.append hlast, hR'⟩

end Run
end WorkflowEngine.Systems
