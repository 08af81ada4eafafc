import WorkflowEngine.Systems.Traces

/-!
# Threads over a shared state

Many threads run the same code. One of them takes a step of its own and of the
shared state; the others are left as they are. A sum over all threads changes
by what the one contributes. When each thread on its own can go on to a goal,
all of them can, one after the other.
-/

namespace WorkflowEngine.Systems

variable {S A L : Type*}

/-- One of the threads takes a step. The number of the thread is known to its code. -/
inductive Moves (step : ℕ → S → A → L → S → A → Prop) :
    S → List A → ℕ → L → S → List A → Prop
  | mk {s s' : S} {l : L} {a a' : A} (before after : List A)
      (h : step before.length s a l s' a') :
      Moves step s (before ++ a :: after) before.length l s' (before ++ a' :: after)

namespace Moves
variable {step : ℕ → S → A → L → S → A → Prop} {s s' : S} {threads threads' : List A} {i : ℕ} {l : L}

/-- The thread that moves, what becomes of it, and what its step does to a sum over all threads. -/
theorem inv (h : Moves step s threads i l s' threads') : ∃ a a', a ∈ threads ∧
    step i s a l s' a' ∧ a' ∈ threads' ∧ (∀ b ∈ threads', b = a' ∨ b ∈ threads) ∧
    ∀ share : A → ℕ, share a ≤ (threads.map share).sum ∧
      (threads'.map share).sum + share a = (threads.map share).sum + share a' := by
  obtain ⟨before, after, h⟩ := h
  refine ⟨_, _, by simp, h, by simp, ?_, ?_⟩
  · intro b hb
    simp only [List.mem_append, List.mem_cons] at hb ⊢
    rcases hb with hb | hb | hb
    · exact .inr (.inl hb)
    · exact .inl hb
    · exact .inr (.inr (.inr hb))
  · intro share
    simp only [List.map_append, List.map_cons, List.sum_append, List.sum_cons]
    omega

/-- What holds of every thread and between any two, when the one that moves keeps it with all the
others. -/
theorem all_pairwise {P P' : A → Prop} {R R' : A → A → Prop} (symm : ∀ a b, R a b → R b a)
    (symm' : ∀ a b, R' a b → R' b a) (h : Moves step s threads i l s' threads')
    (hall : ∀ a ∈ threads, P a) (hpair : threads.Pairwise R) (rest : ∀ a b, R a b → R' a b)
    (moved : ∀ a a', step i s a l s' a' → P a → P' a' ∧ ∀ b, P b → R a b → P' b ∧ R' a' b) :
    (∀ a ∈ threads', P' a) ∧ threads'.Pairwise R' := by
  obtain ⟨before, after, h⟩ := h
  obtain ⟨hbefore, hafter, hacross⟩ := List.pairwise_append.mp hpair
  obtain ⟨hnext, hafter⟩ := List.pairwise_cons.mp hafter
  obtain ⟨hself, hothers⟩ := moved _ _ h (hall _ (by simp))
  have hlater : ∀ b ∈ after, _ ∧ _ := fun b hb => hothers b (hall b (by simp [hb])) (hnext b hb)
  have hearlier : ∀ b ∈ before, _ ∧ _ := fun b hb => hothers b (hall b (by simp [hb]))
    (symm _ _ (hacross b hb _ List.mem_cons_self))
  refine ⟨fun b hb => ?_, List.pairwise_append.mpr ⟨hbefore.imp (rest _ _),
    List.pairwise_cons.mpr ⟨fun b hb => (hlater b hb).2, hafter.imp (rest _ _)⟩, ?_⟩⟩
  · rcases List.mem_append.mp hb with hb | hb
    · exact (hearlier b hb).1
    · rcases List.mem_cons.mp hb with rfl | hb
      · exact hself
      · exact (hlater b hb).1
  · intro a ha b hb
    rcases List.mem_cons.mp hb with rfl | hb
    · exact symm' _ _ (hearlier a ha).2
    · exact rest a b (hacross a ha b (List.mem_cons_of_mem _ hb))

/-- A step of a thread, seen through functions of the threads and of the shared state. -/
theorem seen {T B M : Type*} {step' : ℕ → T → B → M → T → B → Prop} (f : A → B) (g : S → T)
    (label : L → Option M) (h : Moves step s threads i l s' threads')
    (hstep : ∀ a a', step i s a l s' a' → (label l = none ∧ g s' = g s ∧ f a' = f a) ∨
      ∃ m, label l = some m ∧ step' i (g s) (f a) m (g s') (f a')) :
    (label l = none ∧ g s' = g s ∧ threads'.map f = threads.map f) ∨
      ∃ m, label l = some m ∧ Moves step' (g s) (threads.map f) i m (g s') (threads'.map f) := by
  obtain ⟨before, after, h⟩ := h
  rcases hstep _ _ h with ⟨hnone, hshared, hsame⟩ | ⟨m, hm, hstep⟩
  · exact .inl ⟨hnone, hshared, by simp [hsame]⟩
  · refine .inr ⟨m, hm, ?_⟩
    rw [← List.length_map (f := f)] at hstep
    have hmoves := Moves.mk (before.map f) (after.map f) hstep
    simpa only [List.map_append, List.map_cons, List.length_map] using hmoves

/-- A step of a thread changes what that thread has to show, and nothing of what the others have. -/
theorem filterMap_split {B : Type*} (h : Moves step s threads i l s' threads') (f : A → Option B) :
    ∃ a a' before after, step i s a l s' a' ∧ threads.filterMap f = before ++ (f a).toList ++ after ∧
      threads'.filterMap f = before ++ (f a').toList ++ after := by
  obtain ⟨before, after, h⟩ := h
  have hsplit : ∀ b, (before ++ b :: after).filterMap f =
      before.filterMap f ++ (f b).toList ++ after.filterMap f := by
    intro b
    cases hb : f b <;> simp [hb]
  exact ⟨_, _, _, _, h, hsplit _, hsplit _⟩

theorem length (h : Moves step s threads i l s' threads') : threads'.length = threads.length := by
  obtain ⟨before, after, -⟩ := h
  simp

/-- The thread of the number moves, and those of other numbers do not. -/
theorem getElem? (h : Moves step s threads i l s' threads') : ∃ a a', threads[i]? = some a ∧
    step i s a l s' a' ∧ threads'[i]? = some a' ∧ ∀ j, j ≠ i → threads'[j]? = threads[j]? := by
  obtain ⟨before, after, h⟩ := h
  refine ⟨_, _, by simp, h, by simp, fun j hj => ?_⟩
  by_cases hlt : j < before.length
  · rw [List.getElem?_append_left hlt, List.getElem?_append_left hlt]
  · have hle : before.length ≤ j := Nat.le_of_not_lt hlt
    obtain ⟨m, hm⟩ : ∃ m, j - before.length = m + 1 := ⟨j - before.length - 1, by omega⟩
    rw [List.getElem?_append_right hle, List.getElem?_append_right hle, hm, List.getElem?_cons_succ,
      List.getElem?_cons_succ]

end Moves

variable (step : ℕ → S → A → L → S → A → Prop)

/-- One thread and the shared state, while the others wait. -/
def Alone (i : ℕ) (x : S × A) (l : L) (y : S × A) : Prop := step i x.1 x.2 l y.1 y.2

def Together (x : S × List A) (l : ℕ × L) (y : S × List A) : Prop :=
  Moves step x.1 x.2 l.1 l.2 y.1 y.2

variable {step} {s s' : S} {a a' : A} {i : ℕ} {l : L}

theorem CanReach.alone {goal : S × A → Prop} (h : step i s a l s' a')
    (hgoal : CanReach (Alone step i) goal (s', a')) : CanReach (Alone step i) goal (s, a) :=
  hgoal.cons (t := (s', a')) (l := l) h

/-- Threads that can each be led to the goal, as long as the shared state keeps the invariant. -/
theorem canReach_all {I : S → Prop} {P : A → Prop} (goal : A → Prop)
    (lead : ∀ i s a, I s → P a → CanReach (Alone step i) (fun x => I x.1 ∧ goal x.2) (s, a))
    {threads : List A} (hs : I s) (hthreads : ∀ a ∈ threads, P a) :
    CanReach (Together step) (fun x => I x.1 ∧ ∀ a ∈ x.2, goal a) (s, threads) := by
  have hrest : ∀ (after before : List A) (s : S), I s → (∀ a ∈ before, goal a) → (∀ a ∈ after, P a) →
      CanReach (Together step) (fun x => I x.1 ∧ ∀ a ∈ x.2, goal a) (s, before ++ after) := by
    intro after
    induction after with
    | nil =>
      intro before s hs hbefore _
      exact .here ⟨hs, by simpa using hbefore⟩
    | cons a after ih =>
      intro before s hs hbefore hafter
      have hlead := lead before.length s a hs (hafter a List.mem_cons_self)
      refine (hlead.embed (fun x : S × A => (x.1, before ++ x.2 :: after)) (fun l => (before.length, l))
        (fun _ _ _ h => Moves.mk before after h)).trans ?_
      rintro _ ⟨⟨s', a'⟩, ⟨hs', ha'⟩, rfl⟩
      have hnext := ih (before ++ [a']) s' hs' (fun b hb => ?_)
        (fun b hb => hafter b (List.mem_cons_of_mem _ hb))
      · rwa [List.append_assoc] at hnext
      · rcases List.mem_append.mp hb with hb | hb
        · exact hbefore b hb
        · rwa [List.mem_singleton.mp hb]
  exact hrest threads [] s hs (by simp) hthreads

end WorkflowEngine.Systems
