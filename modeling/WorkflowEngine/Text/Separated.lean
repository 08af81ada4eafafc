import Mathlib

/-!
# Texts joined by a separator

A join can be taken apart at its first separator when the left part has none,
and at its last one when the right part has none. Numerals, in any base, are
such parts for every separator that is not a digit.
-/

namespace WorkflowEngine.Text

section Split
variable {α : Type*} {sep : α} {u v u' v' : List α}

theorem split_first (hu : sep ∉ u) (hu' : sep ∉ u') (h : u ++ sep :: v = u' ++ sep :: v') :
    u = u' ∧ v = v' := by
  induction u generalizing u' with
  | nil =>
    cases u' with
    | nil => exact ⟨rfl, (List.cons.inj h).2⟩
    | cons a u' => exact absurd (List.cons.inj h).1 (fun he => hu' (by simp [he]))
  | cons a u ih =>
    cases u' with
    | nil => exact absurd (List.cons.inj h).1.symm (fun he => hu (by simp [he]))
    | cons b u' =>
      obtain ⟨rfl, ht⟩ := List.cons.inj h
      obtain ⟨rfl, rfl⟩ := ih (fun hm => hu (by simp [hm])) (fun hm => hu' (by simp [hm])) ht
      exact ⟨rfl, rfl⟩

theorem split_last (hv : sep ∉ v) (hv' : sep ∉ v') (h : u ++ sep :: v = u' ++ sep :: v') :
    u = u' ∧ v = v' := by
  have hr : v.reverse ++ sep :: u.reverse = v'.reverse ++ sep :: u'.reverse := by
    simpa using congrArg List.reverse h
  obtain ⟨h₁, h₂⟩ := split_first (by simpa using hv) (by simpa using hv') hr
  exact ⟨List.reverse_injective h₂, List.reverse_injective h₁⟩

theorem prefix_append_cons (hu : sep ∉ u) : u <+: v ++ sep :: v' ↔ u <+: v := by
  constructor
  · intro h
    rcases List.prefix_or_prefix_of_prefix h (List.prefix_append v (sep :: v')) with h' | ⟨w, rfl⟩
    · exact h'
    · cases w with
      | nil => simp
      | cons a w =>
        obtain ⟨rfl, -⟩ := List.cons_prefix_cons.mp ((List.prefix_append_right_inj v).mp h)
        exact absurd (by simp) hu
  · intro h
    exact h.trans (List.prefix_append _ _)

/-- What has no separator is found in a join only if it is found in a part. -/
theorem infix_append_cons (hu : sep ∉ u) : u <:+: v ++ sep :: v' ↔ u <:+: v ∨ u <:+: v' := by
  induction v with
  | nil =>
    rw [List.nil_append, List.infix_cons_iff, List.infix_nil]
    refine or_congr_left ?_
    rw [← List.nil_append (sep :: v'), prefix_append_cons hu, List.prefix_nil]
  | cons a v ih =>
    rw [List.cons_append, List.infix_cons_iff, List.infix_cons_iff, ih, or_assoc,
      ← List.cons_append, prefix_append_cons hu]

end Split

theorem digitChar_ne {c : Char} (hc : ∀ k < 17, Nat.digitChar k ≠ c) (b n : ℕ) (hb : 1 < b)
    (hb' : b ≤ 16) : c ∉ Nat.toDigits b n := by
  induction n using Nat.strongRecOn with
  | ind n ih =>
    rw [Nat.toDigits_eq_if hb]
    split_ifs with hn
    · simpa using (hc n (by omega)).symm
    · have hlt : n / b < n := Nat.div_lt_self (by omega) hb
      have hmod : n % b < b := Nat.mod_lt _ (by omega)
      simp only [List.mem_append, List.mem_singleton, not_or]
      exact ⟨ih _ hlt, (hc _ (by omega)).symm⟩

/-- Integers in decimal, as `std::to_string` writes them. -/
theorem colon_notMem_toString (n : ℤ) : ':' ∉ (toString n).toList := by
  have hd : ∀ m : ℕ, ':' ∉ Nat.toDigits 10 m := fun m =>
    digitChar_ne (by decide) 10 m (by omega) (by omega)
  rw [Int.toString_eq_repr, Int.repr_eq_if]
  split_ifs
  · rw [Nat.toList_repr]
    exact hd _
  · rw [String.toList_append, Nat.toList_repr]
    intro hm
    rcases List.mem_append.mp hm with hm | hm
    · exact absurd hm (by decide)
    · exact hd _ hm

theorem natRepr_injective : Function.Injective Nat.repr := by
  intro m n h
  have hd : Nat.toDigits 10 m = Nat.toDigits 10 n := by
    rw [← Nat.toList_repr, ← Nat.toList_repr, h]
  have ho := congrArg (fun ds => Nat.ofDigitChars 10 ds 0) hd
  simpa only [Nat.ofDigitChars_ten_toDigits] using ho

theorem minus_notMem_repr (n : ℕ) : '-' ∉ (Nat.repr n).toList := by
  rw [Nat.toList_repr]
  exact digitChar_ne (by decide) 10 n (by omega) (by omega)

theorem intToString_injective : Function.Injective fun n : ℤ => toString n := by
  intro m n h
  simp only [Int.toString_eq_repr, Int.repr_eq_if] at h
  have hminus : ∀ {a b : ℕ}, a.repr ≠ "-" ++ b.repr := by
    intro a b he
    apply minus_notMem_repr a
    rw [he, String.toList_append]
    simp
  split_ifs at h with hm hn hn
  · have := natRepr_injective h
    omega
  · exact absurd h hminus
  · exact absurd h.symm hminus
  · have hl := congrArg String.toList h
    simp only [String.toList_append, List.append_cancel_left_eq, String.toList_inj] at hl
    have := natRepr_injective hl
    omega

end WorkflowEngine.Text
