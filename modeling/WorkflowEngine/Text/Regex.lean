import Mathlib

/-!
# Backtracking regular expressions

The part of ECMAScript patterns built from character classes, greedy
repetition of a class, sequence, greedy option, capture groups and the
assertion that the subject is not at its end. `run` lists every way to match a
front part of the subject, in the order in which a backtracking matcher tries
them, with the text of each group and what is left over. A full match is the
first way that leaves nothing.
-/

namespace WorkflowEngine.Text

inductive Regex where
  | chr (p : Char → Bool)
  | star (p : Char → Bool)
  | seq (a b : Regex)
  | opt (r : Regex)
  | capture (r : Regex)
  | notAtEnd

abbrev Captures := List (Option (List Char))

namespace Regex

def groups : Regex → ℕ
  | .chr _ | .star _ | .notAtEnd => 0
  | .seq a b => groups a + groups b
  | .opt r => groups r
  | .capture r => groups r + 1

/-- Longest repetition first. -/
def splits (p : Char → Bool) : List Char → List (List Char × List Char)
  | [] => [([], [])]
  | c :: cs =>
    if p c then (splits p cs).map (fun s => (c :: s.1, s.2)) ++ [([], c :: cs)]
    else [([], c :: cs)]

def run : Regex → List Char → List (Captures × List Char)
  | .chr _, [] => []
  | .chr p, c :: cs => if p c then [([], cs)] else []
  | .star p, cs => (splits p cs).map fun s => ([], s.2)
  | .seq a b, cs =>
    (run a cs).flatMap fun x => (run b x.2).map fun y => (x.1 ++ y.1, y.2)
  | .opt r, cs => run r cs ++ [(List.replicate r.groups none, cs)]
  | .capture r, cs =>
    (run r cs).map fun x => (some (cs.take (cs.length - x.2.length)) :: x.1, x.2)
  | .notAtEnd, [] => []
  | .notAtEnd, cs => [([], cs)]

def plus (p : Char → Bool) : Regex := .seq (.chr p) (.star p)

def lit (c : Char) : Regex := .chr (· == c)

def sequence : List Regex → Regex
  | [] => .star fun _ => false
  | [r] => r
  | r :: rs => .seq r (sequence rs)

/-- `regex_match`: the groups of the first match of the whole subject. -/
def fullMatch? (r : Regex) (s : String) : Option Captures :=
  ((r.run s.toList).find? fun x => x.2.isEmpty).map Prod.fst

def isFullMatch (r : Regex) (s : String) : Bool := (r.fullMatch? s).isSome

theorem mem_splits {p : Char → Bool} {cs u v : List Char} :
    (u, v) ∈ splits p cs ↔ cs = u ++ v ∧ ∀ c ∈ u, p c = true := by
  induction cs generalizing u with
  | nil =>
    simp only [splits, List.mem_singleton, Prod.mk.injEq]
    constructor
    · intro h
      obtain ⟨rfl, rfl⟩ := h
      simp
    · intro h
      obtain ⟨he, _⟩ := h
      simpa using he.symm
  | cons c cs ih =>
    by_cases hc : p c = true
    · simp only [splits, hc, if_true, List.mem_append, List.mem_map, List.mem_singleton,
        Prod.mk.injEq]
      constructor
      · intro h
        obtain (⟨⟨u', v'⟩, hm, rfl, rfl⟩ | ⟨rfl, rfl⟩) := h
        · obtain ⟨rfl, hu⟩ := ih.mp hm
          exact ⟨rfl, by simpa [hc] using hu⟩
        · simp
      · intro h
        obtain ⟨he, hu⟩ := h
        cases u with
        | nil => exact .inr ⟨rfl, he.symm⟩
        | cons d u =>
          obtain ⟨rfl, rfl⟩ := List.cons.inj he
          exact .inl ⟨(u, v), ih.mpr ⟨rfl, fun x hx => hu x (by simp [hx])⟩, rfl, rfl⟩
    · simp only [splits, hc, Bool.false_eq_true, if_false, List.mem_singleton, Prod.mk.injEq]
      constructor
      · intro h
        obtain ⟨rfl, rfl⟩ := h
        simp
      · intro h
        obtain ⟨he, hu⟩ := h
        cases u with
        | nil => exact ⟨rfl, he.symm⟩
        | cons d u =>
          obtain ⟨rfl, rfl⟩ := List.cons.inj he
          exact absurd (hu c (by simp)) hc

theorem mem_run_chr {p : Char → Bool} {cs rest : List Char} {caps : Captures} :
    (caps, rest) ∈ (chr p).run cs ↔ caps = [] ∧ ∃ c, cs = c :: rest ∧ p c = true := by
  cases cs with
  | nil => simp [run]
  | cons c cs =>
    simp only [run]
    split_ifs with hc
    · simp only [List.mem_singleton, Prod.mk.injEq]
      constructor
      · intro h
        obtain ⟨rfl, rfl⟩ := h
        exact ⟨rfl, c, rfl, hc⟩
      · intro h
        obtain ⟨rfl, d, he, _⟩ := h
        exact ⟨rfl, (List.cons.inj he).2.symm⟩
    · simp only [List.not_mem_nil, false_iff]
      intro h
      obtain ⟨_, d, he, hd⟩ := h
      exact hc ((List.cons.inj he).1 ▸ hd)

theorem mem_run_star {p : Char → Bool} {cs rest : List Char} {caps : Captures} :
    (caps, rest) ∈ (star p).run cs ↔
      caps = [] ∧ ∃ u, cs = u ++ rest ∧ ∀ c ∈ u, p c = true := by
  simp only [run, List.mem_map, Prod.mk.injEq]
  constructor
  · intro h
    obtain ⟨⟨u, v⟩, hm, rfl, rfl⟩ := h
    obtain ⟨he, hu⟩ := mem_splits.mp hm
    exact ⟨rfl, u, he, hu⟩
  · intro h
    obtain ⟨rfl, u, he, hu⟩ := h
    exact ⟨(u, rest), mem_splits.mpr ⟨he, hu⟩, rfl, rfl⟩

theorem mem_run_seq {a b : Regex} {cs rest : List Char} {caps : Captures} :
    (caps, rest) ∈ (seq a b).run cs ↔
      ∃ ca mid cb, (ca, mid) ∈ a.run cs ∧ (cb, rest) ∈ b.run mid ∧ caps = ca ++ cb := by
  simp only [run, List.mem_flatMap, List.mem_map, Prod.mk.injEq]
  constructor
  · intro h
    obtain ⟨⟨ca, mid⟩, ha, ⟨cb, r⟩, hb, rfl, rfl⟩ := h
    exact ⟨ca, mid, cb, ha, hb, rfl⟩
  · intro h
    obtain ⟨ca, mid, cb, ha, hb, rfl⟩ := h
    exact ⟨(ca, mid), ha, (cb, rest), hb, rfl, rfl⟩

theorem mem_run_opt {r : Regex} {cs rest : List Char} {caps : Captures} :
    (caps, rest) ∈ (opt r).run cs ↔
      (caps, rest) ∈ r.run cs ∨ (caps = List.replicate r.groups none ∧ rest = cs) := by
  simp only [run, List.mem_append, List.mem_singleton, Prod.mk.injEq]

theorem mem_run_plus {p : Char → Bool} {cs rest : List Char} {caps : Captures} :
    (caps, rest) ∈ (plus p).run cs ↔
      caps = [] ∧ ∃ u, u ≠ [] ∧ cs = u ++ rest ∧ ∀ c ∈ u, p c = true := by
  simp only [plus, mem_run_seq, mem_run_chr, mem_run_star]
  constructor
  · intro h
    obtain ⟨_, mid, _, ⟨rfl, c, rfl, hc⟩, ⟨rfl, u, rfl, hu⟩, rfl⟩ := h
    exact ⟨rfl, c :: u, by simp, rfl, by simpa [hc] using hu⟩
  · intro h
    obtain ⟨rfl, u, hne, rfl, hu⟩ := h
    cases u with
    | nil => exact absurd rfl hne
    | cons c u =>
      exact ⟨[], u ++ rest, [], ⟨rfl, c, rfl, hu c (by simp)⟩,
        ⟨rfl, u, rfl, fun x hx => hu x (by simp [hx])⟩, rfl⟩

theorem mem_run_lit {c : Char} {cs rest : List Char} {caps : Captures} :
    (caps, rest) ∈ (lit c).run cs ↔ caps = [] ∧ cs = c :: rest := by
  simp only [lit, mem_run_chr, beq_iff_eq]
  refine and_congr_right fun _ => ⟨?_, fun h => ⟨c, h, rfl⟩⟩
  intro h
  obtain ⟨d, hd, rfl⟩ := h
  exact hd

theorem mem_run_notAtEnd {cs rest : List Char} {caps : Captures} :
    (caps, rest) ∈ notAtEnd.run cs ↔ caps = [] ∧ rest = cs ∧ cs ≠ [] := by
  cases cs with
  | nil => simp [run]
  | cons c cs => simp [run]

theorem mem_run_capture {r : Regex} {cs rest : List Char} {caps : Captures} :
    (caps, rest) ∈ (capture r).run cs ↔ ∃ inner, (inner, rest) ∈ r.run cs ∧
      caps = some (cs.take (cs.length - rest.length)) :: inner := by
  simp only [run, List.mem_map, Prod.mk.injEq]
  constructor
  · intro h
    obtain ⟨⟨inner, r'⟩, hm, rfl, rfl⟩ := h
    exact ⟨inner, hm, rfl⟩
  · intro h
    obtain ⟨inner, hm, rfl⟩ := h
    exact ⟨(inner, rest), hm, rfl, rfl⟩

theorem fullMatch?_mem {r : Regex} {s : String} {caps : Captures}
    (h : r.fullMatch? s = some caps) : (caps, []) ∈ r.run s.toList := by
  obtain ⟨⟨c, rest⟩, hf, rfl⟩ := Option.map_eq_some_iff.mp h
  have hrest : rest = [] := by simpa using List.find?_some hf
  subst hrest
  exact List.mem_of_find?_eq_some hf

theorem isFullMatch_iff {r : Regex} {s : String} :
    r.isFullMatch s = true ↔ ∃ caps, (caps, []) ∈ r.run s.toList := by
  constructor
  · intro h
    obtain ⟨caps, hc⟩ := Option.isSome_iff_exists.mp h
    exact ⟨caps, fullMatch?_mem hc⟩
  · intro h
    obtain ⟨caps, hm⟩ := h
    cases hf : (r.run s.toList).find? fun x => x.2.isEmpty with
    | some x => simp [isFullMatch, fullMatch?, hf]
    | none =>
      have hn := List.find?_eq_none.mp hf _ hm
      simp at hn

end Regex
end WorkflowEngine.Text
