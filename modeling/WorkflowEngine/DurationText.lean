import WorkflowEngine.Duration

/-!
# The durations that have a lease

The texts that the lease calculation understands are days and a time of day
part by part, each a row of digits before its unit. The parts of such a text
are unique, so the number of seconds that the code computes, when no step of
the computation overflows, is the number the text denotes.
-/

namespace WorkflowEngine.Duration
open Text Text.Regex

def part (unit : Char) : Option (List Char) → List Char
  | some digits => digits ++ [unit]
  | none => []

def Digits (digits : Option (List Char)) : Prop :=
  ∀ ds, digits = some ds → ds ≠ [] ∧ ∀ c ∈ ds, isDigit c = true

def number? : Option (List Char) → ℕ
  | some digits => Nat.ofDigitChars 10 digits 0
  | none => 0

theorem mem_run_number {unit : Char} {cs rest : List Char} {caps : Captures} :
    (caps, rest) ∈ (opt (number unit)).run cs ↔
      ∃ digits, Digits digits ∧ cs = part unit digits ++ rest ∧ caps = [digits] := by
  rw [mem_run_opt, number, mem_run_seq]
  constructor
  · intro h
    rcases h with ⟨ca, mid, cb, ha, hb, rfl⟩ | ⟨rfl, rfl⟩
    · obtain ⟨inner, hinner, rfl⟩ := mem_run_capture.mp ha
      obtain ⟨rfl, u, hne, rfl, hu⟩ := mem_run_plus.mp hinner
      obtain ⟨rfl, rfl⟩ := mem_run_lit.mp hb
      refine ⟨some u, ?_, ?_, ?_⟩
      · intro ds hds
        exact Option.some_inj.mp hds ▸ ⟨hne, hu⟩
      · simp [part]
      · simp
    · exact ⟨none, nofun, rfl, rfl⟩
  · intro ⟨digits, hdigits, hcs, hcaps⟩
    subst hcs hcaps
    cases digits with
    | none => exact .inr ⟨rfl, rfl⟩
    | some u =>
      obtain ⟨hne, hu⟩ := hdigits u rfl
      refine .inl ⟨[some u], unit :: rest, [], mem_run_capture.mpr ⟨[], mem_run_plus.mpr
        ⟨rfl, u, hne, ?_, hu⟩, ?_⟩, mem_run_lit.mpr ⟨rfl, rfl⟩, rfl⟩
      · simp [part]
      · simp [part]

/-- The unit that the digits at the front of a text are followed by. -/
def frontUnit (cs : List Char) : Option Char := (cs.dropWhile isDigit).head?

theorem frontUnit_part {unit : Char} {digits : Option (List Char)} {rest : List Char}
    (hunit : isDigit unit = false) (h : Digits digits) :
    frontUnit (part unit digits ++ rest) = if digits = none then frontUnit rest else some unit := by
  cases digits with
  | none => simp [part]
  | some u =>
    have hu := (h u rfl).2
    simp only [frontUnit, part, List.append_assoc, List.dropWhile_append_of_pos hu]
    simp [hunit]

theorem part_inj {unit : Char} {a b : Option (List Char)} {r r' : List Char}
    (hunit : isDigit unit = false) (ha : Digits a) (hb : Digits b) (hr : frontUnit r ≠ some unit)
    (hr' : frontUnit r' ≠ some unit) (h : part unit a ++ r = part unit b ++ r') :
    a = b ∧ r = r' := by
  have hfront := congrArg frontUnit h
  rw [frontUnit_part hunit ha, frontUnit_part hunit hb] at hfront
  cases a with
  | none =>
    cases b with
    | none => exact ⟨rfl, h⟩
    | some v => simp [hr] at hfront
  | some u =>
    cases b with
    | none => simp [Ne.symm hr'] at hfront
    | some v =>
      have htake := congrArg (List.takeWhile isDigit) h
      have hdrop := congrArg (List.dropWhile isDigit) h
      simp only [part, List.append_assoc, List.takeWhile_append_of_pos (ha u rfl).2,
        List.takeWhile_append_of_pos (hb v rfl).2, List.dropWhile_append_of_pos (ha u rfl).2,
        List.dropWhile_append_of_pos (hb v rfl).2] at htake hdrop
      simp [hunit] at htake hdrop
      exact ⟨congrArg some htake, hdrop⟩

@[ext] structure Parts where
  days : Option (List Char) := none
  hours : Option (List Char) := none
  minutes : Option (List Char) := none
  seconds : Option (List Char) := none

def Parts.captures (p : Parts) : Captures := [p.days, p.hours, p.minutes, p.seconds]

def Parts.total (p : Parts) : ℕ :=
  number? p.seconds + number? p.minutes * 60 + number? p.hours * 3600 + number? p.days * 86400

theorem Parts.total_eq (p : Parts) : (p.total : ℤ) = (number? p.seconds : ℤ) +
    number? p.minutes * 60 + number? p.hours * 60 * 60 + number? p.days * 24 * 60 * 60 := by
  unfold total
  omega

/-- `P[dD][T[hH][mM][sS]]` with these parts. -/
inductive Spells : List Char → Parts → Prop
  | date {days : Option (List Char)} (hd : Digits days) :
      Spells ('P' :: part 'D' days) { days := days }
  | time {p : Parts} (hd : Digits p.days) (hh : Digits p.hours) (hm : Digits p.minutes)
      (hs : Digits p.seconds) :
      Spells ('P' :: (part 'D' p.days ++
        'T' :: (part 'H' p.hours ++ (part 'M' p.minutes ++ part 'S' p.seconds)))) p

theorem mem_run_pattern {cs : List Char} {caps : Captures} :
    (caps, []) ∈ pattern.run cs ↔ ∃ p, Spells cs p ∧ caps = p.captures := by
  simp only [pattern, Regex.sequence, mem_run_seq, mem_run_number, mem_run_lit]
  constructor
  · intro h
    obtain ⟨_, _, _, ⟨rfl, rfl⟩, ⟨_, mid, _, ⟨days, hd, rfl, rfl⟩, htime, rfl⟩, rfl⟩ := h
    rcases mem_run_opt.mp htime with htime | ⟨rfl, rfl⟩
    · simp only [mem_run_seq, mem_run_number, mem_run_lit] at htime
      obtain ⟨_, _, _, ⟨rfl, rfl⟩, ⟨_, _, _, ⟨hours, hh, rfl, rfl⟩, ⟨_, _, _,
        ⟨minutes, hm, rfl, rfl⟩, ⟨seconds, hs, rfl, rfl⟩, rfl⟩, rfl⟩, rfl⟩ := htime
      refine ⟨⟨days, hours, minutes, seconds⟩, ?_, rfl⟩
      rw [List.append_nil]
      exact .time (p := ⟨days, hours, minutes, seconds⟩) hd hh hm hs
    · refine ⟨{ days := days }, ?_, rfl⟩
      rw [List.append_nil]
      exact .date hd
  · intro h
    obtain ⟨p, h, rfl⟩ := h
    cases h with
    | @date days hd =>
      refine ⟨[], _, _, ⟨rfl, rfl⟩, ⟨[days], [], _, ⟨days, hd, by simp, rfl⟩,
        mem_run_opt.mpr (.inr ⟨rfl, rfl⟩), rfl⟩, rfl⟩
    | time hd hh hm hs =>
      refine ⟨[], _, _, ⟨rfl, rfl⟩, ⟨[p.days], _, _, ⟨p.days, hd, rfl, rfl⟩,
        mem_run_opt.mpr (.inl ?_), rfl⟩, rfl⟩
      simp only [mem_run_seq, mem_run_number, mem_run_lit]
      exact ⟨[], _, _, ⟨rfl, rfl⟩, ⟨[p.hours], _, _, ⟨p.hours, hh, rfl, rfl⟩, ⟨[p.minutes], _, _,
        ⟨p.minutes, hm, rfl, rfl⟩, ⟨p.seconds, hs, by simp, rfl⟩, rfl⟩, rfl⟩, rfl⟩

theorem frontUnit_time {minutes seconds : Option (List Char)} (hm : Digits minutes)
    (hs : Digits seconds) :
    frontUnit (part 'M' minutes ++ part 'S' seconds) ≠ some 'H' ∧
      frontUnit (part 'S' seconds) ≠ some 'M' := by
  have hfront : frontUnit (part 'S' seconds ++ []) = _ := frontUnit_part (by decide) hs
  rw [List.append_nil] at hfront
  rw [frontUnit_part (by decide) hm, hfront]
  constructor
  · split_ifs <;> simp [frontUnit]
  · split_ifs <;> simp [frontUnit]

theorem Spells.unique {cs : List Char} {p q : Parts} (hp : Spells cs p) (hq : Spells cs q) :
    p = q := by
  have hnil : frontUnit [] ≠ some 'D' := by decide
  have htime : ∀ cs, frontUnit ('T' :: cs) ≠ some 'D' := by
    intro cs
    have hT : isDigit 'T' = false := by decide
    simp [frontUnit, hT]
  have hD : isDigit 'D' = false := by decide
  cases hp with
  | @date days hd =>
    generalize hcs : 'P' :: part 'D' days = cs at hq
    have hcs' : part 'D' days ++ [] = cs.tail := by
      rw [← hcs, List.append_nil, List.tail_cons]
    cases hq with
    | @date days' hd' =>
      rw [List.tail_cons, ← List.append_nil (part 'D' days')] at hcs'
      rw [(part_inj hD hd hd' hnil hnil hcs').1]
    | time hd' hh' hm' hs' => cases (part_inj hD hd hd' hnil (htime _) hcs').2
  | time hd hh hm hs =>
    generalize hcs : 'P' :: (part 'D' p.days ++ _) = cs at hq
    have hcs' := congrArg List.tail hcs
    rw [List.tail_cons] at hcs'
    cases hq with
    | @date days' hd' =>
      rw [List.tail_cons, ← List.append_nil (part 'D' days')] at hcs'
      cases (part_inj hD hd hd' (htime _) hnil hcs').2
    | time hd' hh' hm' hs' =>
      obtain ⟨hdays, hrest⟩ := part_inj hD hd hd' (htime _) (htime _) hcs'
      have hrest := List.tail_eq_of_cons_eq hrest
      obtain ⟨hhours, hrest⟩ := part_inj (by decide) hh hh' (frontUnit_time hm hs).1
        (frontUnit_time hm' hs').1 hrest
      obtain ⟨hminutes, hrest⟩ := part_inj (by decide) hm hm' (frontUnit_time hm hs).2
        (frontUnit_time hm' hs').2 hrest
      rw [← List.append_nil (part 'S' p.seconds), ← List.append_nil (part 'S' q.seconds)] at hrest
      have hseconds := (part_inj (by decide) hs hs' (by decide) (by decide) hrest).1
      exact Parts.ext hdays hhours hminutes hseconds

theorem dash_notMem_part {unit : Char} {digits : Option (List Char)} (hunit : unit ≠ '-')
    (h : Digits digits) : '-' ∉ part unit digits := by
  cases digits with
  | none => exact List.not_mem_nil
  | some ds =>
    intro hm
    rcases List.mem_append.mp hm with hm | hm
    · exact absurd ((h ds rfl).2 _ hm) (by decide)
    · exact hunit (List.mem_singleton.mp hm).symm

theorem Spells.dash_notMem {cs : List Char} {p : Parts} (h : Spells cs p) : '-' ∉ cs := by
  cases h with
  | date hd =>
    have hdays := dash_notMem_part (show 'D' ≠ '-' by decide) hd
    simp [hdays]
  | time hd hh hm hs =>
    have hdays := dash_notMem_part (show 'D' ≠ '-' by decide) hd
    have hhours := dash_notMem_part (show 'H' ≠ '-' by decide) hh
    have hminutes := dash_notMem_part (show 'M' ≠ '-' by decide) hm
    have hseconds := dash_notMem_part (show 'S' ≠ '-' by decide) hs
    simp [hdays, hhours, hminutes, hseconds]

theorem fullMatch?_pattern {text : String} {p : Parts} (h : Spells text.toList p) :
    pattern.fullMatch? text = some p.captures := by
  have hmatch : pattern.isFullMatch text = true :=
    isFullMatch_iff.mpr ⟨_, mem_run_pattern.mpr ⟨p, h, rfl⟩⟩
  obtain ⟨caps, hcaps⟩ := Option.isSome_iff_exists.mp hmatch
  obtain ⟨q, hq, rfl⟩ := mem_run_pattern.mp (fullMatch?_mem hcaps)
  rw [hcaps, hq.unique h]

theorem fullMatch?_pattern_none {text : String} (h : ∀ p, ¬ Spells text.toList p) :
    pattern.fullMatch? text = none := by
  cases hm : pattern.fullMatch? text with
  | none => rfl
  | some caps =>
    obtain ⟨q, hq, -⟩ := mem_run_pattern.mp (fullMatch?_mem hm)
    exact absurd hq (h q)

theorem parsePart_eq_ok {captures : Captures} {i : ℕ} {digits : Option (List Char)} {n : ℤ}
    (h : captures[i]? = some digits) :
    parsePart captures i = .ok n ↔ number? digits ≤ Cxx.longLongMax ∧ (number? digits : ℤ) = n := by
  rw [parsePart, h]
  cases digits with
  | none => simp [number?, eq_comm]
  | some ds =>
    simp only [Cxx.stoll, number?]
    split_ifs with hn <;> simp [hn]

theorem parseIso8601DurationToSeconds_of_spells {text : String} {p : Parts}
    (hp : Spells text.toList p) (hmax : p.total < 2 ^ 63) :
    parseIso8601DurationToSeconds text =
      if p.total = 0 then .error (.invalidArgument ("duration must be greater than zero: " ++ text))
      else .ok (p.total : ℤ) := by
  have htotal := p.total_eq
  have hpart : ∀ {i : ℕ} {digits : Option (List Char)}, p.captures[i]? = some digits →
      number? digits < 2 ^ 63 → parsePart p.captures i = .ok (number? digits : ℤ) :=
    fun hi hn => (parsePart_eq_ok hi).mpr ⟨Nat.le_sub_one_of_lt hn, rfl⟩
  have hdays : parsePart p.captures 0 = .ok (number? p.days : ℤ) := hpart rfl (by omega)
  have hhours : parsePart p.captures 1 = .ok (number? p.hours : ℤ) := hpart rfl (by omega)
  have hminutes : parsePart p.captures 2 = .ok (number? p.minutes : ℤ) := hpart rfl (by omega)
  have hseconds : parsePart p.captures 3 = .ok (number? p.seconds : ℤ) := hpart rfl (by omega)
  rw [parseIso8601DurationToSeconds, fullMatch?_pattern hp]
  -- Each product and sum is at most the total.
  simp -implicitDefEqProofs (disch := omega) only [hdays, hhours, hminutes, hseconds,
    Cxx.mul_of_bounds, Cxx.add_of_bounds, Cxx.ok_bind]
  rw [← htotal]
  split_ifs with hle hzero hzero
  · rfl
  · omega
  · omega
  · rfl

/-- The lease calculation reads exactly the texts that denote 1 to 2^63 - 1 seconds. -/
theorem parseIso8601DurationToSeconds_eq_ok {text : String} {n : Seconds} :
    parseIso8601DurationToSeconds text = .ok n ↔
      ∃ p, Spells text.toList p ∧ n = (p.total : ℤ) ∧ 1 ≤ p.total ∧ p.total < 2 ^ 63 := by
  constructor
  · intro h
    by_cases hspells : ∃ p, Spells text.toList p
    swap
    · rw [parseIso8601DurationToSeconds, fullMatch?_pattern_none fun p hp => hspells ⟨p, hp⟩] at h
      cases h
    obtain ⟨p, hp⟩ := hspells
    rw [parseIso8601DurationToSeconds, fullMatch?_pattern hp] at h
    simp only [Cxx.bind_eq_ok, Cxx.mul_eq_ok, Cxx.add_eq_ok,
      parsePart_eq_ok (show p.captures[0]? = some p.days from rfl),
      parsePart_eq_ok (show p.captures[1]? = some p.hours from rfl),
      parsePart_eq_ok (show p.captures[2]? = some p.minutes from rfl),
      parsePart_eq_ok (show p.captures[3]? = some p.seconds from rfl)] at h
    obtain ⟨_, ⟨-, rfl⟩, _, ⟨-, rfl⟩, _, ⟨-, rfl⟩, _, ⟨-, rfl⟩, _, ⟨-, rfl⟩, _, ⟨-, rfl⟩, _,
      ⟨-, rfl⟩, _, ⟨-, rfl⟩, _, ⟨-, rfl⟩, _, ⟨-, rfl⟩, _, ⟨-, rfl⟩, _, ⟨-, rfl⟩, total,
      ⟨hrange, rfl⟩, h⟩ := h
    unfold Cxx.inLongLong at hrange
    split_ifs at h with hzero
    · cases h
    · rw [← p.total_eq] at hrange hzero h
      exact ⟨p, hp, (Except.ok.inj h).symm, by omega, by omega⟩
  · intro h
    obtain ⟨p, hp, rfl, hone, hmax⟩ := h
    rw [parseIso8601DurationToSeconds_of_spells hp hmax, if_neg (by omega)]

@[simp] theorem parsePart_ne_invalidArgument {captures : Captures} {i : ℕ} {what : String} :
    parsePart captures i ≠ .error (.invalidArgument what) := by
  unfold parsePart Cxx.stoll
  split
  · dsimp only
    split_ifs <;> simp
  · simp

/-- The second check: the only text of the form that is refused for its value denotes zero. -/
theorem parseIso8601DurationToSeconds_eq_invalidArgument {text what : String} {p : Parts}
    (hp : Spells text.toList p) :
    parseIso8601DurationToSeconds text = .error (.invalidArgument what) ↔
      p.total = 0 ∧ what = "duration must be greater than zero: " ++ text := by
  constructor
  · intro h
    rw [parseIso8601DurationToSeconds, fullMatch?_pattern hp] at h
    simp only [Cxx.bind_eq_error, Cxx.mul_eq_ok, Cxx.add_eq_ok, Cxx.add_ne_invalidArgument,
      Cxx.mul_ne_invalidArgument, parsePart_ne_invalidArgument, false_or,
      parsePart_eq_ok (show p.captures[0]? = some p.days from rfl),
      parsePart_eq_ok (show p.captures[1]? = some p.hours from rfl),
      parsePart_eq_ok (show p.captures[2]? = some p.minutes from rfl),
      parsePart_eq_ok (show p.captures[3]? = some p.seconds from rfl)] at h
    obtain ⟨_, ⟨-, rfl⟩, _, ⟨-, rfl⟩, _, ⟨-, rfl⟩, _, ⟨-, rfl⟩, _, ⟨-, rfl⟩, _, ⟨-, rfl⟩, _,
      ⟨-, rfl⟩, _, ⟨-, rfl⟩, _, ⟨-, rfl⟩, _, ⟨-, rfl⟩, _, ⟨-, rfl⟩, _, ⟨-, rfl⟩, total,
      ⟨hrange, rfl⟩, h⟩ := h
    rw [← p.total_eq] at h
    split_ifs at h with hzero
    · have hwhat := Exception.invalidArgument.inj (Except.error.inj h)
      exact ⟨by omega, hwhat.symm⟩
    · cases h
  · intro h
    obtain ⟨hzero, rfl⟩ := h
    rw [parseIso8601DurationToSeconds_of_spells hp (by omega), if_pos hzero]

/-- The text denotes from 1 to 2^63 - 1 seconds, in days, hours, minutes and seconds. -/
def Leasable (text : String) : Prop :=
  ∃ p, Spells text.toList p ∧ 1 ≤ p.total ∧ p.total < 2 ^ 63

theorem calculateLeaseDuration_returns {text : String} :
    (∃ n, calculateLeaseDuration text = .ok n) ↔ Leasable text := by
  constructor
  · intro h
    obtain ⟨n, h⟩ := h
    obtain ⟨expected, hexpected, -⟩ := Cxx.bind_eq_ok.mp h
    obtain ⟨p, hp, -, hone, hmax⟩ := parseIso8601DurationToSeconds_eq_ok.mp hexpected
    exact ⟨p, hp, hone, hmax⟩
  · intro h
    obtain ⟨p, hp, hone, hmax⟩ := h
    have hexpected := parseIso8601DurationToSeconds_eq_ok.mpr ⟨p, hp, rfl, hone, hmax⟩
    rw [calculateLeaseDuration, hexpected]
    simp only [bind, Except.bind]
    split_ifs
    · exact ⟨_, rfl⟩
    · exact ⟨_, rfl⟩

theorem one_le_calculateLeaseDuration {text : String} {n : Seconds}
    (h : calculateLeaseDuration text = .ok n) : 1 ≤ n := by
  obtain ⟨expected, -, h⟩ := Cxx.bind_eq_ok.mp h
  dsimp only at h
  split_ifs at h with hlt
  · exact Int.le_of_eq (Except.ok.inj h)
  · rw [← Except.ok.inj h]
    exact Int.not_lt.mp hlt

/-- `P[dD][T[hH][mM][sS]]` with a part, and with an hour, minute or second part if there is a T. -/
inductive Documented : List Char → Parts → Prop
  | date {days : List Char} (hd : Digits (some days)) :
      Documented ('P' :: part 'D' (some days)) { days := some days }
  | time {p : Parts} (hd : Digits p.days) (hh : Digits p.hours) (hm : Digits p.minutes)
      (hs : Digits p.seconds) (any : p.hours ≠ none ∨ p.minutes ≠ none ∨ p.seconds ≠ none) :
      Documented ('P' :: (part 'D' p.days ++
        'T' :: (part 'H' p.hours ++ (part 'M' p.minutes ++ part 'S' p.seconds)))) p

theorem Documented.spells {cs : List Char} {p : Parts} (h : Documented cs p) : Spells cs p := by
  cases h with
  | date hd => exact .date hd
  | time hd hh hm hs any => exact .time hd hh hm hs

@[simp] theorem part_none (unit : Char) : part unit none = [] := rfl

@[simp] theorem getLast?_part (unit : Char) (ds : List Char) :
    (part unit (some ds)).getLast? = some unit := by
  simp [part]

theorem Documented.getLast? {cs : List Char} {p : Parts} (h : Documented cs p) :
    cs.getLast? ≠ some 'T' := by
  cases h with
  | date hd => simp [List.getLast?_cons]
  | time hd hh hm hs any =>
    simp only [List.getLast?_cons, List.getLast?_append]
    cases hseconds : p.seconds with
    | some ds => simp
    | none =>
      cases hminutes : p.minutes with
      | some ds => simp
      | none =>
        cases hhours : p.hours with
        | some ds => simp
        | none => simp [hhours, hminutes, hseconds] at any

theorem Spells.documented {cs : List Char} {p : Parts} (h : Spells cs p)
    (hlast : cs.getLast? = some 'T' → p.total = 0) (hp : p.total ≠ 0) : Documented cs p := by
  cases h with
  | @date days hd =>
    cases days with
    | none => exact absurd rfl hp
    | some days => exact .date hd
  | time hd hh hm hs =>
    refine .time hd hh hm hs ?_
    by_contra hnone
    simp only [not_or, not_not] at hnone
    obtain ⟨hhours, hminutes, hseconds⟩ := hnone
    apply hp
    apply hlast
    rw [hhours, hminutes, hseconds]
    simp [List.getLast?_cons]

/-- The parser returns the number of seconds of a documented text that denotes 1 to 2^63 - 1 of
them, and refuses every other text as an invalid argument. A step that overflows does neither. -/
def Exact (text : String) : Prop :=
  (∀ n, parseIso8601DurationToSeconds text = .ok n ↔
    ∃ p, Documented text.toList p ∧ n = (p.total : ℤ) ∧ 1 ≤ p.total ∧ p.total ≤ 2 ^ 63 - 1) ∧
  ((¬ ∃ p, Documented text.toList p ∧ 1 ≤ p.total ∧ p.total ≤ 2 ^ 63 - 1) →
    ∃ what, parseIso8601DurationToSeconds text = .error (.invalidArgument what))

theorem parse_exact_iff {text : String} : Exact text ↔ ∀ p, Spells text.toList p →
    p.total ≤ 2 ^ 63 - 1 ∧ (text.toList.getLast? = some 'T' → p.total = 0) := by
  constructor
  · intro h p hp
    have hrefused : (¬ ∃ q, Documented text.toList q ∧ 1 ≤ q.total ∧ q.total ≤ 2 ^ 63 - 1) →
        p.total = 0 := by
      intro hnot
      obtain ⟨what, herror⟩ := h.2 hnot
      exact ((parseIso8601DurationToSeconds_eq_invalidArgument hp).mp herror).1
    constructor
    · by_contra hmax
      have hzero := hrefused fun ⟨q, hq, _, hqmax⟩ => hmax (hq.spells.unique hp ▸ hqmax)
      omega
    · intro hlast
      exact hrefused fun ⟨q, hq, _⟩ => hq.getLast? hlast
  · intro h
    constructor
    · intro n
      rw [parseIso8601DurationToSeconds_eq_ok]
      constructor
      · intro hok
        obtain ⟨p, hp, hn, hone, hmax⟩ := hok
        exact ⟨p, hp.documented (h p hp).2 (by omega), hn, hone, by omega⟩
      · intro hok
        obtain ⟨p, hp, hn, hone, hmax⟩ := hok
        exact ⟨p, hp.spells, hn, hone, by omega⟩
    · intro hnot
      by_cases hspells : ∃ p, Spells text.toList p
      · obtain ⟨p, hp⟩ := hspells
        have hzero : p.total = 0 := by
          by_contra hne
          exact hnot ⟨p, hp.documented (h p hp).2 hne, by omega, (h p hp).1⟩
        exact ⟨_, (parseIso8601DurationToSeconds_eq_invalidArgument hp).mpr ⟨hzero, rfl⟩⟩
      · refine ⟨"invalid ISO-8601 duration: " ++ text, ?_⟩
        rw [parseIso8601DurationToSeconds, fullMatch?_pattern_none fun p hp => hspells ⟨p, hp⟩]
        rfl

/-- A number of seconds that `stoll` cannot convert, and a T with nothing after it. -/
theorem parse_not_exact : ¬ Exact "PT9223372036854775808S" ∧ ¬ Exact "P1DT" := by
  constructor
  · intro h
    have hparse : parseIso8601DurationToSeconds "PT9223372036854775808S" =
        .error (.outOfRange "stoll") := by decide +kernel
    by_cases hdoc : ∃ p, Documented "PT9223372036854775808S".toList p ∧ 1 ≤ p.total ∧
        p.total ≤ 2 ^ 63 - 1
    · obtain ⟨p, hp, hone, hmax⟩ := hdoc
      have hok := (h.1 _).mpr ⟨p, hp, rfl, hone, hmax⟩
      rw [hparse] at hok
      cases hok
    · obtain ⟨what, herror⟩ := h.2 hdoc
      rw [hparse] at herror
      cases herror
  · intro h
    have hparse : parseIso8601DurationToSeconds "P1DT" = .ok 86400 := by decide +kernel
    obtain ⟨p, hp, -⟩ := (h.1 _).mp hparse
    exact hp.getLast? (by decide)

end WorkflowEngine.Duration
