import WorkflowEngine.Iso8601

/-!
# Time stamps survive the store

A time stamp that counts whole microseconds from the epoch and lies before the
year 10000 is written as text and read back as itself. The calendar is handled
a year at a time from March on, so that a leap day is the last day of its year.
-/

namespace WorkflowEngine.Iso8601

/-- A day of an era: century, leap cycle, year of the cycle and day of the year. -/
structure DayOfEra (doe c q y x : ℤ) : Prop where
  sum : doe = 36524 * c + 1461 * q + 365 * y + x
  century : 0 ≤ c ∧ c ≤ 3
  cycle : 0 ≤ q ∧ q ≤ 24
  year : 0 ≤ y ∧ y ≤ 3
  day : 0 ≤ x ∧ x ≤ 365
  leap : x = 365 → y = 3 ∧ (q < 24 ∨ c = 3)

theorem exists_dayOfEra {doe : ℤ} (h : 0 ≤ doe) (h' : doe < 146097) :
    ∃ c q y x, DayOfEra doe c q y x := by
  by_cases hlast : doe = 146096
  · exact ⟨3, 24, 3, 365, by omega, by omega, by omega, by omega, by omega, by omega⟩
  let c := doe / 36524
  let r := doe % 36524
  let q := r / 1461
  let s := r % 1461
  by_cases hleap : s = 1460
  · exact ⟨c, q, 3, 365, by omega, by omega, by omega, by omega, by omega, by omega⟩
  · exact ⟨c, q, s / 365, s % 365, by omega, by omega, by omega, by omega, by omega, by omega⟩

variable {doe c q y x : ℤ}

theorem DayOfEra.century_eq (h : DayOfEra doe c q y x) : doe / 36524 - doe / 146096 = c := by
  obtain ⟨hsum, hc, hq, hy, hx, hleap⟩ := h
  by_cases hlast : doe = 146096
  · subst hlast
    omega
  · have hr : 1461 * q + 365 * y + x ≤ 36523 := by
      by_cases hx' : x = 365
      · have hleap' := hleap hx'
        omega
      · omega
    have hcentury : doe / 36524 = c := by omega
    have hera : doe / 146096 = 0 := by omega
    omega

/-- A leap cycle is cut a day short; what is too much is taken from the end of its last year. -/
theorem DayOfEra.cycle_eq (h : DayOfEra doe c q y x) : ∃ δ, doe / 1460 = 25 * c + q + δ ∧
    (δ = 0 ∨ δ = 1) ∧ (δ = 1 → 96 ≤ x) ∧ (x = 365 → δ = 1) := by
  obtain ⟨hsum, hc, hq, hy, hx, hleap⟩ := h
  refine ⟨doe / 1460 - 25 * c - q, by omega, ?_, ?_, ?_⟩
  · omega
  · omega
  · intro hx'
    have hleap' := hleap hx'
    omega

theorem DayOfEra.year_eq (h : DayOfEra doe c q y x) :
    (doe - doe / 1460 + doe / 36524 - doe / 146096) / 365 = 100 * c + 4 * q + y := by
  have hcentury := h.century_eq
  obtain ⟨δ, hcycle, hδ, hlow, hhigh⟩ := h.cycle_eq
  obtain ⟨hsum, hc, hq, hy, hx, -⟩ := h
  omega

theorem month_bounds (hx : 0 ≤ x ∧ x ≤ 365) : 0 ≤ (5 * x + 2) / 153 ∧ (5 * x + 2) / 153 ≤ 11 ∧
    (153 * ((5 * x + 2) / 153) + 2) / 5 ≤ x ∧ x ≤ (153 * ((5 * x + 2) / 153) + 2) / 5 + 30 ∧
    (x ≤ 305 → (5 * x + 2) / 153 < 10) ∧ ((5 * x + 2) / 153 < 10 → x ≤ 305) := by
  omega

theorem DayOfEra.doy_eq (h : DayOfEra doe c q y x) :
    doe - (365 * (100 * c + 4 * q + y) + (100 * c + 4 * q + y) / 4 -
      (100 * c + 4 * q + y) / 100) = x := by
  obtain ⟨hsum, hc, hq, hy, hx, -⟩ := h
  omega

theorem DayOfEra.bounds (h : DayOfEra doe c q y x) : 0 ≤ doe ∧ doe < 146097 := by
  obtain ⟨hsum, hc, hq, hy, hx, hleap⟩ := h
  by_cases hx' : x = 365
  · have hleap' := hleap hx'
    omega
  · omega

def monthFromMarch (mp : ℤ) : ℤ := if mp < 10 then mp + 3 else mp - 9

theorem civilFromDays_eq {days era : ℤ} (h : DayOfEra doe c q y x)
    (hdays : days + 719468 = era * 146097 + doe) :
    civilFromDays days = (100 * c + 4 * q + y + era * 400 +
      (if monthFromMarch ((5 * x + 2) / 153) ≤ 2 then 1 else 0),
      monthFromMarch ((5 * x + 2) / 153), x - (153 * ((5 * x + 2) / 153) + 2) / 5 + 1) := by
  have hbounds := h.bounds
  have hera : (days + 719468) / 146097 = era := by omega
  have hdoe : (days + 719468) % 146097 = doe := by omega
  simp only [civilFromDays, hera, hdoe, h.year_eq, h.doy_eq, monthFromMarch]
  rfl

theorem daysFromCivil_eq {era yoe mp : ℤ} (hyoe : 0 ≤ yoe ∧ yoe < 400) (hmp : 0 ≤ mp ∧ mp ≤ 11) :
    daysFromCivil (yoe + era * 400 + (if monthFromMarch mp ≤ 2 then 1 else 0)) (monthFromMarch mp) 1 =
      era * 146097 + (365 * yoe + yoe / 4 - yoe / 100) + (153 * mp + 2) / 5 - 719468 := by
  have hyear : (yoe + era * 400 + (if monthFromMarch mp ≤ 2 then 1 else 0)) -
      (if monthFromMarch mp ≤ 2 then 1 else 0) = yoe + era * 400 := by omega
  have hera : (yoe + era * 400) / 400 = era := by omega
  have hyoe' : (yoe + era * 400) % 400 = yoe := by omega
  by_cases hlate : mp < 10
  · have hmonth : monthFromMarch mp = mp + 3 := if_pos hlate
    have hafter : ¬ mp + 3 ≤ 2 := by omega
    have hpos : mp + 3 > 2 := by omega
    simp only [daysFromCivil, hmonth, if_neg hafter, if_pos hpos, Int.add_zero, hera, hyoe',
      Int.add_sub_cancel]
    omega
  · have hmonth : monthFromMarch mp = mp - 9 := if_neg hlate
    have hbefore : mp - 9 ≤ 2 := by omega
    have hneg : ¬ mp - 9 > 2 := by omega
    have hmp' : mp - 9 + 9 = mp := by omega
    simp only [daysFromCivil, hmonth, if_pos hbefore, if_neg hneg, Int.add_sub_cancel, hera, hyoe',
      hmp']
    omega

theorem exists_era (days : ℤ) :
    ∃ era doe c q y x, days + 719468 = era * 146097 + doe ∧ DayOfEra doe c q y x := by
  have hnonneg : 0 ≤ (days + 719468) % 146097 := by omega
  have hlt : (days + 719468) % 146097 < 146097 := by omega
  obtain ⟨c, q, y, x, h⟩ := exists_dayOfEra hnonneg hlt
  exact ⟨(days + 719468) / 146097, _, c, q, y, x, by omega, h⟩

structure Civil (days : ℤ) (date : ℤ × ℤ × ℤ) : Prop where
  month : 1 ≤ date.2.1 ∧ date.2.1 ≤ 12
  day : 1 ≤ date.2.2 ∧ date.2.2 ≤ 31
  back : daysFromCivil date.1 date.2.1 1 + (date.2.2 - 1) = days

theorem civil (days : ℤ) : Civil days (civilFromDays days) := by
  obtain ⟨era, doe, c, q, y, x, hdays, h⟩ := exists_era days
  have hbounds := month_bounds h.day
  rw [civilFromDays_eq h hdays]
  generalize (5 * x + 2) / 153 = mp at hbounds ⊢
  obtain ⟨hmp, hmp', hlow, hhigh, -, -⟩ := hbounds
  constructor
  · simp only [monthFromMarch]
    split <;> omega
  · simp only
    omega
  · have hdoy := h.doy_eq
    obtain ⟨hsum, hc, hq, hy, hx, -⟩ := h
    simp only
    rw [daysFromCivil_eq (by omega) ⟨hmp, hmp'⟩]
    omega

theorem civil_year (days : ℤ) (h : -719528 ≤ days) (h' : days < 2932897) :
    0 ≤ (civilFromDays days).1 ∧ (civilFromDays days).1 < 10000 := by
  obtain ⟨era, doe, c, q, y, x, hdays, hday⟩ := exists_era days
  have hbounds := month_bounds hday.day
  rw [civilFromDays_eq hday hdays]
  generalize (5 * x + 2) / 153 = mp at hbounds ⊢
  obtain ⟨hsum, hc, hq, hy, hx, -⟩ := hday
  -- January and February of the year 0 are the end of the era before.
  have hera : 0 ≤ era ∨ (era = -1 ∧ c = 3 ∧ q = 24 ∧ y = 3) := by
    by_cases hera : 0 ≤ era
    · exact .inl hera
    · have hlast : era = -1 := by omega
      have hcentury : c = 3 := by omega
      have hcycle : q = 24 := by omega
      exact .inr ⟨hlast, hcentury, hcycle, by omega⟩
  simp only [monthFromMarch]
  split
  · split <;> omega
  · split <;> omega

theorem civil_year_beyond (days : ℤ) (h : 2932897 ≤ days) : 10000 ≤ (civilFromDays days).1 := by
  obtain ⟨era, doe, c, q, y, x, hdays, hday⟩ := exists_era days
  have hbounds := month_bounds hday.day
  rw [civilFromDays_eq hday hdays]
  generalize (5 * x + 2) / 153 = mp at hbounds ⊢
  obtain ⟨hsum, hc, hq, hy, hx, -⟩ := hday
  simp only [monthFromMarch]
  split
  · split <;> omega
  · split <;> omega

theorem timegm_gmtime (t : ℤ) : timegm (gmtime t) = t := by
  obtain ⟨hmonth, -, hback⟩ := civil (t / 86400)
  generalize hdate : civilFromDays (t / 86400) = date at hmonth hback
  obtain ⟨year, month, day⟩ := date
  simp only at hmonth hback
  have hyear : year - 1900 + 1900 + (month - 1) / 12 = year := by omega
  have hmonth' : (month - 1) % 12 + 1 = month := by omega
  simp only [timegm, gmtime, hdate, hyear, hmonth', hback]
  omega

structure Spells (ds : List Char) (n width : ℕ) : Prop where
  digit : ∀ c ∈ ds, isDigit c = true
  ne_nil : ds ≠ []
  length_le : ds.length ≤ width
  value : Nat.ofDigitChars 10 ds 0 = n

theorem isDigit_of_mem_toDigits {n : ℕ} {c : Char} (h : c ∈ Nat.toDigits 10 n) :
    isDigit c = true := by
  have hdigit := Nat.isDigit_of_mem_toDigits (by omega) (by omega) h
  rw [Char.isDigit, Bool.and_eq_true, decide_eq_true_eq, decide_eq_true_eq] at hdigit
  rw [isDigit, Bool.and_eq_true, decide_eq_true_eq, decide_eq_true_eq]
  exact hdigit

theorem ofDigitChars_lt {ds : List Char} (h : ∀ c ∈ ds, isDigit c = true) :
    Nat.ofDigitChars 10 ds 0 < 10 ^ ds.length := by
  induction ds with
  | nil => exact Nat.one_pos
  | cons d ds ih =>
    have hd : d.toNat - '0'.toNat ≤ 9 := by
      have hle := (Bool.and_eq_true_iff.mp (h d List.mem_cons_self)).2
      have hnine : d.toNat ≤ '9'.toNat := UInt32.le_iff_toNat_le.mp (of_decide_eq_true hle)
      have hzero : '9'.toNat - '0'.toNat = 9 := rfl
      omega
    have hrest := ih fun c hc => h c (List.mem_cons_of_mem d hc)
    have hfirst := Nat.mul_le_mul_left (10 ^ ds.length) hd
    rw [Nat.ofDigitChars_cons, Nat.ofDigitChars_eq_ofDigitChars_zero, List.length_cons, Nat.pow_succ,
      Nat.mul_zero, Nat.zero_add]
    omega

theorem spells_toDigits {n width : ℕ} (hwidth : 0 < width) (hn : n < 10 ^ width) :
    Spells (Nat.toDigits 10 n) n width where
  digit _ hc := isDigit_of_mem_toDigits hc
  ne_nil := Nat.toDigits_ne_nil
  length_le := (Nat.length_toDigits_le_iff (by omega) hwidth).mpr hn
  value := Nat.ofDigitChars_ten_toDigits

theorem pad_toList (width n : ℕ) : (pad width n).toList =
    List.replicate (width - (Nat.toDigits 10 n).length) '0' ++ Nat.toDigits 10 n := by
  have hsign : ¬ (n : ℤ) < 0 := by omega
  simp only [pad, if_neg hsign, Int.natAbs_natCast, List.length_nil, Nat.sub_zero, List.nil_append,
    String.toList_ofList, Nat.toString_eq_ofList_toDigits]

theorem length_pad {width n : ℕ} (hwidth : 0 < width) (hn : n < 10 ^ width) :
    (pad width n).toList.length = width := by
  have hlength := (spells_toDigits hwidth hn).length_le
  rw [pad_toList, List.length_append, List.length_replicate]
  omega

theorem spells_pad {width n : ℕ} (hwidth : 0 < width) (hn : n < 10 ^ width) :
    Spells (pad width n).toList n width := by
  have hdigits := spells_toDigits hwidth hn
  refine ⟨?_, ?_, (length_pad hwidth hn).le, ?_⟩
  · intro c hc
    rw [pad_toList] at hc
    rcases List.mem_append.mp hc with hc | hc
    · rw [List.eq_of_mem_replicate hc]
      decide
    · exact hdigits.digit c hc
  · rw [pad_toList]
    exact List.append_ne_nil_of_right_ne_nil _ hdigits.ne_nil
  · rw [pad_toList, Nat.ofDigitChars_append, Nat.ofDigitChars_replicate_zero, Nat.mul_zero]
    exact hdigits.value

theorem ne_of_isDigit {c c' : Char} (h : isDigit c = true) (h' : isDigit c' = false) : c ≠ c' := by
  intro heq
  rw [heq, h'] at h
  cases h

theorem not_isSpace_of_isDigit {c : Char} (h : isDigit c = true) : isSpace c = false := by
  have hne : ∀ c', isDigit c' = false → decide (c = c') = false :=
    fun c' h' => decide_eq_false (ne_of_isDigit h h')
  simp only [isSpace, hne ' ' rfl, hne '\t' rfl, hne '\n' rfl, hne '\x0b' rfl, hne '\x0c' rfl,
    hne '\r' rfl, Bool.or_false]

theorem scanInt_spells {ds rest : List Char} {n width : ℕ} (h : Spells ds n width)
    (hstop : ds.length = width ∨ ∃ c cs, rest = c :: cs ∧ isDigit c = false) :
    scanInt width (ds ++ rest) = some ((n : ℤ), rest) := by
  obtain ⟨hdigit, hne, hlength, hvalue⟩ := h
  obtain ⟨d, ds', rfl⟩ := List.exists_cons_of_ne_nil hne
  have hd : isDigit d = true := hdigit d List.mem_cons_self
  have hblank : (d :: ds' ++ rest).dropWhile isSpace = d :: ds' ++ rest := by
    rw [List.cons_append, List.dropWhile_cons, not_isSpace_of_isDigit hd]
    rfl
  have htaken : ((d :: ds' ++ rest).take width).takeWhile isDigit = d :: ds' := by
    rw [List.take_append, List.take_of_length_le hlength, List.takeWhile_append_of_pos hdigit]
    rcases hstop with hfull | ⟨c, cs, rfl, hc⟩
    · rw [hfull, Nat.sub_self, List.take_zero, List.takeWhile_nil, List.append_nil]
    · cases width - (d :: ds').length with
      | zero => rw [List.take_zero, List.takeWhile_nil, List.append_nil]
      | succ k => rw [List.take_succ_cons, List.takeWhile_cons, hc]; simp
  have hminus : d ≠ '-' := ne_of_isDigit hd rfl
  have hplus : d ≠ '+' := ne_of_isDigit hd rfl
  unfold scanInt
  rw [hblank]
  simp only [List.cons_append] at htaken ⊢
  split
  · rename_i heq
    exact absurd (List.cons.inj heq).1 hminus
  · rename_i heq
    exact absurd (List.cons.inj heq).1 hplus
  · rw [htaken, hvalue]
    simp

theorem scanInts_cons {literal ds : List Char} {fields : List (List Char × ℕ)} {n width : ℕ}
    (rest : List Char) (h : Spells ds n width)
    (hstop : ds.length = width ∨ ∃ c cs, rest = c :: cs ∧ isDigit c = false) :
    scanInts ((literal, width) :: fields) (literal ++ (ds ++ rest)) =
      ((n : ℤ) :: (scanInts fields rest).1, (scanInts fields rest).2) := by
  have hliteral : (literal ++ (ds ++ rest)).dropPrefix? literal = some (ds ++ rest) :=
    List.dropPrefix?_eq_some_iff.mpr ⟨literal, rfl, by simp⟩
  simp only [scanInts, hliteral, Option.bind_some, scanInt_spells h hstop]

def micros (ds : List Char) : ℕ :=
  Nat.ofDigitChars 10 (ds.take 6 ++ List.replicate (6 - (ds.take 6).length) '0') 0

theorem scanFraction_digits {ds rest : List Char} (h : ∀ c ∈ ds, isDigit c = true)
    (hstop : ∀ c ∈ rest.head?, isDigit c = false) :
    scanFraction (some ('.' :: (ds ++ rest))) = ds.take 9 := by
  have hdigit : ∀ c ∈ ds.take 9, isDigit c = true := fun c hc => h c (List.mem_of_mem_take hc)
  rw [scanFraction, List.take_append, List.takeWhile_append_of_pos hdigit]
  cases rest with
  | nil => rw [List.take_nil, List.takeWhile_nil, List.append_nil]
  | cons c cs =>
    have hc : isDigit c = false := hstop c rfl
    cases 9 - ds.length with
    | zero => rw [List.take_zero, List.takeWhile_nil, List.append_nil]
    | succ k => rw [List.take_succ_cons, List.takeWhile_cons, hc]; simp

theorem fromIso8601_fields {years rest : List Char} {year mon mday hour min sec : ℕ}
    (hyear : Spells years year 4) (hmon : mon < 10 ^ 2) (hmday : mday < 10 ^ 2)
    (hhour : hour < 10 ^ 2) (hmin : min < 10 ^ 2) (hsec : sec < 10 ^ 2) :
    fromIso8601 (String.ofList years ++ "-" ++ pad 2 mon ++ "-" ++ pad 2 mday ++ "T" ++
      pad 2 hour ++ ":" ++ pad 2 min ++ ":" ++ pad 2 sec ++ String.ofList rest) =
      timegm ⟨year - 1900, mon - 1, mday, hour, min, sec⟩ * 1000000000 +
        micros (scanFraction (some rest)) * 1000 := by
  have hdash : "-".toList = ['-'] := rfl
  have htee : "T".toList = ['T'] := rfl
  have hcolon : ":".toList = [':'] := rfl
  have htext : (String.ofList years ++ "-" ++ pad 2 mon ++ "-" ++ pad 2 mday ++ "T" ++
      pad 2 hour ++ ":" ++ pad 2 min ++ ":" ++ pad 2 sec ++ String.ofList rest).toList =
      [] ++ (years ++ (['-'] ++ ((pad 2 mon).toList ++ (['-'] ++ ((pad 2 mday).toList ++
        (['T'] ++ ((pad 2 hour).toList ++ ([':'] ++ ((pad 2 min).toList ++ ([':'] ++
          ((pad 2 sec).toList ++ rest))))))))))) := by
    simp only [String.toList_append, String.toList_ofList, hdash, htee, hcolon, List.nil_append,
      List.append_assoc]
  have hscan : scanInts scanFields (String.ofList years ++ "-" ++ pad 2 mon ++ "-" ++ pad 2 mday ++
      "T" ++ pad 2 hour ++ ":" ++ pad 2 min ++ ":" ++ pad 2 sec ++ String.ofList rest).toList =
      ([(year : ℤ), mon, mday, hour, min, sec], some rest) := by
    rw [htext, scanFields, scanInts_cons (['-'] ++ _) hyear (.inr ⟨'-', _, rfl, rfl⟩),
      scanInts_cons _ (spells_pad (by omega) hmon) (.inl (length_pad (by omega) hmon)),
      scanInts_cons _ (spells_pad (by omega) hmday) (.inl (length_pad (by omega) hmday)),
      scanInts_cons _ (spells_pad (by omega) hhour) (.inl (length_pad (by omega) hhour)),
      scanInts_cons _ (spells_pad (by omega) hmin) (.inl (length_pad (by omega) hmin)),
      scanInts_cons _ (spells_pad (by omega) hsec) (.inl (length_pad (by omega) hsec)), scanInts]
  simp only [fromIso8601, hscan]
  rfl

theorem micros_pad {us : ℕ} (h : us < 10 ^ 6) :
    micros (scanFraction (some ('.' :: ((pad 6 us).toList ++ ['Z'])))) = us := by
  have hspells : Spells (pad 6 us).toList us 6 := spells_pad (by omega) h
  have hlength : (pad 6 us).toList.length = 6 := length_pad (by omega) h
  have hstop : ∀ c ∈ (['Z'] : List Char).head?, isDigit c = false := by simp [isDigit]
  have htake : (pad 6 us).toList.take 9 = (pad 6 us).toList :=
    List.take_of_length_le (by omega)
  rw [scanFraction_digits hspells.digit hstop, htake, micros, List.take_of_length_le hlength.le,
    hlength, Nat.sub_self, List.replicate_zero, List.append_nil, hspells.value]

/-- The first instant that takes five digits for its year. -/
def yearTenThousand : TimePoint := 253402300800000000000

/-- Whole microseconds from the epoch on, before the year 10000. -/
structure Exact (t : TimePoint) : Prop where
  nonneg : 0 ≤ t
  lt : t < yearTenThousand
  ticks : 1000 ∣ t

theorem gmtime_bounds {t : ℤ} (h : -62167219200 ≤ t) (h' : t < 253402300800) :
    ∃ year mon mday hour min sec : ℕ, gmtime t = ⟨year - 1900, mon - 1, mday, hour, min, sec⟩ ∧
      year < 10 ^ 4 ∧ mon < 10 ^ 2 ∧ mday < 10 ^ 2 ∧ hour < 10 ^ 2 ∧ min < 10 ^ 2 ∧
      sec < 10 ^ 2 := by
  obtain ⟨hmonth, hday, -⟩ := civil (t / 86400)
  obtain ⟨hyear, hyear'⟩ := civil_year (t / 86400) (by omega) (by omega)
  simp only [gmtime]
  generalize civilFromDays (t / 86400) = date at hmonth hday hyear hyear'
  obtain ⟨year, hyear₀⟩ := Int.eq_ofNat_of_zero_le hyear
  obtain ⟨mon, hmon⟩ := Int.eq_ofNat_of_zero_le (a := date.2.1) (by omega)
  obtain ⟨mday, hmday⟩ := Int.eq_ofNat_of_zero_le (a := date.2.2) (by omega)
  obtain ⟨hour, hhour⟩ := Int.eq_ofNat_of_zero_le (a := t % 86400 / 3600) (by omega)
  obtain ⟨min, hmin⟩ := Int.eq_ofNat_of_zero_le (a := t % 86400 % 3600 / 60) (by omega)
  obtain ⟨sec, hsec⟩ := Int.eq_ofNat_of_zero_le (a := t % 86400 % 60) (by omega)
  refine ⟨year, mon, mday, hour, min, sec, ?_, by omega, by omega, by omega, by omega, by omega,
    by omega⟩
  rw [hyear₀, hmon, hmday, hhour, hmin, hsec]

theorem toString_eq_ofList (n : ℕ) : toString (n : ℤ) = String.ofList (Nat.toDigits 10 n) := by
  have hnonneg : (0 : ℤ) ≤ n := Int.natCast_nonneg n
  rw [Int.toString_eq_repr, Int.repr_eq_if, if_pos hnonneg, Int.toNat_natCast]
  rfl

theorem append_fraction (buf us : String) :
    buf ++ "." ++ us ++ "Z" = buf ++ String.ofList ('.' :: (us.toList ++ ['Z'])) := by
  have hpoint : ".".toList = ['.'] := rfl
  have hzulu : "Z".toList = ['Z'] := rfl
  rw [← String.toList_inj]
  simp only [String.toList_append, String.toList_ofList, hpoint, hzulu, List.append_assoc,
    List.cons_append, List.nil_append]

theorem stored_of_floor {t : ℤ} (hlow : -62167219200000000000 ≤ t)
    (hlt : t < 253402300800000000000) (hseconds : t.tdiv 1000000000 = t / 1000000000)
    (hmicros : (t.tdiv 1000).tmod 1000000 = t / 1000 % 1000000) : stored t = t / 1000 * 1000 := by
  obtain ⟨us, hus⟩ := Int.eq_ofNat_of_zero_le (a := t / 1000 % 1000000) (by omega)
  obtain ⟨year, mon, mday, hour, min, sec, htm, hyear, hmon, hmday, hhour, hmin, hsec⟩ :=
    gmtime_bounds (t := t / 1000000000) (by omega) (by omega)
  have hback := timegm_gmtime (t / 1000000000)
  rw [htm] at hback
  rw [stored, toIso8601, hseconds, hmicros, hus, htm]
  simp only [Int.sub_add_cancel]
  rw [toString_eq_ofList, append_fraction,
    fromIso8601_fields (spells_toDigits (by omega) hyear) hmon hmday hhour hmin hsec,
    micros_pad (by omega), hback]
  change (t / 1000000000 * 1000000000 + us * 1000 : ℤ) = t / 1000 * 1000
  omega

theorem stored_eq {t : ℤ} (hnonneg : 0 ≤ t) (hlt : t < 253402300800000000000) :
    stored t = t / 1000 * 1000 := by
  refine stored_of_floor (by omega) hlt (Int.tdiv_eq_ediv_of_nonneg hnonneg) ?_
  rw [Int.tdiv_eq_ediv_of_nonneg hnonneg, Int.tmod_eq_emod_of_nonneg (by omega)]

theorem stored_seconds {s : ℤ} (hlow : -62167219200 ≤ s) (hlt : s < 253402300800) :
    stored (s * 1000000000) = s * 1000000000 := by
  have hthousands : s * 1000000000 = s * 1000000 * 1000 := by omega
  rw [stored_of_floor (by omega) (by omega)]
  · change (s * 1000000000 / 1000 * 1000 : ℤ) = s * 1000000000
    omega
  · rw [Int.mul_tdiv_cancel _ (by decide), Int.mul_ediv_cancel _ (by decide)]
  · rw [hthousands, Int.mul_tdiv_cancel _ (by decide), Int.mul_ediv_cancel _ (by decide),
      Int.mul_tmod_left, Int.mul_emod_left]

theorem stored_exact {t : TimePoint} (h : Exact t) : stored t = t := by
  rw [stored_eq h.nonneg h.lt]
  exact Int.ediv_mul_cancel h.ticks

theorem take_toDigits {year : ℕ} (h : 10000 ≤ year) :
    ∃ n, Spells ((Nat.toDigits 10 year).take 4) n 4 ∧ ((Nat.toDigits 10 year).take 4).length = 4 ∧
      1000 ≤ n ∧ n ≤ 9999 ∧ ∃ d ds, (Nat.toDigits 10 year).drop 4 = d :: ds ∧ isDigit d = true := by
  have hdigit : ∀ c ∈ Nat.toDigits 10 year, isDigit c = true := fun c hc => isDigit_of_mem_toDigits hc
  have hlong : 4 < (Nat.toDigits 10 year).length := by
    by_contra hshort
    have hlt := (Nat.length_toDigits_le_iff (b := 10) (by omega) (by omega)).mp (not_lt.mp hshort)
    omega
  have hyear : 10 ^ ((Nat.toDigits 10 year).length - 1) ≤ year := by
    by_contra hsmall
    have hle := (Nat.length_toDigits_le_iff (b := 10) (by omega) (by omega)).mpr (not_le.mp hsmall)
    omega
  have hvalue : Nat.ofDigitChars 10 (Nat.toDigits 10 year) 0 = year := Nat.ofDigitChars_ten_toDigits
  generalize Nat.toDigits 10 year = ds at hdigit hlong hyear hvalue ⊢
  have htake : ∀ c ∈ ds.take 4, isDigit c = true := fun c hc => hdigit c (List.mem_of_mem_take hc)
  have hdrop : ∀ c ∈ ds.drop 4, isDigit c = true := fun c hc => hdigit c (List.mem_of_mem_drop hc)
  have hfour : (ds.take 4).length = 4 := List.length_take_of_le hlong.le
  have hlow := ofDigitChars_lt hdrop
  have hhigh := ofDigitChars_lt htake
  have hlength : (ds.drop 4).length = ds.length - 4 := List.length_drop
  have hsplit : year = 10 ^ (ds.drop 4).length * Nat.ofDigitChars 10 (ds.take 4) 0 +
      Nat.ofDigitChars 10 (ds.drop 4) 0 := by
    rw [← Nat.ofDigitChars_eq_ofDigitChars_zero, ← Nat.ofDigitChars_append, List.take_append_drop,
      hvalue]
  have hpow : 10 ^ (ds.length - 1) = 10 ^ (ds.drop 4).length * 1000 := by
    rw [hlength, show ds.length - 1 = ds.length - 4 + 3 by omega, Nat.pow_add]
  have hthousand : 1000 ≤ Nat.ofDigitChars 10 (ds.take 4) 0 := by
    by_contra hsmall
    have hmul := Nat.mul_le_mul_left (10 ^ (ds.drop 4).length) (Nat.le_of_lt_succ (not_le.mp hsmall))
    omega
  obtain ⟨d, rest, hrest⟩ := List.exists_cons_of_ne_nil (l := ds.drop 4) (by
    intro hnil
    rw [hnil, List.length_nil] at hlength
    omega)
  rw [hfour] at hhigh
  exact ⟨_, ⟨htake, List.ne_nil_of_length_eq_add_one hfour, hfour.le, rfl⟩, hfour, hthousand, by omega,
    d, rest, hrest, hdrop d (hrest ▸ List.mem_cons_self)⟩

/-- Of a longer year the first four digits are read, and nothing after them. -/
theorem fromIso8601_longYear (year : ℕ) (h : 10000 ≤ year) (rest : String) :
    ∃ n : ℕ, 1000 ≤ n ∧ n ≤ 9999 ∧
      fromIso8601 (toString (year : ℤ) ++ rest) = timegm ⟨n - 1900, -1, 0, 0, 0, 0⟩ * 1000000000 := by
  obtain ⟨n, hspells, hfour, hn, hn', d, ds, hdrop, hd⟩ := take_toDigits h
  refine ⟨n, hn, hn', ?_⟩
  have htext : (toString (year : ℤ) ++ rest).toList =
      [] ++ ((Nat.toDigits 10 year).take 4 ++ (d :: ds ++ rest.toList)) := by
    rw [toString_eq_ofList, String.toList_append, String.toList_ofList, ← hdrop, List.nil_append,
      ← List.append_assoc, List.take_append_drop]
  have hdash : (d :: ds ++ rest.toList).dropPrefix? ['-'] = none := by
    have hne : (d == '-') = false := beq_eq_false_iff_ne.mpr (ne_of_isDigit hd rfl)
    simp only [List.cons_append, List.dropPrefix?, hne]
    rfl
  have hscan : scanInts scanFields (toString (year : ℤ) ++ rest).toList = ([(n : ℤ)], none) := by
    rw [htext, scanFields, scanInts_cons _ hspells (.inl hfour), scanInts, hdash]
    rfl
  have hmicros : micros (scanFraction none) = 0 := by decide
  simp only [fromIso8601, hscan]
  change timegm ⟨n - 1900, 0 - 1, 0, 0, 0, 0⟩ * 1000000000 + micros (scanFraction none) * 1000 = _
  rw [hmicros, Nat.cast_zero, Int.zero_mul, Int.add_zero]
  rfl

/-- From the year 10000 on a time stamp comes back as the last midnight of some earlier November. -/
theorem stored_beyond {t : ℤ} (h : 253402300800000000000 ≤ t) :
    ∃ s : ℤ, -62167219200 ≤ s ∧ s < 253402300800 ∧ stored t = s * 1000000000 := by
  have hseconds : t.tdiv 1000000000 = t / 1000000000 := Int.tdiv_eq_ediv_of_nonneg (by omega)
  have hyear := civil_year_beyond (t / 1000000000 / 86400) (by omega)
  obtain ⟨year, hyear'⟩ := Int.eq_ofNat_of_zero_le (a := (civilFromDays (t / 1000000000 / 86400)).1)
    (by omega)
  have htm : (gmtime (t / 1000000000)).year + 1900 = (year : ℤ) := by
    rw [← hyear']
    exact Int.sub_add_cancel ..
  obtain ⟨n, hn, hn', hread⟩ := fromIso8601_longYear year (by omega)
    ("-" ++ pad 2 ((gmtime (t / 1000000000)).mon + 1) ++ "-" ++ pad 2 (gmtime (t / 1000000000)).mday ++
      "T" ++ pad 2 (gmtime (t / 1000000000)).hour ++ ":" ++ pad 2 (gmtime (t / 1000000000)).min ++ ":" ++
      pad 2 (gmtime (t / 1000000000)).sec ++ "." ++ pad 6 ((t.tdiv 1000).tmod 1000000) ++ "Z")
  refine ⟨timegm ⟨n - 1900, -1, 0, 0, 0, 0⟩, ?_, ?_, ?_⟩
  · simp only [timegm, daysFromCivil]
    omega
  · simp only [timegm, daysFromCivil]
    omega
  · rw [stored, toIso8601, hseconds]
    simp only [htm]
    rw [← hread]
    simp only [String.append_assoc]

theorem stored_stored {t : ℤ} (h : 0 ≤ t) : stored (stored t) = stored t := by
  by_cases hlt : t < 253402300800000000000
  · have hticks : Exact (t / 1000 * 1000 : ℤ) :=
      ⟨(by omega : (0 : ℤ) ≤ t / 1000 * 1000),
        (by omega : (t / 1000 * 1000 : ℤ) < 253402300800000000000), Dvd.intro_left _ rfl⟩
    rw [stored_eq h hlt]
    exact stored_exact hticks
  · obtain ⟨s, hlow, hhigh, hs⟩ := stored_beyond (not_lt.mp hlt)
    rw [hs, stored_seconds hlow hhigh]

/-- A tick comes back no earlier exactly when it lies before the year 10000. -/
theorem le_stored_iff {t : ℤ} (h : 0 ≤ t) (ticks : (1000 : ℤ) ∣ t) :
    t ≤ stored t ↔ t < 253402300800000000000 := by
  constructor
  · intro hle
    by_contra hlt
    obtain ⟨s, -, hs, hstored⟩ := stored_beyond (not_lt.mp hlt)
    rw [hstored] at hle
    omega
  · intro hlt
    exact (stored_exact ⟨h, hlt, ticks⟩).ge

theorem Exact.addSeconds {t : TimePoint} (h : Exact t) {s : Seconds} (hs : 0 ≤ s)
    (hlt : t.addSeconds s < yearTenThousand) : Exact (t.addSeconds s) := by
  obtain ⟨hnonneg, -, hticks⟩ := h
  refine ⟨?_, hlt, ?_⟩
  · change (0 : ℤ) ≤ t + s * 1000000000
    change (0 : ℤ) ≤ t at hnonneg
    change (0 : ℤ) ≤ s at hs
    omega
  · change (1000 : ℤ) ∣ t + s * 1000000000
    change (1000 : ℤ) ∣ t at hticks
    omega

/-- The counter of the clock holds these instants, and their sums with durations of up to 250,000
years. -/
theorem Exact.inLongLong {t s : ℤ} (h : Exact t) (hs : 0 ≤ s) (hle : s ≤ 8000000000000) :
    Cxx.inLongLong (t / 1000) ∧ Cxx.inLongLong (TimePoint.addSeconds t s / 1000) := by
  have hnonneg : 0 ≤ t := h.nonneg
  have hlt : t < 253402300800000000000 := h.lt
  have hsum : TimePoint.addSeconds t s / 1000 = t / 1000 + s * 1000000 := by
    have hsplit : t + s * 1000000000 = t + s * 1000000 * 1000 := by omega
    exact (congrArg (· / 1000) hsplit).trans (Int.add_mul_ediv_right t _ (by decide))
  rw [hsum, Cxx.inLongLong, Cxx.inLongLong]
  omega

end WorkflowEngine.Iso8601

namespace WorkflowEngine

theorem TimePoint.addSeconds_le {t t' : TimePoint} {s s' : Seconds} (ht : t ≤ t') (hs : s ≤ s') :
    t.addSeconds s ≤ t'.addSeconds s' :=
  Int.add_le_add ht (Int.mul_le_mul_of_nonneg_right hs (by decide))

end WorkflowEngine
