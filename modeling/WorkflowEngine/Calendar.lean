import WorkflowEngine.TimeText

/-!
# Time stamps on the calendar

The proleptic Gregorian calendar by its own rules: leap years, lengths of
months, days added up one year and one month at a time. `timegm` counts the
days of this calendar, and a text that names an instant of it is read as that
instant, cut to the microsecond.
-/

namespace WorkflowEngine.Iso8601

def IsLeap (year : ℕ) : Prop := 4 ∣ year ∧ (100 ∣ year → 400 ∣ year)

instance (year : ℕ) : Decidable (IsLeap year) := inferInstanceAs (Decidable (_ ∧ (_ → _)))

def daysInYear (year : ℕ) : ℕ := if IsLeap year then 366 else 365

def daysInMonth (year month : ℕ) : ℕ :=
  if month = 2 then if IsLeap year then 29 else 28
  else if month = 4 ∨ month = 6 ∨ month = 9 ∨ month = 11 then 30 else 31

def daysBeforeYear (year : ℕ) : ℕ := ∑ y ∈ Finset.Ico 1970 year, daysInYear y

def daysBeforeMonth (year month : ℕ) : ℕ := ∑ m ∈ Finset.Ico 1 month, daysInMonth year m

structure Instant where
  year : ℕ
  month : ℕ
  day : ℕ
  hour : ℕ
  minute : ℕ
  second : ℕ

namespace Instant

structure Valid (i : Instant) : Prop where
  year : 1970 ≤ i.year ∧ i.year ≤ 9999
  month : 1 ≤ i.month ∧ i.month ≤ 12
  day : 1 ≤ i.day ∧ i.day ≤ daysInMonth i.year i.month
  hour : i.hour ≤ 23
  minute : i.minute ≤ 59
  second : i.second ≤ 59

def seconds (i : Instant) : ℕ :=
  (daysBeforeYear i.year + daysBeforeMonth i.year i.month + (i.day - 1)) * 86400 +
    i.hour * 3600 + i.minute * 60 + i.second

/-- `YYYY-MM-DDTHH:MM:SS[.f]Z` -/
def text (i : Instant) (fraction : Option (List Char)) : String :=
  pad 4 i.year ++ "-" ++ pad 2 i.month ++ "-" ++ pad 2 i.day ++ "T" ++ pad 2 i.hour ++ ":" ++
    pad 2 i.minute ++ ":" ++ pad 2 i.second ++
    String.ofList ((fraction.elim [] fun ds => '.' :: ds) ++ ['Z'])

/-- The instant and the fraction of a second after it, in whole microseconds. -/
def time (i : Instant) (fraction : Option (List Char)) : TimePoint :=
  let ds := fraction.getD []
  i.seconds * 1000000000 + (Nat.ofDigitChars 10 ds 0 * 10 ^ 6 / 10 ^ ds.length : ℕ) * 1000

end Instant

theorem days_of_eras (y : ℤ) :
    y / 400 * 146097 + (y % 400 * 365 + y % 400 / 4 - y % 400 / 100) =
      365 * y + y / 4 - y / 100 + y / 400 := by
  omega

theorem leap_days (year : ℕ) : (year : ℤ) / 4 - year / 100 + year / 400 =
    (year - 1 : ℤ) / 4 - (year - 1 : ℤ) / 100 + (year - 1 : ℤ) / 400 +
      if IsLeap year then 1 else 0 := by
  by_cases hleap : IsLeap year
  · obtain ⟨hfour, hcentury⟩ := hleap
    rw [if_pos ⟨hfour, hcentury⟩]
    by_cases hhundred : 100 ∣ year
    · have hfull := hcentury hhundred
      omega
    · omega
  · rw [if_neg hleap]
    by_cases hfour : 4 ∣ year
    · have hcentury : 100 ∣ year ∧ ¬ 400 ∣ year := by
        simpa only [IsLeap, hfour, true_and, Classical.not_imp] using hleap
      omega
    · omega

/-- January and February belong to the year that began in March. -/
theorem daysFromCivil_of_le {year month : ℤ} (h : month ≤ 2) : daysFromCivil year month 1 =
    365 * (year - 1) + (year - 1) / 4 - (year - 1) / 100 + (year - 1) / 400 +
      (153 * (month + 9) + 2) / 5 - 719468 := by
  have hdays := days_of_eras (year - 1)
  have hmonth : ¬ month > 2 := by omega
  simp only [daysFromCivil, if_pos h, if_neg hmonth]
  omega

theorem daysFromCivil_of_gt {year month : ℤ} (h : month > 2) : daysFromCivil year month 1 =
    365 * year + year / 4 - year / 100 + year / 400 + (153 * (month - 3) + 2) / 5 - 719468 := by
  have hdays := days_of_eras year
  have hmonth : ¬ month ≤ 2 := by omega
  simp only [daysFromCivil, if_pos h, if_neg hmonth]
  omega

theorem daysFromCivil_next_year (year : ℕ) :
    daysFromCivil (year + 1 : ℕ) 1 1 = daysFromCivil year 1 1 + daysInYear year := by
  have hleap := leap_days year
  rw [daysFromCivil_of_le (by decide), daysFromCivil_of_le (by decide), daysInYear]
  split_ifs at hleap ⊢ with h
  · omega
  · omega

theorem daysFromCivil_next_month (year : ℕ) {month : ℕ} (h : 1 ≤ month) (h' : month < 12) :
    daysFromCivil year (month + 1 : ℕ) 1 = daysFromCivil year month 1 + daysInMonth year month := by
  by_cases hjanuary : month = 1
  · subst hjanuary
    rw [daysFromCivil_of_le (by decide), daysFromCivil_of_le (by decide)]
    change _ = _ + 31
    omega
  by_cases hfebruary : month = 2
  · have hleap := leap_days year
    subst hfebruary
    rw [daysFromCivil_of_gt (by decide), daysFromCivil_of_le (by decide), daysInMonth, if_pos rfl]
    split_ifs at hleap ⊢ with h
    · omega
    · omega
  · rw [daysFromCivil_of_gt (by omega), daysFromCivil_of_gt (by omega), daysInMonth,
      if_neg hfebruary]
    interval_cases month
    all_goals simp only [Nat.reduceEqDiff, or_self, or_true, true_or, if_true, if_false]; omega

theorem daysFromCivil_year {year : ℕ} (h : 1970 ≤ year) :
    daysFromCivil year 1 1 = daysBeforeYear year := by
  induction year, h using Nat.le_induction with
  | base => rfl
  | succ year hyear ih =>
    rw [daysFromCivil_next_year, ih, daysBeforeYear, daysBeforeYear, Finset.sum_Ico_succ_top hyear,
      Nat.cast_add]

theorem daysFromCivil_month {year month : ℕ} (hyear : 1970 ≤ year) (h : 1 ≤ month)
    (h' : month ≤ 12) :
    daysFromCivil year month 1 = daysBeforeYear year + daysBeforeMonth year month := by
  induction month, h using Nat.le_induction with
  | base =>
    rw [Nat.cast_one, daysFromCivil_year hyear, daysBeforeMonth, Finset.Ico_self, Finset.sum_empty,
      Nat.cast_zero, add_zero]
  | succ month hmonth ih =>
    rw [daysFromCivil_next_month year hmonth h', ih (by omega), daysBeforeMonth, daysBeforeMonth,
      Finset.sum_Ico_succ_top hmonth, Nat.cast_add, add_assoc]

namespace Instant

theorem Valid.timegm {i : Instant} (h : i.Valid) :
    timegm ⟨i.year - 1900, i.month - 1, i.day, i.hour, i.minute, i.second⟩ = i.seconds := by
  obtain ⟨hyear, hmonth, hday, -, -, -⟩ := h
  have hy : (i.year - 1900 + 1900 + (i.month - 1) / 12 : ℤ) = i.year := by omega
  have hm : ((i.month - 1) % 12 + 1 : ℤ) = i.month := by omega
  simp only [Iso8601.timegm, hy, hm, daysFromCivil_month hyear.1 hmonth.1 hmonth.2, seconds]
  omega

end Instant

theorem micros_eq {ds : List Char} (h : ∀ c ∈ ds, isDigit c = true) :
    micros (ds.take 9) = Nat.ofDigitChars 10 ds 0 * 10 ^ 6 / 10 ^ ds.length := by
  have htake : (ds.take 9).take 6 = ds.take 6 := List.take_take ..
  rw [micros, htake]
  by_cases hlong : 6 ≤ ds.length
  · have hlength : (ds.take 6).length = 6 := List.length_take_of_le hlong
    have hdrop : (ds.drop 6).length + 6 = ds.length := by
      rw [List.length_drop]
      omega
    have hlt : Nat.ofDigitChars 10 (ds.drop 6) 0 < 10 ^ (ds.drop 6).length :=
      ofDigitChars_lt fun c hc => h c (List.mem_of_mem_drop hc)
    have hvalue : Nat.ofDigitChars 10 ds 0 = 10 ^ (ds.drop 6).length * Nat.ofDigitChars 10 (ds.take 6) 0 +
        Nat.ofDigitChars 10 (ds.drop 6) 0 := by
      rw [← Nat.ofDigitChars_eq_ofDigitChars_zero, ← Nat.ofDigitChars_append, List.take_append_drop]
    rw [hlength, Nat.sub_self, List.replicate_zero, List.append_nil, ← hdrop, Nat.pow_add,
      Nat.mul_div_mul_right _ _ (by decide), hvalue, Nat.mul_add_div (by positivity),
      Nat.div_eq_of_lt hlt, Nat.add_zero]
  · have hshort : ds.length ≤ 6 := by omega
    have hpow : 10 ^ 6 = 10 ^ (6 - ds.length) * 10 ^ ds.length := by
      rw [← Nat.pow_add, Nat.sub_add_cancel hshort]
    rw [List.take_of_length_le hshort, Nat.ofDigitChars_append, Nat.ofDigitChars_replicate_zero, hpow,
      ← Nat.mul_assoc, Nat.mul_div_cancel _ (by positivity), Nat.mul_comm]

theorem fromIso8601_text {i : Instant} (h : i.Valid) {fraction : Option (List Char)}
    (hfraction : ∀ ds ∈ fraction, ∀ c ∈ ds, isDigit c = true) :
    fromIso8601 (i.text fraction) = i.time fraction := by
  have hmonth : daysInMonth i.year i.month ≤ 31 := by
    unfold daysInMonth
    split_ifs <;> omega
  have htimegm := h.timegm
  obtain ⟨hyear, hmonths, hday, hhour, hminute, hsecond⟩ := h
  have hyears : Spells (pad 4 i.year).toList i.year 4 := spells_pad (by omega) (by omega)
  have hstop : ∀ c ∈ (['Z'] : List Char).head?, isDigit c = false := by simp [isDigit]
  have htext : pad 4 (i.year : ℤ) = String.ofList (pad 4 (i.year : ℤ)).toList :=
    String.ofList_toList.symm
  rw [Instant.text, htext, fromIso8601_fields hyears (by omega) (by omega) (by omega) (by omega)
    (by omega), htimegm, Instant.time]
  cases fraction with
  | none => rfl
  | some ds =>
    have hdigits : ∀ c ∈ ds, isDigit c = true := hfraction ds rfl
    have hscan : scanFraction (some ('.' :: (ds ++ ['Z']))) = ds.take 9 :=
      scanFraction_digits hdigits hstop
    simp only [Option.elim_some, List.cons_append, Option.getD_some, hscan, micros_eq hdigits]

theorem civilFromDays_valid (days : ℤ) (h : 0 ≤ days) (h' : days < 2932897) :
    ∃ year month day : ℕ, civilFromDays days = (↑year, ↑month, ↑day) ∧
      (1970 ≤ year ∧ year ≤ 9999) ∧ (1 ≤ month ∧ month ≤ 12) ∧
      1 ≤ day ∧ day ≤ daysInMonth year month := by
  obtain ⟨era, doe, c, q, y, x, hdays, hday⟩ := exists_era days
  have hbounds := month_bounds hday.day
  have hcivil := civilFromDays_eq hday hdays
  obtain ⟨hsum, hc, hq, hy, hx, hleap⟩ := hday
  generalize hmp : (5 * x + 2) / 153 = mp at hbounds hcivil
  obtain ⟨hlow, hhigh, hfirst, -, -, hearly⟩ := hbounds
  by_cases hlate : mp < 10
  · have hmonth : monthFromMarch mp = mp + 3 := if_pos hlate
    have hsame : ¬ mp + 3 ≤ 2 := by omega
    rw [hmonth, if_neg hsame] at hcivil
    -- A year that began in March 1969 is over before the epoch's March.
    have hepoch : 1970 ≤ 100 * c + 4 * q + y + era * 400 := by
      by_contra hbefore
      have hera : era = 4 := by omega
      have hcentury : c = 3 := by omega
      omega
    refine ⟨(100 * c + 4 * q + y + era * 400).toNat, (mp + 3).toNat,
      (x - (153 * mp + 2) / 5 + 1).toNat, ?_, by omega, by omega, by omega, ?_⟩
    · rw [hcivil]
      simp only [Prod.mk.injEq]
      omega
    · unfold daysInMonth
      split_ifs <;> omega
  · have hmonth : monthFromMarch mp = mp - 9 := if_neg hlate
    have hnext : mp - 9 ≤ 2 := by omega
    rw [hmonth, if_pos hnext] at hcivil
    have hleapday : x = 365 → IsLeap (100 * c + 4 * q + y + era * 400 + 1).toNat := by
      intro hx'
      have hlast := hleap hx'
      refine ⟨by omega, ?_⟩
      intro hcentury
      omega
    refine ⟨(100 * c + 4 * q + y + era * 400 + 1).toNat, (mp - 9).toNat,
      (x - (153 * mp + 2) / 5 + 1).toNat, ?_, by omega, by omega, by omega, ?_⟩
    · rw [hcivil]
      simp only [Prod.mk.injEq]
      omega
    · unfold daysInMonth
      split_ifs with hfebruary hyear hshort
      · omega
      · have hx' := mt hleapday hyear
        omega
      · omega
      · omega

theorem pad_year {year : ℕ} (h : 1000 ≤ year) (h' : year < 10 ^ 4) :
    pad 4 year = toString (year : ℤ) := by
  have hlength : 4 ≤ (Nat.toDigits 10 year).length := by
    by_contra hshort
    have hlt := (Nat.length_toDigits_le_iff (k := 3) (b := 10) (by omega) (by omega)).mp
      (Nat.le_of_lt_succ (not_le.mp hshort))
    omega
  rw [toString_eq_ofList, ← String.toList_inj, pad_toList, Nat.sub_eq_zero_of_le hlength,
    List.replicate_zero, List.nil_append, String.toList_ofList]

/-- What is written names the instant, with six digits of a second. -/
theorem toIso8601_text {t : ℤ} (h : Exact t) :
    ∃ i : Instant, i.Valid ∧ toIso8601 t = i.text (some (pad 6 (t / 1000 % 1000000)).toList) ∧
      (i.seconds : ℤ) = t / 1000000000 := by
  have hnonneg : 0 ≤ t := h.nonneg
  have hlt : t < 253402300800000000000 := h.lt
  have hseconds : t.tdiv 1000000000 = t / 1000000000 := Int.tdiv_eq_ediv_of_nonneg hnonneg
  have hmicros : (t.tdiv 1000).tmod 1000000 = t / 1000 % 1000000 := by
    rw [Int.tdiv_eq_ediv_of_nonneg hnonneg, Int.tmod_eq_emod_of_nonneg (by omega)]
  obtain ⟨year, month, day, hdate, hyear, hmonth, hday⟩ :=
    civilFromDays_valid (t / 1000000000 / 86400) (by omega) (by omega)
  let s := (t / 1000000000 % 86400).toNat
  have hs : (s : ℤ) = t / 1000000000 % 86400 := Int.toNat_of_nonneg (by omega)
  let i : Instant := ⟨year, month, day, s / 3600, s % 3600 / 60, s % 60⟩
  have hvalid : i.Valid :=
    ⟨hyear, hmonth, hday, by change s / 3600 ≤ 23; omega, by change s % 3600 / 60 ≤ 59; omega,
      by change s % 60 ≤ 59; omega⟩
  have htm : gmtime (t / 1000000000) =
      ⟨i.year - 1900, i.month - 1, i.day, i.hour, i.minute, i.second⟩ := by
    simp only [gmtime, hdate, ← hs]
    rfl
  refine ⟨i, hvalid, ?_, ?_⟩
  · have hyears : pad 4 i.year = toString (i.year : ℤ) :=
      pad_year (le_trans (by decide) hyear.1) (lt_of_le_of_lt hyear.2 (by decide))
    rw [toIso8601, hseconds, hmicros, htm, Instant.text, hyears]
    simp only [Int.sub_add_cancel, append_fraction, Option.elim_some, List.cons_append]
  · rw [← hvalid.timegm, ← htm, timegm_gmtime]

/-- An instant written and read back, what is written for it, and a text that names an instant
read. -/
theorem timestamp_round_trip {t : TimePoint} (ht : Exact t) {i : Instant} (hi : i.Valid)
    {fraction : Option (List Char)}
    (hfraction : ∀ ds ∈ fraction, ∀ c ∈ ds, isDigit c = true) :
    fromIso8601 (toIso8601 t) = t ∧
    (∃ j : Instant, j.Valid ∧ toIso8601 t = j.text (some (pad 6 (t / 1000 % 1000000)).toList) ∧
      (j.seconds : ℤ) = t / 1000000000) ∧
    fromIso8601 (i.text fraction) = i.time fraction :=
  ⟨stored_exact ht, toIso8601_text ht, fromIso8601_text hi hfraction⟩

theorem timestamp_round_trip_leap :
    fromIso8601 (toIso8601 253402300799999999000) = 253402300799999999000 ∧
    (∃ j : Instant, j.Valid ∧ toIso8601 253402300799999999000 =
        j.text (some (pad 6 (253402300799999999000 / 1000 % 1000000)).toList) ∧
      (j.seconds : ℤ) = 253402300799999999000 / 1000000000) ∧
    fromIso8601 (Instant.text ⟨2024, 2, 29, 23, 59, 59⟩ (some "1234569999".toList)) =
      Instant.time ⟨2024, 2, 29, 23, 59, 59⟩ (some "1234569999".toList) := by
  have hlast : Exact 253402300799999999000 := ⟨by decide, by decide, by decide⟩
  have hleap : Instant.Valid ⟨2024, 2, 29, 23, 59, 59⟩ :=
    ⟨by decide, by decide, by decide, by decide, by decide, by decide⟩
  refine timestamp_round_trip hlast hleap ?_
  intro ds hds
  obtain rfl := Option.mem_some_iff.mp hds
  exact List.all_eq_true.mp (by decide)

example : Instant.time ⟨2024, 2, 29, 23, 59, 59⟩ (some "1234569999".toList) =
    1709251199123456000 := by decide +kernel

end WorkflowEngine.Iso8601
