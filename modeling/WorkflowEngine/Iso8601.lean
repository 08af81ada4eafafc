import WorkflowEngine.Cxx

/-!
# Time stamps as text

`gmtime_r` and `timegm` on the proleptic Gregorian calendar in UTC, the fixed
`strftime` and `snprintf` formats of `toIso8601` and the `sscanf` of
`fromIso8601`, whose count of converted fields the code does not look at: a
field that was not reached keeps its zero.
-/

namespace WorkflowEngine.Iso8601

/-- `std::tm`: years since 1900, months from zero. -/
structure Tm where
  year : ℤ
  mon : ℤ
  mday : ℤ
  hour : ℤ
  min : ℤ
  sec : ℤ
  deriving DecidableEq, Repr

/-- Days from the epoch to the given day of a month; `month` counts from 1. -/
def daysFromCivil (year month day : ℤ) : ℤ :=
  let y := if month ≤ 2 then year - 1 else year
  let era := y / 400
  let yoe := y % 400
  let doy := (153 * (if month > 2 then month - 3 else month + 9) + 2) / 5 + day - 1
  let doe := yoe * 365 + yoe / 4 - yoe / 100 + doy
  era * 146097 + doe - 719468

/-- Year, month from 1 and day of the month. -/
def civilFromDays (days : ℤ) : ℤ × ℤ × ℤ :=
  let z := days + 719468
  let era := z / 146097
  let doe := z % 146097
  let yoe := (doe - doe / 1460 + doe / 36524 - doe / 146096) / 365
  let doy := doe - (365 * yoe + yoe / 4 - yoe / 100)
  let mp := (5 * doy + 2) / 153
  let day := doy - (153 * mp + 2) / 5 + 1
  let month := if mp < 10 then mp + 3 else mp - 9
  (yoe + era * 400 + (if month ≤ 2 then 1 else 0), month, day)

def gmtime (t : ℤ) : Tm :=
  let (year, month, day) := civilFromDays (t / 86400)
  let s := t % 86400
  ⟨year - 1900, month - 1, day, s / 3600, s % 3600 / 60, s % 60⟩

def timegm (tm : Tm) : ℤ :=
  let year := tm.year + 1900 + tm.mon / 12
  let month := tm.mon % 12 + 1
  (daysFromCivil year month 1 + (tm.mday - 1)) * 86400 + tm.hour * 3600 + tm.min * 60 + tm.sec

/-- Decimal text, filled with zeros up to the width. -/
def pad (width : ℕ) (n : ℤ) : String :=
  let digits := (toString n.natAbs).toList
  let sign := if n < 0 then ['-'] else []
  String.ofList (sign ++ List.replicate (width - sign.length - digits.length) '0' ++ digits)

def toIso8601 (tp : TimePoint) : String :=
  let tt := tp.tdiv 1000000000
  let us := (tp.tdiv 1000).tmod 1000000
  let tm := gmtime tt
  let buf := toString (tm.year + 1900) ++ "-" ++ pad 2 (tm.mon + 1) ++ "-" ++ pad 2 tm.mday ++
    "T" ++ pad 2 tm.hour ++ ":" ++ pad 2 tm.min ++ ":" ++ pad 2 tm.sec
  buf ++ "." ++ pad 6 us ++ "Z"

def isSpace (c : Char) : Bool :=
  c = ' ' || c = '\t' || c = '\n' || c = '\x0b' || c = '\x0c' || c = '\r'

def isDigit (c : Char) : Bool := '0' ≤ c && c ≤ '9'

/-- `%Nd`: blanks are skipped, a sign counts towards the width. -/
def scanInt (width : ℕ) (cs : List Char) : Option (ℤ × List Char) :=
  let cs := cs.dropWhile isSpace
  let (negative, room, cs) := match cs with
    | '-' :: rest => (true, width - 1, rest)
    | '+' :: rest => (false, width - 1, rest)
    | _ => (false, width, cs)
  let digits := (cs.take room).takeWhile isDigit
  if digits = [] then none
  else
    let n : ℤ := Nat.ofDigitChars 10 digits 0
    some (if negative then -n else n, cs.drop digits.length)

/-- The integers read up to the first mismatch, each after its literal text,
and the rest of the subject when there was none. -/
def scanInts : List (List Char × ℕ) → List Char → List ℤ × Option (List Char)
  | [], cs => ([], some cs)
  | (literal, width) :: fields, cs =>
    match (cs.dropPrefix? literal).bind fun rest => scanInt width rest with
    | none => ([], none)
    | some (n, rest) =>
      let (ns, r) := scanInts fields rest
      (n :: ns, r)

/-- `"%4d-%2d-%2dT%2d:%2d:%2d.%9[0-9]Z"` -/
def scanFields : List (List Char × ℕ) :=
  [([], 4), (['-'], 2), (['-'], 2), (['T'], 2), ([':'], 2), ([':'], 2)]

def scanFraction : Option (List Char) → List Char
  | some ('.' :: cs) => (cs.take 9).takeWhile isDigit
  | _ => []

def fromIso8601 (s : String) : TimePoint :=
  let (ns, rest) := scanInts scanFields s.toList
  let tm : Tm := ⟨ns.getD 0 0 - 1900, ns.getD 1 0 - 1, ns.getD 2 0, ns.getD 3 0, ns.getD 4 0,
    ns.getD 5 0⟩
  let fraction := (scanFraction rest).take 6
  let us : ℤ := Nat.ofDigitChars 10 (fraction ++ List.replicate (6 - fraction.length) '0') 0
  timegm tm * 1000000000 + us * 1000

/-- The instant a stored time stamp stands for. -/
def stored (tp : TimePoint) : TimePoint := fromIso8601 (toIso8601 tp)

example : toIso8601 1778077920123456789 = "2026-05-06T14:32:00.123456Z" := by decide +kernel
example : stored 1778077920123456789 = 1778077920123456000 := by decide +kernel

end WorkflowEngine.Iso8601
