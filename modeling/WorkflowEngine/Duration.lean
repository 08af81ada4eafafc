import WorkflowEngine.Cxx
import WorkflowEngine.Text.Regex

/-!
# Durations and lease lengths
-/

namespace WorkflowEngine.Duration
open Text Text.Regex

def isDigit (c : Char) : Bool := '0' ≤ c && c ≤ '9'

/-- `(\d+)X`, the digits captured. -/
def number (unit : Char) : Regex := .seq (.capture (.plus isDigit)) (.lit unit)

/-- `^P(?:(\d+)D)?(?:T(?:(\d+)H)?(?:(\d+)M)?(?:(\d+)S)?)?$` -/
def pattern : Regex :=
  sequence [lit 'P', .opt (number 'D'),
    .opt (sequence [lit 'T', .opt (number 'H'), .opt (number 'M'), .opt (number 'S')])]

def parsePart (captures : Captures) (index : ℕ) : Except Exception ℤ :=
  match captures[index]? with
  | some (some digits) => Cxx.stoll digits
  | _ => .ok 0

def parseIso8601DurationToSeconds (value : String) : Except Exception Seconds := do
  match pattern.fullMatch? value with
  | none => throw (.invalidArgument ("invalid ISO-8601 duration: " ++ value))
  | some captures =>
    -- The first group is number 1 in the source, position 0 here.
    let days ← parsePart captures 0
    let hours ← parsePart captures 1
    let minutes ← parsePart captures 2
    let seconds ← parsePart captures 3
    let inMinutes ← Cxx.mul minutes 60
    let upToMinutes ← Cxx.add seconds inMinutes
    let hoursInMinutes ← Cxx.mul hours 60
    let inHours ← Cxx.mul hoursInMinutes 60
    let upToHours ← Cxx.add upToMinutes inHours
    let daysInHours ← Cxx.mul days 24
    let daysInMinutes ← Cxx.mul daysInHours 60
    let inDays ← Cxx.mul daysInMinutes 60
    let totalSeconds ← Cxx.add upToHours inDays
    if totalSeconds ≤ 0 then
      throw (.invalidArgument ("duration must be greater than zero: " ++ value))
    return totalSeconds

def calculateLeaseDuration (expectedExecutionTime : String) : Except Exception Seconds := do
  let expected ← parseIso8601DurationToSeconds expectedExecutionTime
  let lease := expected.tdiv 3
  if lease < 1 then
    return 1
  return lease

example : parseIso8601DurationToSeconds "P1DT2H3M4S" = .ok 93784 := by decide
example : calculateLeaseDuration "PT1S" = .ok 1 := by decide

end WorkflowEngine.Duration
