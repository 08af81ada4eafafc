import Mathlib

/-!
# What the code takes from the language

Exceptions by the class a caller can tell apart, `long long` arithmetic whose
overflow is undefined, `std::stoll`, and clock values. A time point counts
nanoseconds since the epoch; a clock with coarser ticks yields multiples.
-/

namespace WorkflowEngine

inductive Exception where
  | invalidArgument (what : String)
  | runtimeError (what : String)
  | outOfRange (what : String)
  /-- Raised by the storage library. -/
  | storage (what : String)
  /-- Raised by a failing accessor of a JSON value; only the JSON library says of which class. -/
  | access (what : String)
  /-- Anything else that a callback or an allocation raises. -/
  | other (what : String)
  /-- Not an exception: from here on the program has no defined behaviour. -/
  | undefined
  deriving DecidableEq, Repr

namespace Cxx

def longLongMax : ℕ := 2 ^ 63 - 1

def inLongLong (n : ℤ) : Prop := -2 ^ 63 ≤ n ∧ n < 2 ^ 63

instance (n : ℤ) : Decidable (inLongLong n) := inferInstanceAs (Decidable (_ ∧ _))

def add (a b : ℤ) : Except Exception ℤ :=
  if inLongLong (a + b) then .ok (a + b) else .error .undefined

def mul (a b : ℤ) : Except Exception ℤ :=
  if inLongLong (a * b) then .ok (a * b) else .error .undefined

theorem add_eq_ok {a b c : ℤ} : add a b = .ok c ↔ inLongLong (a + b) ∧ a + b = c := by
  unfold add
  by_cases h : inLongLong (a + b) <;> simp [h]

theorem mul_eq_ok {a b c : ℤ} : mul a b = .ok c ↔ inLongLong (a * b) ∧ a * b = c := by
  unfold mul
  by_cases h : inLongLong (a * b) <;> simp [h]

theorem add_of_bounds {a b : ℤ} (lower : -2 ^ 63 ≤ a + b) (upper : a + b < 2 ^ 63) :
    add a b = .ok (a + b) :=
  add_eq_ok.mpr ⟨⟨lower, upper⟩, rfl⟩

theorem mul_of_bounds {a b : ℤ} (lower : -2 ^ 63 ≤ a * b) (upper : a * b < 2 ^ 63) :
    mul a b = .ok (a * b) :=
  mul_eq_ok.mpr ⟨⟨lower, upper⟩, rfl⟩

/-- `std::stoll` on a text that holds decimal digits only. -/
def stoll (digits : List Char) : Except Exception ℤ :=
  let n := Nat.ofDigitChars 10 digits 0
  if n ≤ longLongMax then .ok n else .error (.outOfRange "stoll")

theorem ok_bind {α β : Type} (a : α) (f : α → Except Exception β) : (Except.ok a >>= f) = f a := rfl

theorem error_bind {α β : Type} (e : Exception) (f : α → Except Exception β) :
    ((Except.error e : Except Exception α) >>= f) = .error e := rfl

theorem bind_eq_ok {α β : Type} {x : Except Exception α} {f : α → Except Exception β} {b : β} :
    (x >>= f) = .ok b ↔ ∃ a, x = .ok a ∧ f a = .ok b := by
  cases x <;> simp [bind, Except.bind]

theorem bind_eq_error {α β : Type} {x : Except Exception α} {f : α → Except Exception β}
    {e : Exception} :
    (x >>= f) = .error e ↔ x = .error e ∨ ∃ a, x = .ok a ∧ f a = .error e := by
  cases x <;> simp [bind, Except.bind]

@[simp] theorem add_ne_invalidArgument {a b : ℤ} {what : String} :
    add a b ≠ .error (.invalidArgument what) := by
  unfold add
  split <;> simp

@[simp] theorem mul_ne_invalidArgument {a b : ℤ} {what : String} :
    mul a b ≠ .error (.invalidArgument what) := by
  unfold mul
  split <;> simp

end Cxx

/-- `std::chrono::system_clock::time_point`, measured in nanoseconds. The clock is taken to count
whole microseconds in an `int64`. -/
abbrev TimePoint := ℤ

/-- `std::chrono::seconds`. -/
abbrev Seconds := ℤ

def TimePoint.addSeconds (t : TimePoint) (s : Seconds) : TimePoint := t + s * 1000000000

end WorkflowEngine
