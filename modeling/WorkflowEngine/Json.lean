import WorkflowEngine.Cxx

/-!
# JSON values

Values of the storage library's JSON type, with 64-bit integers and an
uninterpreted word for a floating-point number. The accessors fail on a
missing key and on a value of another type.
-/

namespace WorkflowEngine

inductive Json where
  | null
  | bool (b : Bool)
  | int64 (i : Int64)
  | double (bits : UInt64)
  | string (s : String)
  | array (items : List Json)
  | object (fields : List (String × Json))

namespace Json

/-- `mt::Json::Object`. -/
abbrev Object := List (String × Json)

mutual
def decEq : (a b : Json) → Decidable (a = b)
  | .null, .null => isTrue rfl
  | .bool a, .bool b => decidable_of_iff (a = b) (by simp)
  | .int64 a, .int64 b => decidable_of_iff (a = b) (by simp)
  | .double a, .double b => decidable_of_iff (a = b) (by simp)
  | .string a, .string b => decidable_of_iff (a = b) (by simp)
  | .array as, .array bs =>
    have := decEqItems as bs
    decidable_of_iff (as = bs) (by simp)
  | .object as, .object bs =>
    have := decEqFields as bs
    decidable_of_iff (as = bs) (by simp)
  | .null, .bool _ | .null, .int64 _ | .null, .double _ | .null, .string _
  | .null, .array _ | .null, .object _ | .bool _, .null | .bool _, .int64 _
  | .bool _, .double _ | .bool _, .string _ | .bool _, .array _ | .bool _, .object _
  | .int64 _, .null | .int64 _, .bool _ | .int64 _, .double _ | .int64 _, .string _
  | .int64 _, .array _ | .int64 _, .object _ | .double _, .null | .double _, .bool _
  | .double _, .int64 _ | .double _, .string _ | .double _, .array _ | .double _, .object _
  | .string _, .null | .string _, .bool _ | .string _, .int64 _ | .string _, .double _
  | .string _, .array _ | .string _, .object _ | .array _, .null | .array _, .bool _
  | .array _, .int64 _ | .array _, .double _ | .array _, .string _ | .array _, .object _
  | .object _, .null | .object _, .bool _ | .object _, .int64 _ | .object _, .double _
  | .object _, .string _ | .object _, .array _ => isFalse (by simp)

def decEqItems : (as bs : List Json) → Decidable (as = bs)
  | [], [] => isTrue rfl
  | [], _ :: _ | _ :: _, [] => isFalse (by simp)
  | a :: as, b :: bs =>
    have := decEq a b
    have := decEqItems as bs
    decidable_of_iff (a = b ∧ as = bs) (by simp)

def decEqFields : (as bs : List (String × Json)) → Decidable (as = bs)
  | [], [] => isTrue rfl
  | [], _ :: _ | _ :: _, [] => isFalse (by simp)
  | (k, a) :: as, (l, b) :: bs =>
    have := decEq a b
    have := decEqFields as bs
    decidable_of_iff (k = l ∧ a = b ∧ as = bs) (by simp [and_assoc])
end

instance : DecidableEq Json := decEq

def Object.count (o : Object) (key : String) : Bool := o.any fun f => f.1 == key

def Object.get? (o : Object) (key : String) : Option Json :=
  (o.find? fun f => f.1 == key).map Prod.snd

def Object.erase (o : Object) (key : String) : Object := o.filter fun f => f.1 != key

def isNull : Json → Bool | .null => true | _ => false
def isBool : Json → Bool | .bool _ => true | _ => false
def isInt64 : Json → Bool | .int64 _ => true | _ => false
def isString : Json → Bool | .string _ => true | _ => false
def isArray : Json → Bool | .array _ => true | _ => false
def isObject : Json → Bool | .object _ => true | _ => false

def asBool : Json → Except Exception Bool
  | .bool b => .ok b
  | _ => .error (.access "json value is not a bool")

def asInt64 : Json → Except Exception Int64
  | .int64 i => .ok i
  | _ => .error (.access "json value is not an int64")

def asString : Json → Except Exception String
  | .string s => .ok s
  | _ => .error (.access "json value is not a string")

def asArray : Json → Except Exception (List Json)
  | .array items => .ok items
  | _ => .error (.access "json value is not an array")

def asObject : Json → Except Exception Object
  | .object fields => .ok fields
  | _ => .error (.access "json value is not an object")

/-- `value.at(key)`. -/
def «at» (value : Json) (key : String) : Except Exception Json := do
  match (← value.asObject).get? key with
  | some v => return v
  | none => throw (.access "json key is missing")

/-- `value.is_object() && value.as_object().count(key)`. -/
def has (value : Json) (key : String) : Except Exception Bool := do
  if value.isObject then
    return (← value.asObject).count key
  return false

theorem Object.count_iff {o : Object} {key : String} :
    o.count key = true ↔ ∃ v, o.get? key = some v := by
  induction o with
  | nil => simp [count, get?]
  | cons f o ih =>
    by_cases hf : f.1 = key
    · simp [count, get?, hf]
    · simpa [count, get?, hf] using ih

theorem Object.count_eq (o : Object) (key : String) : o.count key = (o.get? key).isSome := by
  rw [Bool.eq_iff_iff, Object.count_iff, Option.isSome_iff_exists]

@[simp] theorem has_object (o : Object) (key : String) : has (.object o) key = .ok (o.count key) := rfl

@[simp] theorem at_object (o : Object) (key : String) {v : Json} (h : o.get? key = some v) :
    Json.at (.object o) key = .ok v := by
  simp only [Json.at, asObject, bind, Except.bind, h]
  rfl

end Json
end WorkflowEngine
