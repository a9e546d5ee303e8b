import Mathlib.Data.List.Basic
import Mathlib.Data.Int.Notation

set_option autoImplicit false

/-!
# Values of JSON

The values of JSON as they are written, over a type of texts and a type of numbers, and how a
program reads fields of an object that may be absent or of another type.

## Main definitions

* `Json` — the values.
* `Json.field`, `Json.asObject`, `Json.asList`, `Json.asText`, `Json.asBool`, `Json.asNumber` —
  reading with defaults.
-/

/-- A value of JSON, with texts in `σ` and numbers in `ν`. -/
inductive Json (σ ν : Type) : Type
  | null
  | bool (b : Bool)
  | number (n : ν)
  | text (s : σ)
  | array (values : List (Json σ ν))
  | object (entries : List (σ × Json σ ν))

namespace Json

variable {σ ν : Type}

/-! ## Reading -/

/-- The entries of an object. -/
abbrev Object (ν : Type) : Type :=
  List (String × Json String ν)

/-- A field; an absent one is null. -/
def field (o : Object ν) (key : String) : Json String ν :=
  (o.lookup key).getD .null

/-- The field is there. -/
def has (o : Object ν) (key : String) : Bool :=
  (o.lookup key).isSome

def asObject? : Json String ν → Option (Object ν)
  | .object o => some o
  | _ => none

/-- The entries of an object; any other value has none. -/
def asObject (v : Json String ν) : Object ν :=
  v.asObject?.getD []

def asList : Json String ν → List (Json String ν)
  | .array vs => vs
  | _ => []

def asText : Json String ν → String
  | .text s => s
  | _ => ""

def asBool : Json String ν → Bool
  | .bool b => b
  | _ => false

def asNumber (toInt : ν → ℤ) : Json String ν → ℤ
  | .number n => toInt n
  | _ => 0

end Json
