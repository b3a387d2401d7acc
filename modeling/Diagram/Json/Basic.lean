/-!
JSON values, and how records and variants are laid out in them.

A record is an object with a member for each field; the fields may also stand in an array, in their
order. A variant is an object with the name of the variant as its only member, or that name alone
if the variant carries nothing. A variant that has fields of its own carries them in an object.
Numbers are integers; any other number is kept as its text.
-/
namespace Diagram

inductive Json where
  | null
  | boolean (value : Bool)
  | integer (value : Int)
  /-- A number that is not written as an integer. -/
  | decimal (text : String)
  | text (value : String)
  | array (elements : List Json)
  | object (members : List (String × Json))
  deriving Inhabited

namespace Json

/-! ## Writing -/

/-- A member for a part that may be missing. -/
def member? {α : Type} (name : String) (write : α → Json) : Option α → List (String × Json)
  | none => []
  | some a => [(name, write a)]

/-- A value that may be missing, which is then null. -/
def nullable {α : Type} (write : α → Json) : Option α → Json
  | none => .null
  | some a => write a

/-- A variant that carries a value. -/
def variant (name : String) (value : Json) : Json :=
  .object [(name, value)]

/-! ## Reading -/

mutual

/-- The number of values inside each other. -/
def depth : Json → Nat
  | .array elements => depthOfElements elements + 1
  | .object members => depthOfMembers members + 1
  | _ => 1

def depthOfElements : List Json → Nat
  | [] => 0
  | j :: js => max j.depth (depthOfElements js)

def depthOfMembers : List (String × Json) → Nat
  | [] => 0
  | (_, j) :: members => max j.depth (depthOfMembers members)

end

/-- The member of an object with a name. -/
def lookup (name : String) : List (String × Json) → Option Json
  | [] => none
  | (n, j) :: members => if n = name then some j else lookup name members

/-- The members of an object with the given names. Members with other names are passed over. -/
def members? (names : List String) : Json → Option (List (Option Json))
  | .object members => some (names.map fun name => lookup name members)
  | _ => none

/-- The fields of a record with the given names; an array must not hold more elements than there
are fields. -/
def fields? (names : List String) (j : Json) : Option (List (Option Json)) :=
  match j with
  | .array elements =>
    if elements.length ≤ names.length then
      some (elements.map some ++ List.replicate (names.length - elements.length) none)
    else none
  | _ => j.members? names

/-- The name of a variant, and the value it carries. -/
def variant? : Json → Option (String × Option Json)
  | .text name => some (name, none)
  | .object [(name, value)] => some (name, some value)
  | _ => none

/-- The name of a variant that carries nothing. -/
def unit? (j : Json) : Option String :=
  match j.variant? with
  | some (name, none) | some (name, some .null) => some name
  | _ => none

/-- A field that may be null or missing. -/
def optional? {α : Type} (read : Json → Option α) : Option Json → Option (Option α)
  | none | some .null => some none
  | some j => (read j).map some

/-- A field that may be missing and then has a given value. -/
def default? {α : Type} (missing : α) (read : Json → Option α) : Option Json → Option α
  | none => some missing
  | some j => read j

def boolean? : Json → Option Bool
  | .boolean value => some value
  | _ => none

def text? : Json → Option String
  | .text value => some value
  | _ => none

def array? : Json → Option (List Json)
  | .array elements => some elements
  | _ => none

/-- A natural number up to a limit. -/
def natural? (limit : Nat) : Json → Option Nat
  | .integer n => if 0 ≤ n && n ≤ limit then some n.toNat else none
  | _ => none

end Json

end Diagram
