import Switchboard.Json.Value

/-!
# Documents as trees of named members

Looking up, laying one document over another, and setting a value below a path.

    at? (overlay below above) p = at? above p      where above has a non-object at p
    at? (place v path w) path = some w
-/

namespace Switchboard.Json.Value

/-! ## Algorithm -/

/-- The value below a path of names. -/
def at? : Value → List String → Option Value
  | v, [] => some v
  | .object ms, key :: path =>
    match Members.find? ms key with
    | some v => v.at? path
    | none => none
  | _, _ :: _ => none

mutual

/-- Lays the second value over the first: objects member by member, all else as a whole. -/
def overlay : Value → Value → Value
  | .object ms, .object upper => .object (overlayMembers ms upper)
  | _, above => above

def overlayMembers : List (String × Value) → List (String × Value) → List (String × Value)
  | ms, [] => ms
  | ms, (key, v) :: upper =>
    let below := match Members.find? ms key with
      | some old => old.overlay v
      | none => v
    overlayMembers (Members.insert ms key below) upper

end

/-- Sets the value below a path; what stands in its way and is no object gives way to one. -/
def place : Value → List String → Value → Value
  | _, [], w => w
  | v, key :: path, w =>
    let ms : Members := match v with
      | .object ms => ms
      | _ => []
    .object (ms.insert key (((ms.find? key).getD .null).place path w))

mutual

/-- The same value with the members of every object by rising name. -/
def sorted : Value → Value
  | .array vs => .array (sortedItems vs)
  | .object ms => .object (Members.ofList (sortedMembers ms))
  | v => v

def sortedItems : List Value → List Value
  | [] => []
  | v :: vs => v.sorted :: sortedItems vs

def sortedMembers : List (String × Value) → List (String × Value)
  | [] => []
  | (k, v) :: ms => (k, v.sorted) :: sortedMembers ms

end

end Switchboard.Json.Value
