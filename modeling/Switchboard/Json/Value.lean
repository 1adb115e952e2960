import Switchboard.Decimal.Shortest

/-!
# JSON values

Values as trees.  An object is a list of named members; a name is looked up at its first
occurrence, and `insert` keeps rising names rising.

    find? (insert ms k v) k = some v
    find? (insert ms k v) j = find? ms j      for j ≠ k
-/

namespace Switchboard.Json

/-- A numeral: integers that fit 64 bits, signed or unsigned, are exact, all others are doubles. -/
inductive Number where
  | integer (n : Int)
  | double (d : Double)
  deriving DecidableEq, Repr

inductive Value where
  | null
  | bool (b : Bool)
  | number (n : Number)
  | string (s : String)
  | array (items : List Value)
  | object (members : List (String × Value))
  deriving Repr

abbrev Members := List (String × Value)

namespace Members

/-! ## Algorithm -/

def find? : Members → String → Option Value
  | [], _ => none
  | (k, v) :: rest, key => if k = key then some v else find? rest key

/-- Sets the member `key`, in front of the first greater name if it is new. -/
def insert : Members → String → Value → Members
  | [], key, v => [(key, v)]
  | (k, w) :: rest, key, v =>
    if key < k then (key, v) :: (k, w) :: rest
    else if k = key then (key, v) :: rest
    else (k, w) :: insert rest key v

/-- The members by rising name; of equal names the last one stays. -/
def ofList (ms : List (String × Value)) : Members :=
  ms.foldl (fun acc m => acc.insert m.1 m.2) []

/-! ## Lemmas -/

theorem find?_insert_self (ms : Members) (key : String) (v : Value) :
    (ms.insert key v).find? key = some v := by
  induction ms with
  | nil => simp [insert, find?]
  | cons m rest ih =>
    obtain ⟨k, w⟩ := m
    unfold insert
    split
    · simp [find?]
    · split
      · simp [find?]
      · next h => simp [find?, h, ih]

theorem find?_insert_of_ne (ms : Members) (key j : String) (v : Value) (h : j ≠ key) :
    (ms.insert key v).find? j = ms.find? j := by
  induction ms with
  | nil => simp [insert, find?, Ne.symm h]
  | cons m rest ih =>
    obtain ⟨k, w⟩ := m
    unfold insert
    split
    · simp [find?, Ne.symm h]
    · split
      · next hk => subst hk; simp [find?, Ne.symm h]
      · simp [find?, ih]

end Members

end Switchboard.Json
