import Switchboard.Tls.Material

/-!
# Tagged elements

Elements of a tag, a length and a content, one inside the other, and the shapes by which
certificates and private keys are told from other octets.

    elements? (t :: n :: content) = some [(t, content)]      for n = content.length < 128
    judge m = ok () → the first certificate and the key of m have their shapes
-/

namespace Switchboard.Tls.Der

abbrev Element := UInt8 × Bytes

/-! ## Algorithm -/

def numberOf (b : Bytes) : Nat := b.foldl (fun n d => n * 256 + d.toNat) 0

/-- The length in front of a content, and what follows it. -/
def length? : Bytes → Option (Nat × Bytes)
  | [] => none
  | b :: rest =>
    if b < 128 then some (b.toNat, rest)
    else
      let n := b.toNat - 128
      if n = 0 || 4 < n || rest.length < n then none
      else some (numberOf (rest.take n), rest.drop n)

def elementsFrom : Nat → Bytes → Option (List Element)
  | _, [] => some []
  | 0, _ :: _ => none
  | fuel + 1, tag :: rest =>
    match length? rest with
    | none => none
    | some (n, rest') =>
      if rest'.length < n then none
      else (elementsFrom fuel (rest'.drop n)).map ((tag, rest'.take n) :: ·)

/-- The elements that make up the octets. -/
def elements? (b : Bytes) : Option (List Element) := elementsFrom b.length b

def sequence : UInt8 := 0x30

def integer : UInt8 := 0x02

def bitString : UInt8 := 0x03

def octetString : UInt8 := 0x04

/-- The tags inside a single sequence. -/
def insideSequence? (b : Bytes) : Option (List UInt8) :=
  match elements? b with
  | some [(tag, content)] =>
    if tag = sequence then (elements? content).map (·.map (·.1)) else none
  | _ => none

/-- A signed body, how it is signed, and the signature. -/
def isCertificate (b : Bytes) : Bool := insideSequence? b == some [sequence, sequence, bitString]

/-- A version, an algorithm and a key inside a string. -/
def isWrappedKey (b : Bytes) : Bool :=
  match insideSequence? b with
  | some tags => [integer, sequence, octetString].isPrefixOf tags
  | none => false

/-- A version and the eight numbers of the key. -/
def isRsaKey (b : Bytes) : Bool := insideSequence? b == some (List.replicate 9 integer)

/-- A version and the key in a string. -/
def isCurveKey (b : Bytes) : Bool :=
  match insideSequence? b with
  | some tags => [integer, octetString].isPrefixOf tags
  | none => false

/-- Does the key have the shape that its label promises? -/
def keyFits (k : Pem.Entry) : Bool :=
  match k.kind with
  | .privateKey => isWrappedKey k.der
  | .rsaKey => isRsaKey k.der
  | .ecKey => isCurveKey k.der
  | _ => false

/-- A verdict on the shapes alone; that chain and key belong together is not looked into. -/
def judge : Verdict := fun m =>
  if (m.chain.head?.any isCertificate) && keyFits m.key then .ok () else .error "unknown shape"

end Switchboard.Tls.Der
