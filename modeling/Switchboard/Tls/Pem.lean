import Switchboard.Text.Quoted
import Switchboard.Tls.Base64

/-!
# PEM files

Sections of base64 between a line that opens them under a label and one that closes them.  Lines
outside sections are passed over, and so are sections of labels that mean nothing here.

    entries (render k der ++ rest) = ok ⟨k, der⟩ :: entries rest
-/

namespace Switchboard.Pem

/-- What a section holds. -/
inductive Kind where
  | certificate
  | publicKey
  | rsaKey
  | privateKey
  | ecKey
  | revocationList
  | request
  | helloConfig
  deriving DecidableEq, Repr

structure Entry where
  kind : Kind
  der : Bytes
  deriving DecidableEq, Repr

inductive Error where
  | badStart (line : Bytes)
  | unclosed (label : Bytes)
  | badBody (e : Base64.Error)
  deriving DecidableEq, Repr

def Error.message : Error → String
  | badStart line => "illegal section start: " ++ Text.quoted (Text.lenient line)
  | unclosed label => "section end " ++ Text.quoted (Text.lenient label) ++ " missing"
  | badBody e => e.message

/-! ## Algorithm -/

def Kind.label : Kind → String
  | certificate => "CERTIFICATE"
  | publicKey => "PUBLIC KEY"
  | rsaKey => "RSA PRIVATE KEY"
  | privateKey => "PRIVATE KEY"
  | ecKey => "EC PRIVATE KEY"
  | revocationList => "X509 CRL"
  | request => "CERTIFICATE REQUEST"
  | helloConfig => "ECHCONFIG"

def Kind.all : List Kind :=
  [.certificate, .publicKey, .rsaKey, .privateKey, .ecKey, .revocationList, .request, .helloConfig]

def Kind.ofLabel? (label : Bytes) : Option Kind :=
  Kind.all.find? fun k => Text.bytes k.label == label

/-- Lines end at either line character, which stays with them; `line` is held back to front. -/
def lines : Bytes → Bytes → List Bytes
  | [], [] => []
  | line, [] => [line.reverse]
  | line, b :: rest =>
    if b = 10 || b = 13 then (b :: line).reverse :: lines [] rest else lines (b :: line) rest

def opening : Bytes := Text.bytes "-----BEGIN "

def closing (label : Bytes) : Bytes := Text.bytes "-----END " ++ label ++ Text.bytes "-----"

/-- The number of dashes at the end of a line and the line in front of them, both taken back to
front; blanks and line ends between the dashes and behind them do not count. -/
def trailer : Nat → Bytes → Bytes → Nat × Bytes
  | count, front, [] => (count, front)
  | count, front, b :: rest =>
    if b = 45 then trailer (count + 1) rest rest
    else if b = 10 || b = 13 || b = 32 then trailer count front rest
    else (count, front)

/-- The label that a line opens a section under. -/
def labelOf? (line : Bytes) : Option Bytes :=
  let (count, front) := trailer 0 line.reverse line.reverse
  if count = 5 then some (front.reverse.drop opening.length) else none

/-- The entries of the lines in order, up to the first error; `label` is that of the open section
and `body` what it holds so far. -/
def entriesFrom (label : Option Bytes) (body : Bytes) : List Bytes → List (Except Error Entry)
  | [] =>
    match label with
    | none => []
    | some l => [.error (.unclosed l)]
  | line :: rest =>
    if opening.isPrefixOf line then
      match labelOf? line with
      | none => [.error (.badStart line)]
      | some l => entriesFrom (some l) body rest
    else
      match label with
      | none => entriesFrom none body rest
      | some l =>
        if (closing l).isPrefixOf line then
          match Kind.ofLabel? l with
          | none => entriesFrom none [] rest
          | some k =>
            match Base64.decode body with
            | .error e => [.error (.badBody e)]
            | .ok der => .ok ⟨k, der⟩ :: entriesFrom none [] rest
        else entriesFrom (some l) (body ++ line) rest

def entries (file : Bytes) : List (Except Error Entry) := entriesFrom none [] (lines [] file)

/-- All certificates, if no section is at fault. -/
def certificates (file : Bytes) : Except Error (List Bytes) :=
  (entries file).foldr
    (fun e acc =>
      match e with
      | .error e => .error e
      | .ok e => if e.kind = .certificate then acc.map (e.der :: ·) else acc)
    (.ok [])

def Kind.isKey : Kind → Bool
  | rsaKey | privateKey | ecKey => true
  | _ => false

/-- The first private key; what comes behind it is not looked at. -/
def firstKeyOf : List (Except Error Entry) → Except Error (Option Entry)
  | [] => .ok none
  | .error e :: _ => .error e
  | .ok e :: rest => if e.kind.isKey then .ok (some e) else firstKeyOf rest

def firstKey (file : Bytes) : Except Error (Option Entry) := firstKeyOf (entries file)

/-! ## Writing -/

/-- A section whose body stands on one line. -/
def render (e : Entry) : Bytes :=
  opening ++ Text.bytes e.kind.label ++ Text.bytes "-----\n" ++ Base64.encode e.der ++ [10] ++
    closing (Text.bytes e.kind.label) ++ [10]

end Switchboard.Pem
