import Switchboard.Config.Settings
import Switchboard.Files
import Switchboard.Tls.Pem

/-!
# Certificate chain and private key

What encrypted connections are served with: all certificates of one file and the first private key
of another.  Whether they can be served with is for others to judge.

    load fs t = ok m → m.chain ≠ [] and m.key is the first key of its file
    prepare judge fs t = ok m ↔ load fs t = ok m and judge m = ok ()
-/

namespace Switchboard.Tls

structure Material where
  chain : List Bytes
  key : Pem.Entry
  deriving Repr

/-- What is said of a chain and a key: nothing, or why they cannot be served with. -/
abbrev Verdict := Material → Except String Unit

inductive Error where
  | certificateUnset
  | keyUnset
  | chainUnreadable (path : String) (e : FileError)
  | chainBroken (path : String) (e : Pem.Error)
  | chainEmpty (path : String)
  | keyUnreadable (path : String) (e : FileError)
  | keyBroken (path : String) (e : Pem.Error)
  | keyAbsent (path : String)
  | pairRefused (reason : String)
  deriving Repr

namespace Error

def message : Error → String
  | certificateUnset => "security.tls.certificate_path must be set"
  | keyUnset => "security.tls.private_key_path must be set"
  | chainUnreadable path _ => "failed to read TLS certificate chain at " ++ path
  | chainBroken path _ => "failed to parse TLS certificate chain at " ++ path
  | chainEmpty path => "no certificates were found in " ++ path
  | keyUnreadable path _ => "failed to read TLS private key at " ++ path
  | keyBroken path _ => "failed to parse PEM entry in " ++ path
  | keyAbsent path => "no supported private key (pkcs8/pkcs1/sec1) was found in " ++ path
  | pairRefused reason => "invalid TLS certificate/private key pair: " ++ reason

/-- What lies behind an error, if it has another one behind it. -/
def cause : Error → Option String
  | chainUnreadable _ e | keyUnreadable _ e => some e.message
  | chainBroken _ e | keyBroken _ e => some e.message
  | _ => none

end Error

/-! ## Algorithm -/

/-- The certificates of a file, of which there must be one. -/
def loadChain (fs : Files) (path : String) : Except Error (List Bytes) :=
  match fs.read path with
  | .error e => .error (.chainUnreadable path e)
  | .ok file =>
    match Pem.certificates file with
    | .error e => .error (.chainBroken path e)
    | .ok [] => .error (.chainEmpty path)
    | .ok chain => .ok chain

def loadKey (fs : Files) (path : String) : Except Error Pem.Entry :=
  match fs.read path with
  | .error e => .error (.keyUnreadable path e)
  | .ok file =>
    match Pem.firstKey file with
    | .error e => .error (.keyBroken path e)
    | .ok none => .error (.keyAbsent path)
    | .ok (some key) => .ok key

/-- Chain and key as they stand in the files. -/
def load (fs : Files) (t : TlsSettings) : Except Error Material :=
  match t.certificatePath, t.privateKeyPath with
  | none, _ => .error .certificateUnset
  | some _, none => .error .keyUnset
  | some certificate, some key =>
    match loadChain fs certificate with
    | .error e => .error e
    | .ok chain => (loadKey fs key).map fun k => ⟨chain, k⟩

/-- Chain and key that can be served with. -/
def prepare (judge : Verdict) (fs : Files) (t : TlsSettings) : Except Error Material :=
  match load fs t with
  | .error e => .error e
  | .ok m =>
    match judge m with
    | .ok () => .ok m
    | .error reason => .error (.pairRefused reason)

/-- The protocols that are offered. -/
def protocols : List String := ["http/1.1"]

end Switchboard.Tls
