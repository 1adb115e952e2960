import Switchboard.Assets
import Switchboard.Http.Answer
import Switchboard.Hub.Basic
import Switchboard.Json.Print
import Switchboard.Text.Numeral
import Switchboard.Text.Percent

/-!
# Routes

Where a request goes: the health of the relay, its counters, a socket for one peer, or the assets
if there are any.  Paths are compared as they are written.

    peerOf seg = ok n ↔ seg, unescaped, is a numeral of n and n fits 64 bits
-/

namespace Switchboard.Http

inductive Route where
  | health
  | metrics
  | socket (segment : String)
  | other
  deriving DecidableEq, Repr

/-! ## Routes -/

def socketStart : List Char := "/websocket/".toList

def Route.ofPath (path : String) : Route :=
  if path = "/health" then health
  else if path = "/metrics" then metrics
  else if socketStart.isPrefixOf path.toList then
    let segment := path.toList.drop socketStart.length
    if segment.isEmpty || segment.contains '/' then other else socket (String.ofList segment)
  else other

/-! ## Identifiers -/

def plainText : String := "text/plain; charset=utf-8"

def sentence (status : Nat) (text : String) : Answer := .full status plainText (Text.bytes text)

/-- The peer that a segment of a path names, or the answer that it names none. -/
def peerOf (segment : String) : Except Answer PeerId :=
  match Text.text? (Text.unescape (Text.bytes segment)) with
  | none => .error (sentence 400 "Invalid URL: Invalid UTF-8 in `peer_id`")
  | some s =>
    match Text.integer? s.toList with
    | some n => .ok n
    | none => .error (sentence 400 ("Invalid URL: Cannot parse `" ++ s ++ "` to a `i64`"))

/-! ## Upgrades -/

def header? (r : Request) (name : String) : Option String := r.headers.lookup name

/-- Does the text stand somewhere in the other? -/
def occursIn (needle : List Char) : List Char → Bool
  | [] => needle.isEmpty
  | c :: rest => needle.isPrefixOf (c :: rest) || occursIn needle rest

def headerIs (r : Request) (name text : String) : Bool :=
  (header? r name).any fun v => Text.lowerAscii v == text

/-- What a request for a socket is refused with; none if only a connection to upgrade is wanting. -/
def upgradeRefusal? (r : Request) : Option Answer :=
  if r.method ≠ "GET" then some (sentence 405 "Request method must be `GET`")
  else if !((header? r "connection").any fun v =>
      occursIn "upgrade".toList (Text.lowerAscii v).toList) then
    some (sentence 400 "Connection header did not include 'upgrade'")
  else if !headerIs r "upgrade" "websocket" then
    some (sentence 400 "`Upgrade` header did not include 'websocket'")
  else if (header? r "sec-websocket-key").isNone then
    some (sentence 400 "`Sec-WebSocket-Key` header missing")
  else if !headerIs r "sec-websocket-version" "13" then
    some (sentence 400 "`Sec-WebSocket-Version` header did not include '13'")
  else none

def notUpgradable : Answer :=
  sentence 426 "WebSocket request couldn't be upgraded since no upgrade state was present"

/-! ## Answers -/

/-- The counters and who is online, as a document. -/
def metricsBody (h : Hub) : String :=
  Json.compact (.object [
    ("relay", h.counters.toValue),
    ("peers", .object [
      ("count", .number (.integer h.online.length)),
      ("peerIds", .array (h.online.map fun p => .number (.integer p)))])])

def healthAnswer (h : Hub) : Answer := if h.healthy then sentence 200 "OK" else .empty 503

/-- The answer of a route that only gives something out. -/
def reading (r : Request) (a : Answer) : Answer :=
  if r.method = "GET" || r.method = "HEAD" then a.forMethod r.method
  else { Answer.empty 405 with allow := some "GET,HEAD" }

/-- Files and the directory that is served from them. -/
abbrev Site := Option (Files × String)

/-- Answers a request that cannot become a socket. -/
def answer (h : Hub) (site : Site) (r : Request) : Answer × List Event :=
  match Route.ofPath r.path with
  | .health => (reading r (healthAnswer h), [])
  | .metrics => (reading r (.full 200 "application/json" (Text.bytes (metricsBody h))), [])
  | .socket _ => (reading r ((upgradeRefusal? r).getD notUpgradable), [])
  | .other =>
    match site with
    | some (files, root) => Assets.serve files root r
    | none => (.bare 404, [])

end Switchboard.Http
