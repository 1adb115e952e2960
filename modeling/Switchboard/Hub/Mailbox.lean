import Switchboard.Hub.Peers

/-!
# Mailboxes

The frames that wait for one connection, in order and of bounded number, with two ways to end it:
its close signal, which anybody may raise, and the closing of its reading end.

    offer m f = ok m' → m'.frames = m.frames ++ [f]
    m.closing → offer m f = error closed
-/

namespace Switchboard

/-- The reading end: open, closed with what waits still readable, or gone. -/
inductive Outlet where
  | open
  | closed
  | gone
  deriving DecidableEq, Repr

structure Mailbox where
  peer : PeerId
  capacity : Nat
  frames : List Frame
  outlet : Outlet
  closing : Bool
  deriving DecidableEq, Repr

/-- Why a frame is not taken. -/
inductive Refusal where
  | full
  | closed
  deriving DecidableEq, Repr

def Refusal.kind : Refusal → String
  | full => "queue_full"
  | closed => "closed"

def Refusal.message (p : PeerId) : Refusal → String
  | full => "outbound queue for peer " ++ toString p ++ " is full"
  | closed => "connection for peer " ++ toString p ++ " is closing"

namespace Mailbox

/-! ## Algorithm -/

def new (p : PeerId) (capacity : Nat) : Mailbox := ⟨p, capacity, [], .open, false⟩

def refusal? (m : Mailbox) : Option Refusal :=
  if m.closing || m.outlet ≠ .open then some .closed
  else if m.capacity ≤ m.frames.length then some .full
  else none

/-- Puts a frame behind those that wait. -/
def offer (m : Mailbox) (f : Frame) : Except Refusal Mailbox :=
  match m.refusal? with
  | some r => .error r
  | none => .ok { m with frames := m.frames ++ [f] }

/-- Takes at most `most` frames; all of them if nothing is said. -/
def take (m : Mailbox) (most : Option Nat) : List Frame × Mailbox :=
  let n := most.getD m.frames.length
  (m.frames.take n, { m with frames := m.frames.drop n })

def close (m : Mailbox) : Mailbox := { m with closing := true }

/-- Closes the reading end; a closed one stays as it is. -/
def shut (m : Mailbox) : Mailbox :=
  { m with outlet := match m.outlet with
      | .gone => .gone
      | _ => .closed }

/-- Removes the reading end and what waits there. -/
def discard (m : Mailbox) : Mailbox := { m with outlet := .gone, frames := [] }

/-! ## Lemmas -/

theorem refusal?_eq_none_iff (m : Mailbox) :
    m.refusal? = none ↔ m.closing = false ∧ m.outlet = .open ∧ m.frames.length < m.capacity := by
  unfold refusal?
  split
  · next h => simp at h; rcases h with h | h <;> simp [h]
  · next h =>
    simp at h
    split <;> simp [h] <;> omega

theorem take_append (m : Mailbox) (most : Option Nat) :
    (m.take most).1 ++ (m.take most).2.frames = m.frames := List.take_append_drop _ _

end Mailbox

end Switchboard
