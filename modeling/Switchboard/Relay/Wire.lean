import Switchboard.Frame

/-!
# The way to a client

Frames on their way from the relay to one client: the bytes that the way holds wait at its end,
and what does not fit stays on this side until the client reads.

    send w f = ok w' → w'.frames = w.frames ++ [f]
    used + pending = bytes of the frames under way
-/

namespace Switchboard.Relay

structure Wire where
  capacity : Nat
  frames : List Frame := []
  used : Nat := 0
  pending : Nat := 0
  broken : Bool := false
  deriving Repr

namespace Wire

/-! ## Algorithm -/

/-- Moves as many bytes on as there is room for. -/
def flow (w : Wire) : Wire :=
  let n := min w.pending (w.capacity - w.used)
  { w with used := w.used + n, pending := w.pending - n }

/-- Hands over a frame; none if the way is broken. -/
def send? (w : Wire) (f : Frame) : Option Wire :=
  if w.broken then none
  else some { w with frames := w.frames ++ [f], pending := w.pending + f.wireSize }.flow

/-- Hands over frames, one behind the other. -/
def sendAll (w : Wire) (fs : List Frame) : Wire := fs.foldl (fun w f => (w.send? f).getD w) w

/-- The frames that lie wholly within the first `n` bytes. -/
def whole : Nat → List Frame → List Frame
  | _, [] => []
  | n, f :: fs => if f.wireSize ≤ n then f :: whole (n - f.wireSize) fs else []

/-- What a client gets that reads on, and the way after that. -/
def drain (w : Wire) : List Frame × Wire :=
  if w.broken && w.pending ≠ 0 then (whole w.used w.frames, { w with frames := [], used := 0 })
  else (w.frames, { w with frames := [], used := 0, pending := 0 })

/-- The way once this side is gone: what did not leave it is lost. -/
def cut (w : Wire) : Wire := { w with frames := whole w.used w.frames, pending := 0 }

def isClear (w : Wire) : Bool := w.pending == 0

/-- Will the next attempt to move bytes be made? -/
def hasRoom (w : Wire) : Bool := w.used < w.capacity

/-! ## Lemmas -/

theorem frames_send {w w' : Wire} {f : Frame} (h : w.send? f = some w') :
    w'.frames = w.frames ++ [f] := by
  unfold send? at h
  split at h
  · simp at h
  · cases h; rfl

theorem broken_send {w w' : Wire} {f : Frame} (h : w.send? f = some w') : w'.broken = w.broken := by
  unfold send? at h
  split at h
  · cases h
  · cases h; rfl

theorem sendAll_of_broken {w : Wire} {fs : List Frame} (h : w.broken = true) :
    w.sendAll fs = w := by
  induction fs with
  | nil => rfl
  | cons f fs ih => rwa [sendAll, List.foldl_cons, send?, if_pos h]

theorem frames_sendAll {w : Wire} (fs : List Frame) (h : w.broken = false) :
    (w.sendAll fs).frames = w.frames ++ fs := by
  induction fs generalizing w with
  | nil => exact (List.append_nil _).symm
  | cons f fs ih =>
    obtain ⟨w', hw⟩ : ∃ w', w.send? f = some w' := by simp [send?, h]
    have hstep : w.sendAll (f :: fs) = w'.sendAll fs := by rw [sendAll, List.foldl_cons, hw]; rfl
    rw [hstep, ih ((broken_send hw).trans h), frames_send hw, List.append_assoc]
    rfl

theorem drain_of_isClear {w : Wire} (h : w.pending = 0) : w.drain.1 = w.frames := by
  simp [drain, h]

end Wire

end Switchboard.Relay
