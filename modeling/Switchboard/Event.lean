import Switchboard.Config.Level
import Switchboard.Frame

/-!
# Events

What a relay reports while it works: a level, a message, and named texts.
-/

namespace Switchboard

structure Event where
  level : Level
  message : String
  fields : List (String × String)
  deriving DecidableEq, Repr

namespace Event

/-- The field that names a peer. -/
def peer (p : PeerId) : String × String := ("peer_id", toString p)

/-- The field for the failure of something. -/
def failure (text : String) : String × String := ("error", text)

end Event

end Switchboard
