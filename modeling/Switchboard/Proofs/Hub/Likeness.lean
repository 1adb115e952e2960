import Switchboard.Hub.Report
import Switchboard.Proofs.Hub.Work

/-!
# Hubs that nobody else can tell apart

Two hubs that differ in the mailbox of one connection at most, and in how many frames came and how
many of them were violations (`Alike`).  As long as that connection is in nobody's place, every
operation answers the same on both and leaves them alike.

    Alike c h k → (k.route p f).2 = (h.route p f).2 and the hubs after it are alike
    Alike (some c) h k → Alike (some c) (h.updateBox c f) k
-/

namespace Switchboard

/-- All counters but those of the frames that came and of the violations among them. -/
def Counters.pardoned (c : Counters) : Counters := { c with received := 0, violations := 0 }

theorem Counters.pardoned_count {c d : Counters} (h : d.pardoned = c.pardoned) (t : Tally) :
    (d.count t).pardoned = (c.count t).pardoned := by
  cases c
  cases d
  simp only [pardoned, Counters.mk.injEq] at h
  obtain ⟨rfl, rfl, rfl, rfl, rfl, -, rfl, rfl, rfl, -⟩ := h
  cases t <;> rfl

namespace Hub

/-- Two hubs that differ in the mailbox of the connection `c` at most, if one is named; that one is
in nobody's place. -/
structure Alike (c : Option ConnId) (h k : Hub) : Prop where
  policy : k.policy = h.policy
  table : k.table = h.table
  stopping : k.stopping = h.stopping
  fresh : k.fresh = h.fresh
  boxes : ∀ d, c ≠ some d → k.box? d = h.box? d
  counters : k.counters.pardoned = h.counters.pardoned
  known : ∀ d, c = some d → d < h.fresh
  unlisted : ∀ p d, c = some d → h.lookup p ≠ some d

variable {c : Option ConnId} {h k : Hub}

theorem fresh_updateBox (h : Hub) (d : ConnId) (f : Mailbox → Mailbox) :
    (h.updateBox d f).fresh = h.fresh := List.length_modify f h.boxes d

theorem fresh_openBox (h : Hub) (p : PeerId) (n : Nat) : (h.openBox p n).fresh = h.fresh + 1 :=
  List.length_append

/-! ## Questions -/

theorem Alike.refl (h : Hub) : Alike none h h :=
  ⟨rfl, rfl, rfl, rfl, fun _ _ => rfl, rfl, nofun, nofun⟩

theorem Alike.trans {k' : Hub} (a : Alike none h k) (b : Alike none k k') : Alike none h k' :=
  ⟨b.policy.trans a.policy, b.table.trans a.table, b.stopping.trans a.stopping,
    b.fresh.trans a.fresh, fun d hd => (b.boxes d hd).trans (a.boxes d hd),
    b.counters.trans a.counters, nofun, nofun⟩

theorem Alike.lookup (a : Alike c h k) (p : PeerId) : k.lookup p = h.lookup p := by
  rw [Hub.lookup, a.table, Hub.lookup]

theorem Alike.symm (a : Alike c h k) : Alike c k h where
  policy := a.policy.symm
  table := a.table.symm
  stopping := a.stopping.symm
  fresh := a.fresh.symm
  boxes d hd := (a.boxes d hd).symm
  counters := a.counters.symm
  known d hd := by
    rw [a.fresh]
    exact a.known d hd
  unlisted p d hd := by
    rw [a.lookup]
    exact a.unlisted p d hd

theorem Alike.isCurrent (a : Alike c h k) (p : PeerId) (d : ConnId) :
    k.isCurrent p d = h.isCurrent p d := by
  rw [Hub.isCurrent, a.lookup, Hub.isCurrent]

theorem Alike.isClosing (a : Alike c h k) {d : ConnId} (hd : c ≠ some d) :
    k.isClosing d = h.isClosing d := by
  rw [Hub.isClosing, a.boxes d hd, Hub.isClosing]

theorem Alike.listed (a : Alike c h k) {p : PeerId} {d : ConnId} (hl : h.lookup p = some d) :
    c ≠ some d := fun hc => a.unlisted p d hc hl

theorem Alike.routeEvents (a : Alike c h k) (bound : PeerId) (r : Except Violation Outcome) :
    k.routeEvents bound r = h.routeEvents bound r := by
  unfold Hub.routeEvents
  rw [a.policy]

theorem Alike.statusEvent (a : Alike c h k) : k.statusEvent = h.statusEvent := by
  rw [Hub.statusEvent, Hub.onlineText, Hub.online, a.table, Hub.statusEvent, Hub.onlineText,
    Hub.online]

/-! ## Operations on both -/

theorem Alike.tally (a : Alike c h k) (t : Tally) : Alike c (h.tally t) (k.tally t) :=
  ⟨a.policy, a.table, a.stopping, a.fresh, a.boxes, Counters.pardoned_count a.counters t, a.known,
    a.unlisted⟩

theorem Alike.shutdown (a : Alike c h k) : Alike c h.shutdown k.shutdown :=
  ⟨a.policy, a.table, rfl, a.fresh, a.boxes, a.counters, a.known, a.unlisted⟩

theorem Alike.updateBox (a : Alike c h k) (d : ConnId) (f : Mailbox → Mailbox) :
    Alike c (h.updateBox d f) (k.updateBox d f) where
  policy := a.policy
  table := a.table
  stopping := a.stopping
  fresh := by rw [fresh_updateBox, fresh_updateBox, a.fresh]
  boxes e he := by rw [box?_updateBox, box?_updateBox, a.boxes e he]
  counters := a.counters
  known e he := by
    rw [fresh_updateBox]
    exact a.known e he
  unlisted := a.unlisted

theorem Alike.requestClose (a : Alike c h k) (d : ConnId) :
    Alike c (h.requestClose d) (k.requestClose d) := a.updateBox d Mailbox.close

/-- The table may lose entries, and have new ones for connections that are not `c`. -/
theorem Alike.of_table (a : Alike c h k) {t : Peers}
    (ht : ∀ p d, c = some d → t.find? p ≠ some d) :
    Alike c { h with table := t } { k with table := t } :=
  ⟨a.policy, rfl, a.stopping, a.fresh, a.boxes, a.counters, a.known, ht⟩

theorem Alike.unregister (a : Alike c h k) (p : PeerId) :
    Alike c (h.unregister p) (k.unregister p) := by
  have ht : k.unregister p = { k with table := h.table.erase p } := by rw [Hub.unregister, a.table]
  rw [ht]
  exact a.of_table fun q d hc hl => a.unlisted q d hc (lookup_of_lookup_unregister (p := p) hl)

theorem Alike.leave (a : Alike c h k) (p : PeerId) (d : ConnId) :
    Alike c (h.leave p d) (k.leave p d) := by
  unfold Hub.leave
  rw [a.isCurrent]
  split
  · exact a.unregister p
  · exact a

theorem Alike.release (a : Alike c h k) (p : PeerId) (d : ConnId) :
    Alike c (h.release p d) (k.release p d) := (a.leave p d).tally .disconnection

theorem Alike.deliver (a : Alike c h k) {d : ConnId} (hd : c ≠ some d) (f : Frame) :
    (k.deliver d f).2 = (h.deliver d f).2 ∧ Alike c (h.deliver d f).1 (k.deliver d f).1 := by
  unfold Hub.deliver
  rw [a.boxes d hd]
  cases h.box? d with
  | none => exact ⟨rfl, a⟩
  | some m =>
    dsimp only
    cases m.offer f with
    | ok m' => exact ⟨rfl, a.updateBox d _⟩
    | error r => exact ⟨rfl, a⟩

theorem Alike.receive (a : Alike c h k) {d : ConnId} (hd : c ≠ some d) (most : Option Nat) :
    (k.receive d most).1 = (h.receive d most).1 ∧
      Alike c (h.receive d most).2 (k.receive d most).2 := by
  unfold Hub.receive
  rw [a.boxes d hd]
  cases h.box? d with
  | none => exact ⟨rfl, a⟩
  | some m => exact ⟨rfl, a.updateBox d _⟩

theorem Alike.forward (a : Alike c h k) (dest : PeerId) (f : Frame) :
    (k.forward dest f).2 = (h.forward dest f).2 ∧
      Alike c (h.forward dest f).1 (k.forward dest f).1 := by
  unfold Hub.forward
  rw [a.lookup]
  cases hl : h.lookup dest with
  | none => exact ⟨rfl, a.tally .unroutable⟩
  | some d =>
    obtain ⟨hanswer, hafter⟩ := a.deliver (a.listed hl) f
    rcases hh : h.deliver d f with ⟨h', r⟩
    rcases hk : k.deliver d f with ⟨k', r'⟩
    rw [hh, hk] at hanswer hafter
    obtain rfl : r' = r := hanswer
    dsimp only
    rw [hh, hk]
    cases r' with
    | ok u => exact ⟨rfl, hafter.tally .forwarded⟩
    | error e =>
      cases e with
      | full => exact ⟨rfl, hafter.tally .dropped⟩
      | closed => exact ⟨rfl, hafter.tally .unroutable⟩

theorem Alike.route (a : Alike c h k) (bound : PeerId) (f : Frame) :
    (k.route bound f).2 = (h.route bound f).2 ∧
      Alike c (h.route bound f).1 (k.route bound f).1 := by
  unfold Hub.route
  cases accept bound f with
  | error v => exact ⟨rfl, (a.tally .received).tally .violation⟩
  | ok e =>
    obtain ⟨hanswer, hafter⟩ := (a.tally .received).forward e.recipient f
    exact ⟨congrArg Except.ok hanswer, hafter⟩

theorem Alike.openBox (a : Alike c h k) (p : PeerId) (n : Nat) :
    Alike c (h.openBox p n) (k.openBox p n) where
  policy := a.policy
  table := a.table
  stopping := a.stopping
  fresh := by rw [fresh_openBox, fresh_openBox, a.fresh]
  boxes d hd := by rw [box?_openBox, box?_openBox, a.fresh, a.boxes d hd]
  counters := a.counters
  known d hd := by
    rw [fresh_openBox]
    exact Nat.lt_succ_of_lt (a.known d hd)
  unlisted := a.unlisted

theorem Alike.enter (a : Alike c h k) (p : PeerId) {d : ConnId} (hd : c ≠ some d) :
    (k.enter p d).2 = (h.enter p d).2 ∧ Alike c (h.enter p d).1 (k.enter p d).1 := by
  have inserted : Alike c { h with table := h.table.insert p d }
      { k with table := k.table.insert p d } := by
    rw [a.table]
    refine a.of_table fun q e he hl => ?_
    rw [Peers.find?_insert] at hl
    split at hl
    · exact hd (he.trans hl.symm)
    · exact a.unlisted q e he hl
  have hpolicy : k.policy.duplicates = h.policy.duplicates := by rw [a.policy]
  unfold Hub.enter
  rw [a.lookup, hpolicy]
  cases h.lookup p with
  | none => exact ⟨rfl, inserted⟩
  | some old =>
    cases h.policy.duplicates with
    | rejectNew => exact ⟨rfl, a⟩
    | evictExisting => exact ⟨rfl, inserted.requestClose old⟩

theorem Alike.register (a : Alike c h k) (p : PeerId) (n : Nat) :
    (k.register p n).2 = (h.register p n).2 ∧
      Alike c (h.register p n).1 (k.register p n).1 := by
  have hnew : c ≠ some h.fresh := fun hc => Nat.lt_irrefl _ (a.known _ hc)
  obtain ⟨hanswer, hafter⟩ := (a.openBox p n).enter p hnew
  unfold Hub.register
  rw [a.fresh]
  rcases hh : (h.openBox p n).enter p h.fresh with ⟨h', r⟩
  rcases hk : (k.openBox p n).enter p h.fresh with ⟨k', r'⟩
  rw [hh, hk] at hanswer hafter
  obtain rfl : r' = r := hanswer
  cases r' with
  | error t => exact ⟨rfl, a.tally .rejection⟩
  | ok evicted =>
    refine ⟨rfl, ?_⟩
    cases evicted with
    | none => exact hafter.tally .connection
    | some old => exact (hafter.tally .eviction).tally .connection

/-! ## Operations on one -/

/-- A frame that is no envelope of its sender's is counted, and nothing else. -/
theorem Alike.offence (a : Alike c h k) {bound : PeerId} {f : Frame} {v : Violation}
    (hv : accept bound f = .error v) :
    (h.route bound f).2 = .error v ∧ Alike c (h.route bound f).1 k := by
  unfold Hub.route
  rw [hv]
  exact ⟨rfl, a.policy, a.table, a.stopping, a.fresh, a.boxes, a.counters, a.known, a.unlisted⟩

variable {d : ConnId}

/-- A connection that is in nobody's place is one that may differ. -/
theorem Alike.part (a : Alike none h k) (hd : d < h.fresh) (hl : ∀ p, h.lookup p ≠ some d) :
    Alike (some d) h k :=
  ⟨a.policy, a.table, a.stopping, a.fresh, fun e _ => a.boxes e nofun, a.counters,
    fun _ he => Option.some.inj he ▸ hd, fun p _ he => Option.some.inj he ▸ hl p⟩

theorem Alike.left (a : Alike (some d) h k) (f : Mailbox → Mailbox) :
    Alike (some d) (h.updateBox d f) k where
  policy := a.policy
  table := a.table
  stopping := a.stopping
  fresh := by rw [fresh_updateBox, a.fresh]
  boxes e he := by rw [box?_updateBox, if_neg fun hd => he (congrArg some hd), a.boxes e he]
  counters := a.counters
  known e he := by
    rw [fresh_updateBox]
    exact a.known e he
  unlisted := a.unlisted

end Hub

end Switchboard
