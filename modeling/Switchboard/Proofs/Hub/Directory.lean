import Mathlib
import Switchboard.Proofs.Hub.Growth
import Switchboard.Proofs.Hub.Registry

/-!
# The table as a finite map

Whatever is asked of a hub as a registry of peers, it answers as a finite map from identifiers to
connections would that is kept together with the set of the connections that were told to close
(`Directory`).

    ofHub.replies ⟨.new p, []⟩ rs = (ofDirectory p.duplicates).replies ⟨{}, []⟩ rs
    h.lookup q = d.entries.lookup q        h.online = d.entries.keys.sort
-/

namespace Switchboard

/-! ## Algorithm -/

/-- What a registry stands for; `peers` lists whom the connections were set up for, in order. -/
structure Directory where
  peers : List PeerId := []
  entries : Finmap fun _ : PeerId => ConnId := ∅
  cancelled : Finset ConnId := ∅

namespace Directory

def setUp (d : Directory) (p : PeerId) : Directory := { d with peers := d.peers ++ [p] }

/-- A free identifier is given to the handle; a taken one is refused, or the connection that had it
is told to close. -/
def register (dup : DuplicatePolicy) (d : Directory) (x : Handle) :
    Directory × Except Taken (Option ConnId) :=
  match d.entries.lookup x.peer, dup with
  | none, _ => ({ d with entries := d.entries.insert x.peer x.conn }, .ok none)
  | some _, .rejectNew => (d, .error ⟨x.peer⟩)
  | some old, .evictExisting =>
    ({ d with
        entries := d.entries.insert x.peer x.conn
        cancelled := insert old d.cancelled },
      .ok (some old))

def unregister (d : Directory) (p : PeerId) : Directory × Option ConnId :=
  ({ d with entries := d.entries.erase p }, d.entries.lookup p)

def unregisterConnection (d : Directory) (p : PeerId) (c : ConnId) : Directory × Bool :=
  if d.entries.lookup p = some c then ({ d with entries := d.entries.erase p }, true)
  else (d, false)

def requestClose (d : Directory) (c : ConnId) : Directory :=
  { d with cancelled := insert c d.cancelled }

end Directory

namespace Registry

def ofDirectory (dup : DuplicatePolicy) : Registry Directory where
  setUp d p _ := (d.setUp p, d.peers.length)
  peer? d c := d.peers[c]?
  register := Directory.register dup
  unregister := Directory.unregister
  unregisterConnection := Directory.unregisterConnection
  requestClose := Directory.requestClose

def ofHub : Registry Hub where
  setUp h p n := (h.openBox p n, h.fresh)
  peer? h c := (h.box? c).map (·.peer)
  register h x := h.enter x.peer x.conn
  unregister h p := (h.unregister p, h.lookup p)
  unregisterConnection h p c := (h.leave p c, h.isCurrent p c)
  requestClose := Hub.requestClose

end Registry

namespace Hub

/-- All that can be asked about the peers of a hub is answered from the finite map. -/
structure Shows (h : Hub) (d : Directory) : Prop where
  lookup : ∀ p, h.lookup p = d.entries.lookup p
  contains : ∀ p, h.table.contains p = true ↔ p ∈ d.entries
  isCurrent : ∀ p c, h.isCurrent p c = true ↔ d.entries.lookup p = some c
  size : h.table.size = d.entries.keys.card
  isEmpty : h.table.isEmpty = true ↔ d.entries = ∅
  isClosing : ∀ c, h.isClosing c = true ↔ c ∈ d.cancelled
  filed : ∀ p c, d.entries.lookup p = some c → h.IsOf c p
  online : h.online = d.entries.keys.sort (· ≤ ·)
  rising : h.online.Pairwise (· < ·)
  count : h.online.length = h.table.size

/-- A hub with the policy `dup` that stands for `d`. -/
structure StandsFor (dup : DuplicatePolicy) (h : Hub) (d : Directory) : Prop where
  policy : h.policy.duplicates = dup
  peers : ∀ c, (h.box? c).map (·.peer) = d.peers[c]?
  lookup : ∀ p, h.lookup p = d.entries.lookup p
  isClosing : ∀ c, h.isClosing c = true ↔ c ∈ d.cancelled
  filed : h.Filed

end Hub

/-! ## Finite maps and sorted lists -/

theorem lookup_insert_entries (m : Finmap fun _ : PeerId => ConnId) (p q : PeerId) (c : ConnId) :
    (m.insert p c).lookup q = if q = p then some c else m.lookup q := by
  by_cases hq : q = p
  · subst hq
    rw [if_pos rfl, Finmap.lookup_insert]
  · rw [if_neg hq, Finmap.lookup_insert_of_ne _ hq]

theorem lookup_erase_entries (m : Finmap fun _ : PeerId => ConnId) (p q : PeerId) :
    (m.erase p).lookup q = if q = p then none else m.lookup q := by
  by_cases hq : q = p
  · subst hq
    rw [if_pos rfl, Finmap.lookup_erase]
  · rw [if_neg hq, Finmap.lookup_erase_ne hq]

namespace Peers

theorem findIn_isSome_iff (es : List (PeerId × ConnId)) (p : PeerId) :
    (findIn es p).isSome = true ↔ p ∈ es.map (·.1) := by
  induction es with
  | nil => simp [findIn]
  | cons e rest ih =>
    obtain ⟨q, c⟩ := e
    unfold findIn
    rw [List.map_cons, List.mem_cons]
    by_cases hq : q = p
    · simp [hq]
    · rw [if_neg hq, ih]
      exact ⟨.inr, fun h => h.resolve_left (Ne.symm hq)⟩

theorem mem_ids_iff (t : Peers) (p : PeerId) : p ∈ t.ids ↔ (t.find? p).isSome = true :=
  (findIn_isSome_iff t.entries p).symm

/-- Identifiers are listed as the sorted set that holds them. -/
theorem ids_eq_sort (t : Peers) (ps : Finset PeerId) (h : ∀ p, p ∈ t.ids ↔ p ∈ ps) :
    t.ids = ps.sort (· ≤ ·) := by
  have hset : t.ids.toFinset = ps := by
    ext p
    rw [List.mem_toFinset, h]
  have hnd : t.ids.Nodup := t.ids_rising.imp fun hab => Int.ne_of_lt hab
  have hle : t.ids.Pairwise (· ≤ ·) := t.ids_rising.imp fun hab => Int.le_of_lt hab
  rw [← hset]
  exact ((List.toFinset_sort (· ≤ ·) hnd).2 hle).symm

end Peers

namespace Hub.StandsFor

variable {dup : DuplicatePolicy} {h : Hub} {d : Directory}

/-! ## Lemmas -/

theorem isOf_iff (a : StandsFor dup h d) (c : ConnId) (p : PeerId) :
    h.IsOf c p ↔ d.peers[c]? = some p := by
  rw [← a.peers, Option.map_eq_some_iff]
  rfl

theorem fresh (a : StandsFor dup h d) : h.fresh = d.peers.length := by
  have hm : h.boxes.map (·.peer) = d.peers := by
    apply List.ext_getElem?
    intro c
    rw [List.getElem?_map]
    exact a.peers c
  rw [← hm, List.length_map]
  rfl

theorem setUp (a : StandsFor dup h d) (p : PeerId) (n : Nat) :
    StandsFor dup (h.openBox p n) (d.setUp p) where
  policy := a.policy
  peers c := by
    rw [box?_openBox, a.fresh]
    simp only [Directory.setUp]
    by_cases hc : c = d.peers.length
    · subst hc
      simp [Mailbox.new]
    · rw [if_neg hc, a.peers]
      rcases Nat.lt_or_gt_of_ne hc with hl | hl
      · rw [List.getElem?_append_left hl]
      · rw [List.getElem?_eq_none (Nat.le_of_lt hl), List.getElem?_eq_none]
        rw [List.length_append]
        exact hl
  lookup := a.lookup
  isClosing c := by
    rw [isClosing_openBox]
    exact a.isClosing c
  filed := (h.still_openBox p n).toLater.filed a.filed fun _ _ hl => hl

theorem requestClose (a : StandsFor dup h d) (x : Handle) (hx : d.peers[x.conn]? = some x.peer) :
    StandsFor dup (h.requestClose x.conn) (d.requestClose x.conn) where
  policy := a.policy
  peers c := by
    rw [peer_box?_requestClose]
    exact a.peers c
  lookup := a.lookup
  isClosing c := by
    obtain ⟨m, hm, -⟩ := (a.isOf_iff x.conn x.peer).2 hx
    rw [isClosing_requestClose hm, a.isClosing, Directory.requestClose, Finset.mem_insert]
  filed := (h.still_requestClose x.conn).toLater.filed a.filed fun _ _ hl => hl

/-- A table that holds only handles that were set up. -/
theorem withTable (a : StandsFor dup h d) {t : Peers} {m : Finmap fun _ : PeerId => ConnId}
    (ht : ∀ p, t.find? p = m.lookup p)
    (hm : ∀ p c, m.lookup p = some c → d.peers[c]? = some p) :
    StandsFor dup { h with table := t } { d with entries := m } where
  policy := a.policy
  peers := a.peers
  lookup := ht
  isClosing := a.isClosing
  filed p c hl := (a.isOf_iff c p).2 (hm p c ((ht p).symm.trans hl))

theorem peers_of_lookup (a : StandsFor dup h d) {p : PeerId} {c : ConnId}
    (hl : d.entries.lookup p = some c) : d.peers[c]? = some p :=
  (a.isOf_iff c p).1 (a.filed p c ((a.lookup p).trans hl))

theorem insert (a : StandsFor dup h d) (x : Handle) (hx : d.peers[x.conn]? = some x.peer) :
    StandsFor dup { h with table := h.table.insert x.peer x.conn }
      { d with entries := d.entries.insert x.peer x.conn } := by
  apply a.withTable
  · intro p
    rw [Peers.find?_insert, lookup_insert_entries]
    split
    · rfl
    · exact a.lookup p
  · intro p c hl
    rw [lookup_insert_entries] at hl
    split at hl
    · next hp => rw [hp, ← Option.some.inj hl, hx]
    · exact a.peers_of_lookup hl

theorem erase (a : StandsFor dup h d) (p : PeerId) :
    StandsFor dup { h with table := h.table.erase p }
      { d with entries := d.entries.erase p } := by
  apply a.withTable
  · intro q
    rw [Peers.find?_erase, lookup_erase_entries]
    split
    · rfl
    · exact a.lookup q
  · intro q c hl
    rw [lookup_erase_entries] at hl
    split at hl
    · cases hl
    · exact a.peers_of_lookup hl

theorem register (a : StandsFor dup h d) (x : Handle) (hx : d.peers[x.conn]? = some x.peer) :
    (h.enter x.peer x.conn).2 = (d.register dup x).2 ∧
      StandsFor dup (h.enter x.peer x.conn).1 (d.register dup x).1 := by
  unfold Directory.register
  rw [← a.lookup]
  obtain ⟨hl, he⟩ | ⟨old, hl, hd, he⟩ | ⟨old, hl, hd, he⟩ := h.enter_cases x.peer x.conn
  · rw [he, hl]
    exact ⟨rfl, a.insert x hx⟩
  · obtain rfl : dup = .rejectNew := a.policy.symm.trans hd
    rw [he, hl]
    exact ⟨rfl, a⟩
  · obtain rfl : dup = .evictExisting := a.policy.symm.trans hd
    have ho : d.peers[old]? = some x.peer := a.peers_of_lookup ((a.lookup x.peer).symm.trans hl)
    rw [he, hl]
    exact ⟨rfl, (a.insert x hx).requestClose ⟨x.peer, old⟩ ho⟩

theorem unregisterConnection (a : StandsFor dup h d) (p : PeerId) (c : ConnId) :
    h.isCurrent p c = (d.unregisterConnection p c).2 ∧
      StandsFor dup (h.leave p c) (d.unregisterConnection p c).1 := by
  unfold Directory.unregisterConnection leave isCurrent
  rw [a.lookup]
  by_cases hc : d.entries.lookup p = some c
  · rw [if_pos hc, if_pos (beq_iff_eq.2 hc)]
    exact ⟨beq_iff_eq.2 hc, a.erase p⟩
  · rw [if_neg hc, if_neg (fun he => hc (beq_iff_eq.1 he))]
    exact ⟨beq_eq_false_iff_ne.2 hc, a⟩

theorem mem_online_iff (a : StandsFor dup h d) (p : PeerId) :
    p ∈ h.online ↔ p ∈ d.entries.keys := by
  rw [Finmap.mem_keys, ← Finmap.lookup_isSome, ← a.lookup]
  exact h.table.mem_ids_iff p

theorem online_eq_sort (a : StandsFor dup h d) : h.online = d.entries.keys.sort (· ≤ ·) :=
  h.table.ids_eq_sort d.entries.keys a.mem_online_iff

theorem size_eq_card (a : StandsFor dup h d) : h.table.size = d.entries.keys.card := by
  have hn : h.online.length = h.table.size := h.table.length_ids
  rw [← hn, a.online_eq_sort, Finset.length_sort]

theorem isEmpty_iff (a : StandsFor dup h d) : h.table.isEmpty = true ↔ d.entries = ∅ := by
  have hn : h.table.entries.length = d.entries.keys.card := a.size_eq_card
  rw [Peers.isEmpty, List.isEmpty_iff_length_eq_zero, hn, Finset.card_eq_zero]
  constructor
  · intro hk
    apply Finmap.ext_lookup
    intro p
    rw [Finmap.lookup_empty, Finmap.lookup_eq_none, ← Finmap.mem_keys, hk]
    exact Finset.notMem_empty p
  · intro he
    rw [he, Finmap.keys_empty]

/-- A hub shows what it stands for. -/
theorem shows (a : StandsFor dup h d) : h.Shows d where
  lookup := a.lookup
  contains p := by
    rw [← Finmap.lookup_isSome, ← a.lookup]
    rfl
  isCurrent p c := by
    rw [Hub.isCurrent, a.lookup, beq_iff_eq]
  size := a.size_eq_card
  isEmpty := a.isEmpty_iff
  isClosing := a.isClosing
  filed p c hl := a.filed p c ((a.lookup p).trans hl)
  online := a.online_eq_sort
  rising := h.table.ids_rising
  count := h.table.length_ids

theorem new (p : Policy) : StandsFor p.duplicates (Hub.new p) {} where
  policy := rfl
  peers _ := rfl
  lookup _ := rfl
  isClosing c := by simp [Hub.isClosing, Hub.box?, Hub.new]
  filed := fun _ _ hl => by cases hl

end Hub.StandsFor

open Registry

theorem ofHub_refines (dup : DuplicatePolicy) :
    Refines ofHub (ofDirectory dup) (Hub.StandsFor dup) where
  setUp a p n := ⟨a.fresh, a.setUp p n⟩
  peer? a c := a.peers c
  register a x hx := a.register x ((a.peers x.conn).symm.trans hx)
  unregister a p := ⟨a.lookup p, a.erase p⟩
  unregisterConnection a p c := a.unregisterConnection p c
  requestClose a x hx := a.requestClose x ((a.peers x.conn).symm.trans hx)

/-! ## Top theorem -/

/-- **A hub is a finite map to those who use it.**  Whatever the policy and whatever is asked, the
replies are those of the map, and after every row of requests the hub shows what the map holds. -/
theorem hub_refines_directory (p : Policy) (rs : List Request) :
    ofHub.replies ⟨.new p, []⟩ rs = (ofDirectory p.duplicates).replies ⟨{}, []⟩ rs ∧
    (ofHub.run ⟨.new p, []⟩ rs).registry.Shows
      ((ofDirectory p.duplicates).run ⟨{}, []⟩ rs).registry := by
  have hstart : Alike (Hub.StandsFor p.duplicates) ⟨.new p, []⟩ ⟨{}, []⟩ := ⟨.new p, rfl⟩
  obtain ⟨he, hr, -⟩ := (ofHub_refines p.duplicates).run hstart rs
  exact ⟨he, hr.shows⟩

end Switchboard
