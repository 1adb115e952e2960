import Switchboard.Frame

/-!
# Who is reachable

The table of connected peers: at most one connection for each identifier, identifiers rising.

    (t.insert p c).find? p = some c
    (t.erase p).find? p = none
    all other identifiers keep what they have
-/

namespace Switchboard

/-- Connections are numbered in the order in which they come. -/
abbrev ConnId := Nat

structure Peers where
  entries : List (PeerId × ConnId) := []
  rising : entries.Pairwise (fun a b => a.1 < b.1)

namespace Peers

/-! ## Algorithm -/

def empty : Peers := ⟨[], .nil⟩

def findIn : List (PeerId × ConnId) → PeerId → Option ConnId
  | [], _ => none
  | (q, c) :: rest, p => if q = p then some c else findIn rest p

def insertIn (p : PeerId) (c : ConnId) : List (PeerId × ConnId) → List (PeerId × ConnId)
  | [] => [(p, c)]
  | (q, d) :: rest =>
    if p < q then (p, c) :: (q, d) :: rest
    else if q = p then (p, c) :: rest
    else (q, d) :: insertIn p c rest

/-! ## Lemmas -/

theorem mem_insertIn {p : PeerId} {c : ConnId} {es : List (PeerId × ConnId)}
    {e : PeerId × ConnId} (h : e ∈ insertIn p c es) : e = (p, c) ∨ e ∈ es := by
  induction es with
  | nil => simpa [insertIn] using h
  | cons a rest ih =>
    obtain ⟨q, d⟩ := a
    unfold insertIn at h
    split at h
    · simpa using h
    · split at h
      · rcases List.mem_cons.1 h with h | h
        · exact .inl h
        · exact .inr (List.mem_cons_of_mem _ h)
      · rcases List.mem_cons.1 h with h | h
        · exact .inr (h ▸ List.mem_cons_self)
        · rcases ih h with h | h
          · exact .inl h
          · exact .inr (List.mem_cons_of_mem _ h)

theorem insertIn_rising (p : PeerId) (c : ConnId) (es : List (PeerId × ConnId))
    (h : es.Pairwise (fun a b => a.1 < b.1)) :
    (insertIn p c es).Pairwise (fun a b => a.1 < b.1) := by
  induction es with
  | nil => simp [insertIn]
  | cons a rest ih =>
    obtain ⟨q, d⟩ := a
    obtain ⟨hq, hr⟩ := List.pairwise_cons.1 h
    unfold insertIn
    split
    · next hp =>
      refine List.pairwise_cons.2 ⟨fun b hb => ?_, h⟩
      rcases List.mem_cons.1 hb with rfl | hb
      · exact hp
      · exact Int.lt_trans hp (hq b hb)
    · split
      · next hp => subst hp; exact List.pairwise_cons.2 ⟨hq, hr⟩
      · next h1 h2 =>
        refine List.pairwise_cons.2 ⟨fun b hb => ?_, ih hr⟩
        rcases mem_insertIn hb with rfl | hb
        · exact Int.lt_iff_le_and_ne.2 ⟨Int.not_lt.1 h1, h2⟩
        · exact hq b hb

theorem findIn_insertIn (p j : PeerId) (c : ConnId) (es : List (PeerId × ConnId)) :
    findIn (insertIn p c es) j = if j = p then some c else findIn es j := by
  induction es with
  | nil => by_cases h : p = j <;> simp [insertIn, findIn, h, eq_comm]
  | cons a rest ih =>
    obtain ⟨q, d⟩ := a
    unfold insertIn
    split
    · by_cases h : p = j <;> simp [findIn, h, eq_comm]
    · split
      · next hq => subst hq; by_cases h : j = q <;> grind [findIn]
      · next hq =>
        by_cases h : q = j
        · subst h; simp [findIn, hq]
        · simp [findIn, h, ih]

theorem findIn_filter (p j : PeerId) (es : List (PeerId × ConnId)) :
    findIn (es.filter fun e => e.1 ≠ p) j = if j = p then none else findIn es j := by
  induction es with
  | nil => simp [findIn]
  | cons a rest ih =>
    obtain ⟨q, d⟩ := a
    by_cases hq : q = p
    · subst hq
      by_cases h : j = q
      · subst h; simpa [findIn] using ih
      · simpa [findIn, h, Ne.symm h] using ih
    · by_cases h : q = j
      · subst h; simp [findIn, hq]
      · simpa [findIn, h, hq] using ih

/-! ## Operations -/

def find? (t : Peers) (p : PeerId) : Option ConnId := findIn t.entries p

/-- The table with `c` as the connection of `p`, whatever `p` had. -/
def insert (t : Peers) (p : PeerId) (c : ConnId) : Peers :=
  ⟨insertIn p c t.entries, insertIn_rising p c t.entries t.rising⟩

def erase (t : Peers) (p : PeerId) : Peers :=
  ⟨t.entries.filter fun e => e.1 ≠ p, t.rising.filter _⟩

def contains (t : Peers) (p : PeerId) : Bool := (t.find? p).isSome

def size (t : Peers) : Nat := t.entries.length

def isEmpty (t : Peers) : Bool := t.entries.isEmpty

/-- The identifiers that are in use, rising. -/
def ids (t : Peers) : List PeerId := t.entries.map (·.1)

theorem find?_insert (t : Peers) (p j : PeerId) (c : ConnId) :
    (t.insert p c).find? j = if j = p then some c else t.find? j := findIn_insertIn p j c t.entries

theorem find?_erase (t : Peers) (p j : PeerId) :
    (t.erase p).find? j = if j = p then none else t.find? j := findIn_filter p j t.entries

theorem ids_rising (t : Peers) : t.ids.Pairwise (· < ·) := List.pairwise_map.2 t.rising

theorem length_ids (t : Peers) : t.ids.length = t.size := List.length_map _

end Peers

end Switchboard
