import Switchboard.Hub.Basic

/-!
# Registries and their callers

A registry of peers is asked to enter handles and to let go of them; its callers keep the handles
that were set up, which they may enter again and again, and guards, which end in any order.  Two
registries that do the same through a relation give the same replies, whatever is asked of them.

    Refines A B R → Alike R s t → A.replies s rs = B.replies t rs ∧ Alike R (A.run s rs) (B.run t rs)
-/

namespace Switchboard

/-! ## Requests -/

/-- A connection with the identifier that it was set up for. -/
structure Handle where
  peer : PeerId
  conn : ConnId
  deriving DecidableEq, Repr

/-- What can be asked of a registry.  Whoever enters a handle learns which connection gave way;
the other answers are the entry that was removed and whether one was. -/
structure Registry (σ : Type) where
  setUp : σ → PeerId → Nat → σ × ConnId
  peer? : σ → ConnId → Option PeerId
  register : σ → Handle → σ × Except Taken (Option ConnId)
  unregister : σ → PeerId → σ × Option ConnId
  unregisterConnection : σ → PeerId → ConnId → σ × Bool
  requestClose : σ → ConnId → σ

/-- A registry, and the guards that its callers hold. -/
structure Desk (σ : Type) where
  registry : σ
  guards : List Handle := []

inductive Request where
  | setUp (peer : PeerId) (capacity : Nat)
  | register (conn : ConnId)
  | acquire (conn : ConnId)
  | dropGuard (index : Nat)
  | unregister (peer : PeerId)
  | unregisterConnection (peer : PeerId) (conn : ConnId)
  | requestClose (conn : ConnId)
  deriving DecidableEq, Repr

inductive Reply where
  | unknown
  | done
  | opened (conn : ConnId)
  | entered (r : Except Taken (Option ConnId))
  | removed (conn : Option ConnId)
  | truth (b : Bool)

namespace Registry

variable {σ τ : Type}

/-- Only the handles that were set up can be used. -/
def handle? (A : Registry σ) (s : σ) (c : ConnId) : Option Handle :=
  (A.peer? s c).map fun p => ⟨p, c⟩

/-- A guard is there only if its handle could be entered. -/
def guardOf (x : Handle) : Except Taken (Option ConnId) → List Handle
  | .ok _ => [x]
  | .error _ => []

def serve (A : Registry σ) (s : Desk σ) : Request → Desk σ × Reply
  | .setUp p n =>
    ({ s with registry := (A.setUp s.registry p n).1 }, .opened (A.setUp s.registry p n).2)
  | .register c =>
    match A.handle? s.registry c with
    | none => (s, .unknown)
    | some x =>
      let (r, answer) := A.register s.registry x
      ({ s with registry := r }, .entered answer)
  | .acquire c =>
    match A.handle? s.registry c with
    | none => (s, .unknown)
    | some x =>
      let (r, answer) := A.register s.registry x
      ({ registry := r, guards := s.guards ++ guardOf x answer }, .entered answer)
  | .dropGuard i =>
    match s.guards[i]? with
    | none => (s, .unknown)
    | some x =>
      let (r, _) := A.unregisterConnection s.registry x.peer x.conn
      ({ registry := r, guards := s.guards.eraseIdx i }, .done)
  | .unregister p =>
    let (r, answer) := A.unregister s.registry p
    ({ s with registry := r }, .removed answer)
  | .unregisterConnection p c =>
    let (r, answer) := A.unregisterConnection s.registry p c
    ({ s with registry := r }, .truth answer)
  | .requestClose c =>
    match A.handle? s.registry c with
    | none => (s, .unknown)
    | some x => ({ s with registry := A.requestClose s.registry x.conn }, .done)

/-! ## Runs -/

/-- The desk after a row of requests. -/
def run (A : Registry σ) (s : Desk σ) : List Request → Desk σ
  | [] => s
  | q :: rest => A.run (A.serve s q).1 rest

def replies (A : Registry σ) (s : Desk σ) : List Request → List Reply
  | [] => []
  | q :: rest => (A.serve s q).2 :: A.replies (A.serve s q).1 rest

/-- One registry does what another does, seen through `R`. -/
structure Refines (A : Registry σ) (B : Registry τ) (R : σ → τ → Prop) : Prop where
  setUp : ∀ {s t}, R s t → ∀ p n,
    (A.setUp s p n).2 = (B.setUp t p n).2 ∧ R (A.setUp s p n).1 (B.setUp t p n).1
  peer? : ∀ {s t}, R s t → ∀ c, A.peer? s c = B.peer? t c
  register : ∀ {s t}, R s t → ∀ x : Handle, A.peer? s x.conn = some x.peer →
    (A.register s x).2 = (B.register t x).2 ∧ R (A.register s x).1 (B.register t x).1
  unregister : ∀ {s t}, R s t → ∀ p,
    (A.unregister s p).2 = (B.unregister t p).2 ∧ R (A.unregister s p).1 (B.unregister t p).1
  unregisterConnection : ∀ {s t}, R s t → ∀ p c,
    (A.unregisterConnection s p c).2 = (B.unregisterConnection t p c).2 ∧
      R (A.unregisterConnection s p c).1 (B.unregisterConnection t p c).1
  requestClose : ∀ {s t}, R s t → ∀ x : Handle, A.peer? s x.conn = some x.peer →
    R (A.requestClose s x.conn) (B.requestClose t x.conn)

/-- Desks whose registries agree and whose callers hold the same guards. -/
def Alike (R : σ → τ → Prop) (s : Desk σ) (t : Desk τ) : Prop :=
  R s.registry t.registry ∧ s.guards = t.guards

/-! ## Lemmas -/

theorem peer?_of_handle? {A : Registry σ} {s : σ} {c : ConnId} {x : Handle}
    (h : A.handle? s c = some x) : A.peer? s x.conn = some x.peer := by
  obtain ⟨p, hp, rfl⟩ := Option.map_eq_some_iff.1 h
  exact hp

theorem Refines.handle? {A : Registry σ} {B : Registry τ} {R : σ → τ → Prop}
    (h : Refines A B R) {s : σ} {t : τ} (hr : R s t) (c : ConnId) :
    A.handle? s c = B.handle? t c := by
  rw [Registry.handle?, Registry.handle?, h.peer? hr]

/-- One request. -/
theorem Refines.serve {A : Registry σ} {B : Registry τ} {R : σ → τ → Prop} (h : Refines A B R)
    {s : Desk σ} {t : Desk τ} (hr : Alike R s t) (q : Request) :
    (A.serve s q).2 = (B.serve t q).2 ∧ Alike R (A.serve s q).1 (B.serve t q).1 := by
  obtain ⟨hr, hg⟩ := hr
  cases q with
  | setUp p n =>
    obtain ⟨he, hn⟩ := h.setUp hr p n
    exact ⟨congrArg Reply.opened he, hn, hg⟩
  | register c =>
    simp only [Registry.serve, ← h.handle? hr c]
    cases hx : A.handle? s.registry c with
    | none => exact ⟨rfl, hr, hg⟩
    | some x =>
      obtain ⟨he, hn⟩ := h.register hr x (peer?_of_handle? hx)
      exact ⟨congrArg Reply.entered he, hn, hg⟩
  | acquire c =>
    simp only [Registry.serve, ← h.handle? hr c]
    cases hx : A.handle? s.registry c with
    | none => exact ⟨rfl, hr, hg⟩
    | some x =>
      obtain ⟨he, hn⟩ := h.register hr x (peer?_of_handle? hx)
      refine ⟨congrArg Reply.entered he, hn, ?_⟩
      simp only
      rw [hg, he]
  | dropGuard i =>
    simp only [Registry.serve, ← hg]
    cases s.guards[i]? with
    | none => exact ⟨rfl, hr, hg⟩
    | some x =>
      obtain ⟨-, hn⟩ := h.unregisterConnection hr x.peer x.conn
      exact ⟨rfl, hn, rfl⟩
  | unregister p =>
    obtain ⟨he, hn⟩ := h.unregister hr p
    exact ⟨congrArg Reply.removed he, hn, hg⟩
  | unregisterConnection p c =>
    obtain ⟨he, hn⟩ := h.unregisterConnection hr p c
    exact ⟨congrArg Reply.truth he, hn, hg⟩
  | requestClose c =>
    simp only [Registry.serve, ← h.handle? hr c]
    cases hx : A.handle? s.registry c with
    | none => exact ⟨rfl, hr, hg⟩
    | some x => exact ⟨rfl, h.requestClose hr x (peer?_of_handle? hx), hg⟩

theorem Refines.run {A : Registry σ} {B : Registry τ} {R : σ → τ → Prop} (h : Refines A B R)
    {s : Desk σ} {t : Desk τ} (hr : Alike R s t) (rs : List Request) :
    A.replies s rs = B.replies t rs ∧ Alike R (A.run s rs) (B.run t rs) := by
  induction rs generalizing s t with
  | nil => exact ⟨rfl, hr⟩
  | cons q rest ih =>
    obtain ⟨he, hn⟩ := h.serve hr q
    obtain ⟨hes, hns⟩ := ih hn
    refine ⟨?_, hns⟩
    rw [replies, replies, he, hes]

end Registry

end Switchboard
