import Switchboard.Proofs.Session.Queues

/-!
# Where routed frames go

A frame that is routed reaches one queue at most: that of the connection which is entered for the
recipient that its envelope names, and only if the envelope names the peer that it came from and
the connection is not about to close.

    Places s bound f c → ofFrame f = ok ⟨bound, p⟩ ∧ s.hub.lookup p = some c ∧ s.hub.IsOf c p
-/

namespace Switchboard.Session

/-- Routing the frame changes what waits for the connection. -/
def Places (s : State) (bound : PeerId) (f : Frame) (c : ConnId) : Prop :=
  (step s (.route bound f)).state.hub.waiting c ≠ s.hub.waiting c

/-! ## Lemmas -/

/-- In any state, a frame that is placed was accepted and put behind the others, for the connection
that is entered for its recipient. -/
theorem accepted_of_places {s : State} {bound : PeerId} {f : Frame} {c : ConnId}
    (h : Places s bound f c) :
    ∃ e m, Hub.accept bound f = .ok e ∧ s.hub.lookup e.recipient = some c ∧
      s.hub.box? c = some m ∧ m.refusal? = none ∧
      (step s (.route bound f)).state.hub.waiting c = s.hub.waiting c ++ [f] := by
  unfold Places at h
  obtain ⟨e, d, m, ha, hl, hb, hr, -, he⟩ | ⟨-, k, he⟩ := route_handedOver s bound f
  · have hw : (step s (.route bound f)).state.hub.waiting c =
        if d = c then s.hub.waiting c ++ [f] else s.hub.waiting c := by
      rw [he]
      exact (s.hub.tally .received).waiting_append d c m f hb
    by_cases hd : d = c
    · subst hd
      rw [if_pos rfl] at hw
      exact ⟨e, m, ha, hl, hb, hr, hw⟩
    · rw [hw, if_neg hd] at h
      exact absurd rfl h
  · rw [he] at h
    exact absurd rfl h

theorem places_unique {s : State} {bound : PeerId} {f : Frame} {c d : ConnId}
    (hc : Places s bound f c) (hd : Places s bound f d) : c = d := by
  obtain ⟨e, -, ha, hl, -⟩ := accepted_of_places hc
  obtain ⟨e', -, ha', hl', -⟩ := accepted_of_places hd
  obtain rfl := Except.ok.inj (ha.symm.trans ha')
  exact Option.some.inj (hl.symm.trans hl')

/-! ## Top theorem -/

/-- **No spoofing and no misdelivery.**  Whenever a frame is routed in a run, it goes behind the
others in the queue of a connection only if it is an envelope from the peer that it came from to the
peer of that connection, which is entered in the table then and not closing; and it goes into one
queue at most. -/
theorem places_only_for_recipient (p : Policy) (steps : List Step) (s : State) (bound : PeerId)
    (f : Frame) (h : (s, Step.route bound f) ∈ trace (start p) steps) :
    (∀ c, Places s bound f c →
      ∃ m e, s.hub.box? c = some m ∧ Envelope.ofFrame f = .ok e ∧ e.sender = bound ∧
        e.recipient = m.peer ∧ s.hub.lookup m.peer = some c ∧ m.closing = false ∧
        (step s (.route bound f)).state.hub.waiting c = m.frames ++ [f]) ∧
    ∀ c d, Places s bound f c → Places s bound f d → c = d := by
  refine ⟨fun c hc => ?_, fun c d => places_unique⟩
  obtain ⟨e, m, ha, hl, hb, hr, hw⟩ := accepted_of_places hc
  obtain ⟨hf, hs⟩ := (Hub.accept_eq_ok_iff bound f e).1 ha
  obtain ⟨before, -, -, rfl⟩ := exists_of_mem_trace h
  have hof : (run (start p) before).hub.IsOf c e.recipient :=
    ((kept_start p).run before).filed e.recipient c hl
  have hp : e.recipient = m.peer := hof.unique ⟨m, hb, rfl⟩
  rw [Hub.waiting_of_box? hb] at hw
  rw [hp] at hl
  exact ⟨m, e, hb, hf, hs, hp, hl, ((m.refusal?_eq_none_iff).1 hr).1, hw⟩

/-- An identifier changes hands before a frame for it is routed. -/
def changedHands : List Step :=
  [.register "old" 1 none, .register "new" 1 none, .route 2 (.text "[2,1,0]")]

theorem placed_changedHands :
    (run (start evicting) (changedHands.take 2), Step.route 2 (.text "[2,1,0]")) ∈
      trace (start evicting) changedHands ∧
    Places (run (start evicting) (changedHands.take 2)) 2 (.text "[2,1,0]") 1 ∧
    (∃ e, Envelope.ofFrame (.text "[2,1,0]") = .ok e ∧ e.sender = 2) ∧
    ¬ Places (run (start evicting) (changedHands.take 2)) 2 (.text "[2,1,0]") 0 := by
  have hmem : (run (start evicting) (changedHands.take 2), Step.route 2 (.text "[2,1,0]")) ∈
      trace (start evicting) changedHands :=
    List.mem_cons_of_mem _ (List.mem_cons_of_mem _ List.mem_cons_self)
  have hin : Places (run (start evicting) (changedHands.take 2)) 2 (.text "[2,1,0]") 1 := by
    unfold Places
    decide
  obtain ⟨hplaced, hone⟩ := places_only_for_recipient evicting changedHands _ 2 _ hmem
  obtain ⟨m, e, -, hof, hs, -⟩ := hplaced 1 hin
  refine ⟨hmem, hin, ⟨e, hof, hs⟩, fun h => ?_⟩
  have he := hone 1 0 hin h
  cases he

end Switchboard.Session
