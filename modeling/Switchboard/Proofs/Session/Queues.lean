import Switchboard.Proofs.Session.Records

/-!
# Queues and what was delivered to them

As long as its reading end is there, what was taken from a connection's queue and what still waits
there are the frames that were reported as delivered to it, in that order and as they were.  A queue
never holds more than it may, a delivery that fails changes nothing, and nothing is delivered to a
connection that is closing or closed.

    taken c s steps ++ (run s steps).hub.waiting c = s.hub.waiting c ++ delivered c s steps
-/

namespace Switchboard.Session

/-- Steps that try to put a frame into a queue. -/
def Step.isDelivery : Step → Bool
  | .route .. | .deliver .. => true
  | _ => false

/-- The delivery that the answer to a step reports: which connection got which frame.  A routed
frame goes to the connection that is entered for its recipient. -/
def handedOver (s : State) (st : Step) : Option (ConnId × Frame) :=
  match st, (step s st).answer with
  | .route _ f, .routed (.forwarded dest) => (s.hub.lookup dest).map fun c => (c, f)
  | .deliver name f, .done => (s.find? name).map fun r => (r.conn, f)
  | _, _ => none

/-- The frames that the answer to a step hands out of the queue of a connection. -/
def handedOut (s : State) (st : Step) : Option (ConnId × List Frame) :=
  match st, (step s st).answer with
  | .receive name _, .frames fs => (s.find? name).map fun r => (r.conn, fs)
  | _, _ => none

def deliveredBy (c : ConnId) (s : State) (st : Step) : List Frame :=
  match handedOver s st with
  | some (d, f) => if d = c then [f] else []
  | none => []

def takenBy (c : ConnId) (s : State) (st : Step) : List Frame :=
  match handedOut s st with
  | some (d, fs) => if d = c then fs else []
  | none => []

/-- The frames that a run reports as delivered to a connection, in order. -/
def delivered (c : ConnId) (s : State) (steps : List Step) : List Frame :=
  (trace s steps).flatMap fun m => deliveredBy c m.1 m.2

/-- The frames that a run takes out of the queue of a connection, in order. -/
def taken (c : ConnId) (s : State) (steps : List Step) : List Frame :=
  (trace s steps).flatMap fun m => takenBy c m.1 m.2

/-! ## One step -/

theorem delivered_cons (c : ConnId) (s : State) (st : Step) (rest : List Step) :
    delivered c s (st :: rest) = deliveredBy c s st ++ delivered c (step s st).state rest := rfl

theorem taken_cons (c : ConnId) (s : State) (st : Step) (rest : List Step) :
    taken c s (st :: rest) = takenBy c s st ++ taken c (step s st).state rest := rfl

theorem handedOver_of_not_delivery (s : State) (st : Step) (h : st.isDelivery = false) :
    handedOver s st = none := by
  cases st <;> first | rfl | cases h

theorem handedOut_of_not_receive (s : State) (st : Step) (h : ∀ n k, st ≠ .receive n k) :
    handedOut s st = none := by
  cases st <;> first | rfl | exact absurd rfl (h _ _)

/-- What routing comes to in a session. -/
theorem route_handedOver (s : State) (bound : PeerId) (f : Frame) :
    (∃ e c m, Hub.accept bound f = .ok e ∧ s.hub.lookup e.recipient = some c ∧
      s.hub.box? c = some m ∧ m.refusal? = none ∧
      handedOver s (.route bound f) = some (c, f) ∧
      (step s (.route bound f)).state.hub =
        ((s.hub.tally .received).updateBox c fun _ =>
          { m with frames := m.frames ++ [f] }).tally .forwarded) ∨
    (handedOver s (.route bound f) = none ∧
      ∃ k, (step s (.route bound f)).state.hub = { s.hub with counters := k }) := by
  obtain ⟨e, c, m, ha, hl, hb, hr, he⟩ | ⟨k, r, he, hn⟩ := s.hub.route_cases bound f
  · refine .inl ⟨e, c, m, ha, hl, hb, hr, ?_, ?_⟩
    · simp only [handedOver, step, route, he, hl, Option.map_some]
    · rw [route_state, he]
  · refine .inr ⟨?_, k, by rw [route_state, he]⟩
    simp only [handedOver, step, route, he]
    cases r with
    | error v => rfl
    | ok o =>
      cases o with
      | forwarded dest => exact absurd rfl (hn dest)
      | unroutable | dropped => rfl

/-- What a direct delivery comes to in a session. -/
theorem deliver_handedOver (s : State) (n : String) (f : Frame) :
    (∃ c m, s.hub.box? c = some m ∧ m.refusal? = none ∧
      handedOver s (.deliver n f) = some (c, f) ∧
      (step s (.deliver n f)).state.hub =
        s.hub.updateBox c fun _ => { m with frames := m.frames ++ [f] }) ∨
    (handedOver s (.deliver n f) = none ∧ (step s (.deliver n f)).state.hub = s.hub) := by
  unfold handedOver
  rw [step_of_subject s (.deliver n f) n rfl]
  cases hf : s.find? n with
  | none => exact .inr ⟨rfl, rfl⟩
  | some r =>
    simp only [onRecord, deliver]
    obtain ⟨m, hb, hr, hd⟩ | ⟨e, -, hd⟩ := s.hub.deliver_cases r.conn f <;> rw [hd]
    · refine .inl ⟨r.conn, m, hb, hr, ?_, rfl⟩
      simp only [tell, hf, Option.map_some]
    · exact .inr ⟨rfl, rfl⟩

/-- A delivery that is reported put the frame behind the others; one that is not did nothing. -/
theorem delivery_cases (s : State) (st : Step) (h : st.isDelivery = true) :
    (∃ c m f, s.hub.box? c = some m ∧ m.refusal? = none ∧ handedOver s st = some (c, f) ∧
      ∀ d, (step s st).state.hub.box? d =
        if c = d then some { m with frames := m.frames ++ [f] } else s.hub.box? d) ∨
    (handedOver s st = none ∧ ∀ d, (step s st).state.hub.box? d = s.hub.box? d) := by
  have hput : ∀ (h : Hub) (c d : ConnId) (m m' : Mailbox), h.box? c = some m →
      (h.updateBox c fun _ => m').box? d = if c = d then some m' else h.box? d := by
    intro h c d m m' hb
    rw [Hub.box?_updateBox]
    split
    · next hc => rw [← hc, hb]; rfl
    · rfl
  cases st with
  | route bound f =>
    obtain ⟨e, c, m, -, -, hb, hr, ho, he⟩ | ⟨ho, k, he⟩ := route_handedOver s bound f
    · exact .inl ⟨c, m, f, hb, hr, ho, fun d => by rw [he]; exact hput _ c d m _ hb⟩
    · exact .inr ⟨ho, fun d => by rw [he]; rfl⟩
  | deliver n f =>
    obtain ⟨c, m, hb, hr, ho, he⟩ | ⟨ho, he⟩ := deliver_handedOver s n f
    · exact .inl ⟨c, m, f, hb, hr, ho, fun d => by rw [he]; exact hput _ c d m _ hb⟩
    · exact .inr ⟨ho, fun d => by rw [he]⟩
  | _ => cases h

/-- A connection that nothing is reported as delivered to keeps its mailbox as it was. -/
theorem box?_of_not_delivered (c : ConnId) (s : State) (st : Step) (h : st.isDelivery = true)
    (hn : deliveredBy c s st = []) : (step s st).state.hub.box? c = s.hub.box? c := by
  obtain ⟨d, m, f, -, -, ho, hb⟩ | ⟨-, hb⟩ := delivery_cases s st h
  · rw [hb, if_neg ?_]
    intro hd
    simp only [deliveredBy, ho, hd, if_true] at hn
    cases hn
  · exact hb c

/-- Nothing is delivered to a connection that is closing, closed or gone. -/
theorem deliveredBy_of_refusing (c : ConnId) (s : State) (st : Step) (m : Mailbox)
    (hm : s.hub.box? c = some m) (hc : m.closing = true ∨ m.outlet ≠ .open) :
    deliveredBy c s st = [] := by
  unfold deliveredBy
  cases hd : st.isDelivery with
  | false => rw [handedOver_of_not_delivery s st hd]
  | true =>
    obtain ⟨d, n, f, hn, hr, ho, -⟩ | ⟨ho, -⟩ := delivery_cases s st hd <;> rw [ho]
    simp only
    rw [if_neg ?_]
    rintro rfl
    obtain rfl := Option.some.inj (hn.symm.trans hm)
    obtain ⟨hcl, hop, -⟩ := (n.refusal?_eq_none_iff).1 hr
    rcases hc with hc | hc
    · rw [hcl] at hc
      cases hc
    · exact hc hop

/-- What a receiving step hands out was in front of the queue that it is for. -/
theorem receive_waiting (c : ConnId) (s : State) (n : String) (most : Option Nat) :
    s.hub.waiting c =
      takenBy c s (.receive n most) ++ (step s (.receive n most)).state.hub.waiting c := by
  unfold takenBy handedOut
  rw [step_of_subject s (.receive n most) n rfl]
  cases hf : s.find? n with
  | none => rfl
  | some r =>
    simp only [onRecord, tell, hf, Option.map_some]
    exact s.hub.waiting_receive r.conn c most

/-- What one step does to a queue: it takes in front and puts behind. -/
theorem waiting_step (c : ConnId) (s : State) (st : Step)
    (hg : (step s st).state.hub.gone c = false) :
    s.hub.waiting c ++ deliveredBy c s st =
      takenBy c s st ++ (step s st).state.hub.waiting c := by
  cases hm : st.movesFrames with
  | false =>
    have hd : deliveredBy c s st = [] := by
      rw [deliveredBy, handedOver_of_not_delivery]
      cases st <;> first | rfl | cases hm
    have ht : takenBy c s st = [] := by
      rw [takenBy, handedOut_of_not_receive]
      rintro n k rfl
      cases hm
    rw [hd, ht, (still_step s st hm).waiting c hg, List.append_nil, List.nil_append]
  | true =>
    cases hd : st.isDelivery with
    | true =>
      have ht : takenBy c s st = [] := by
        rw [takenBy, handedOut_of_not_receive]
        rintro n k rfl
        cases hd
      rw [ht, List.nil_append]
      obtain ⟨d, m, f, hb, -, ho, hs⟩ | ⟨ho, hs⟩ := delivery_cases s st hd
      · simp only [deliveredBy, ho, Hub.waiting]
        rw [hs]
        split
        · next hc =>
          rw [← hc, hb]
          rfl
        · rw [List.append_nil]
      · simp only [deliveredBy, ho, Hub.waiting, List.append_nil]
        rw [hs]
    | false =>
      have hn : deliveredBy c s st = [] := by
        rw [deliveredBy, handedOver_of_not_delivery s st hd]
      cases st with
      | receive n most =>
        rw [hn, List.append_nil]
        exact receive_waiting c s n most
      | route | deliver => cases hd
      | _ => cases hm

/-! ## Runs -/

/-- What was taken and what waits is what waited at first and what was delivered since. -/
theorem taken_append_waiting (c : ConnId) (s : State) (steps : List Step)
    (hg : (run s steps).hub.gone c = false) :
    taken c s steps ++ (run s steps).hub.waiting c = s.hub.waiting c ++ delivered c s steps := by
  induction steps generalizing s with
  | nil => exact (List.append_nil _).symm
  | cons st rest ih =>
    have hst : (step s st).state.hub.gone c = false := (later_run (step s st).state rest).gone hg
    calc taken c s (st :: rest) ++ (run s (st :: rest)).hub.waiting c
        = takenBy c s st ++ (taken c (step s st).state rest ++
            (run (step s st).state rest).hub.waiting c) := by
          rw [taken_cons, List.append_assoc, run_cons]
      _ = takenBy c s st ++ ((step s st).state.hub.waiting c ++
            delivered c (step s st).state rest) := by rw [ih _ hg]
      _ = s.hub.waiting c ++ delivered c s (st :: rest) := by
          rw [← List.append_assoc, ← waiting_step c s st hst, delivered_cons, List.append_assoc]

theorem delivered_of_refusing (c : ConnId) (s : State) (m : Mailbox) (steps : List Step)
    (hm : s.hub.box? c = some m) (hc : m.closing = true ∨ m.outlet ≠ .open) :
    delivered c s steps = [] := by
  induction steps generalizing s m with
  | nil => rfl
  | cons st rest ih =>
    obtain ⟨m', hm', l⟩ := (later_step s st).box c m hm
    rw [delivered_cons, deliveredBy_of_refusing c s st m hm hc,
      ih (step s st).state m' hm' (hc.imp l.closing l.outlet)]
    rfl

theorem fits_start (p : Policy) : (start p).hub.Fits := by
  intro c m hm
  cases hm

/-! ## Top theorem -/

/-- **Queues neither lose nor invent.**  Of every connection: unless its reading end was thrown away,
what was taken out so far and what waits is what was delivered, in order; no more waits than may; a
delivery that is not reported as one to it leaves its mailbox as it was; and once it is closing or its
reading end is closed nothing is delivered to it any more. -/
theorem taken_append_frames_eq_delivered (p : Policy) (steps : List Step) (c : ConnId) (m : Mailbox)
    (hm : (run (start p) steps).hub.box? c = some m) :
    (m.outlet ≠ .gone →
      taken c (start p) steps ++ m.frames = delivered c (start p) steps) ∧
    m.frames.length ≤ m.capacity ∧
    (∀ st, st.isDelivery = true → deliveredBy c (run (start p) steps) st = [] →
      (step (run (start p) steps) st).state.hub.box? c = some m) ∧
    (m.closing = true ∨ m.outlet ≠ .open →
      ∀ more, delivered c (run (start p) steps) more = []) := by
  refine ⟨fun hg => ?_, ?_, fun st hst hn => ?_, fun hc more => ?_⟩
  · have hgone : (run (start p) steps).hub.gone c = false := by
      rw [Hub.gone_of_box? hm]
      exact decide_eq_false hg
    have h := taken_append_waiting c (start p) steps hgone
    rw [Hub.waiting_of_box? hm] at h
    exact h
  · exact (later_run (start p) steps).fits (fits_start p) c m hm
  · rw [box?_of_not_delivered c _ st hst hn, hm]
  · exact delivered_of_refusing c _ m more hm hc

/-- A queue that is filled by two senders and by hand, read once, and then superseded. -/
def crowdedQueue : List Step :=
  [.register "a" 1 (some 2), .route 2 (.text "[2,1,0]"), .deliver "a" (.binary [0]),
    .route 3 (.text "[3,1,0]"), .receive "a" (some 1), .register "b" 1 none,
    .deliver "a" (.text "late")]

theorem delivered_crowdedQueue :
    (run (start evicting) crowdedQueue).hub.box? 0 =
      some ⟨1, 2, [.binary [0]], .open, true⟩ ∧
    taken 0 (start evicting) crowdedQueue ++ [.binary [0]] =
      delivered 0 (start evicting) crowdedQueue ∧
    taken 0 (start evicting) crowdedQueue = [.text "[2,1,0]"] := by
  have hm : (run (start evicting) crowdedQueue).hub.box? 0 =
      some ⟨1, 2, [.binary [0]], .open, true⟩ := by decide
  have hg : Outlet.open ≠ .gone := by decide
  exact ⟨hm, (taken_append_frames_eq_delivered _ crowdedQueue 0 _ hm).1 hg, by decide⟩

end Switchboard.Session
