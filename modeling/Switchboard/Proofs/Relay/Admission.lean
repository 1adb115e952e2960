import Switchboard.Proofs.Assets.Serving
import Switchboard.Proofs.Relay.Standing
import Switchboard.Proofs.Relay.Teardown
import Switchboard.Proofs.Text.Spelling

/-!
# Who gets in

The segment of a path names a peer if, with its escapes undone, it spells an integer of 64 bits
(`Names`).  A client that asks for the socket of such a segment is handed to registration as that
peer, however the integer is spelled, if a queue for it can be set up; any other segment is answered
400, and the relay goes on as if nobody had come.

    Admitted w d n ↔ Names segment n                         unless d is broken or queues too long
    w.connect d = { world := w, answer := notUpgraded 400 }  if the segment names nobody
-/

namespace Switchboard.Http

/-! ## Specification -/

/-- With its escapes undone, the segment spells the integer, which fits 64 bits. -/
def Names (segment : String) (n : Int) : Prop :=
  ∃ s : String, Text.Escaped (Text.bytes segment) (Text.bytes s) ∧ Text.Signed s.toList n ∧
    -2 ^ 63 ≤ n ∧ n < 2 ^ 63

variable {segment : String} {n : Int}

/-! ## Segments -/

theorem peerOf_eq_ok_iff : peerOf segment = .ok n ↔ Names segment n := by
  have hspelled : ∀ {s : String}, Text.text? (Text.unescape (Text.bytes segment)) = some s ↔
      Text.Escaped (Text.bytes segment) (Text.bytes s) := by
    intro s
    rw [← Text.unescape_eq_iff]
    exact ⟨fun h => (Text.bytes_of_text? h).symm, fun h => by rw [h, Text.text?_bytes]⟩
  have hinteger : ∀ {s : String}, Text.integer? s.toList = some n ↔
      Text.Signed s.toList n ∧ -2 ^ 63 ≤ n ∧ n < 2 ^ 63 := by
    intro s
    rw [Text.integer?_eq_some_iff, Text.signed?_eq_some_iff]
    rfl
  simp only [Names, ← hspelled, ← hinteger]
  unfold peerOf
  split
  next hnone => simp [hnone]
  next s hs =>
    rw [hs]
    split
    next m hm => simp [hm]
    next hm => simp [hm]

/-- A segment that names nobody is answered 400. -/
theorem peerOf_of_nobody (h : ∀ n, ¬ Names segment n) :
    ∃ a, peerOf segment = .error a ∧ a.status = 400 := by
  cases hp : peerOf segment with
  | ok n => exact absurd (peerOf_eq_ok_iff.1 hp) (h n)
  | error a =>
    refine ⟨a, rfl, ?_⟩
    unfold peerOf at hp
    split at hp
    · cases hp
      rfl
    · split at hp
      · cases hp
      · cases hp
        rfl

/-! ## Paths -/

theorem ofPath_socket (hne : segment ≠ "") (hsingle : '/' ∉ segment.toList) :
    Route.ofPath ("/websocket/" ++ segment) = .socket segment := by
  have hlist : ("/websocket/" ++ segment).toList = socketStart ++ segment.toList :=
    String.toList_append
  have hother : ∀ fixed : String, ¬ socketStart <+: fixed.toList →
      "/websocket/" ++ segment ≠ fixed :=
    fun fixed hno heq => hno ⟨segment.toList, by rw [← heq, hlist]⟩
  have hstart : socketStart.isPrefixOf (socketStart ++ segment.toList) = true :=
    List.isPrefixOf_iff_prefix.2 (List.prefix_append _ _)
  have hrest : (segment.toList.isEmpty || segment.toList.contains '/') = false := by
    simpa using ⟨hne, hsingle⟩
  rw [Route.ofPath, if_neg (hother _ (by decide)), if_neg (hother _ (by decide)), hlist,
    if_pos hstart, List.drop_left]
  dsimp only
  rw [hrest, if_neg Bool.false_ne_true, String.ofList_toList]

/-- Behind the host a path arrives as it is. -/
theorem pathBytes_relay {rest : Bytes} (hpath : ∀ b ∈ 47 :: rest, isPathByte b = true)
    (hlength : (47 :: rest).length ≤ 65524) :
    pathBytes (Text.bytes "ws://relay" ++ 47 :: rest) = some (47 :: rest) := by
  have hhost : Text.bytes "ws://relay" = [119, 115, 58, 47, 47, 114, 101, 108, 97, 121] := by
    decide +kernel
  have hscheme : dropScheme (Text.bytes "ws://relay" ++ 47 :: rest) =
      some (some ([114, 101, 108, 97, 121] ++ 47 :: rest)) := by
    rw [hhost]
    rfl
  have hauthority : dropAuthority ([114, 101, 108, 97, 121] ++ 47 :: rest) =
      some (47 :: rest) := rfl
  have hfits : ¬ (65534 < (Text.bytes "ws://relay" ++ 47 :: rest).length ||
      (Text.bytes "ws://relay" ++ 47 :: rest).isEmpty) = true := by
    rw [hhost]
    simp only [List.length_cons] at hlength
    simpa using hlength
  have hbehind : (47 :: rest).length ≠ ([114, 101, 108, 97, 121] ++ 47 :: rest).length := by simp
  rw [pathBytes, if_neg hfits, if_neg (by simp [hhost]), if_neg (by simp [hhost]), hscheme]
  dsimp only
  rw [hauthority]
  dsimp only
  rw [if_neg hbehind, Assets.splitPath_of_path hpath, Option.map_some, if_neg (by simp)]

/-- A path of a client arrives as it is, if it is one. -/
theorem pathOf_relay {path : String} (hslash : Path.isAbsolute path = true)
    (hpath : ∀ b ∈ Text.bytes path, isPathByte b = true)
    (hlength : (Text.bytes path).length ≤ 65524) : pathOf ("ws://relay" ++ path) = some path := by
  obtain ⟨rest, hrest⟩ := Assets.bytes_of_isAbsolute hslash
  rw [hrest] at hpath hlength
  rw [pathOf, Text.bytes_append, hrest, pathBytes_relay hpath hlength, Option.map_some, ← hrest,
    Text.lenient_bytes]

end Switchboard.Http

namespace Switchboard.Relay

/-! ## Specification -/

/-- A client asks for the socket of a segment: its target is well-formed, and the path of it is that
of the socket. -/
structure Dial.AsksFor (d : Dial) (segment : String) : Prop where
  path : Http.pathOf ("ws://relay" ++ d.path) = some ("/websocket/" ++ segment)
  nonempty : segment ≠ ""
  single : '/' ∉ segment.toList

namespace World

/-- A client is let in: its socket is opened and handed to registration as the peer `p`, which brings
it past the first stage, and nothing else is done. -/
structure Admitted (w : World) (d : Dial) (p : PeerId) : Prop where
  answer : (w.connect d).answer = .upgraded
  handed : ∃ l h es, Welcomed w d p l h es ∧ l.peer = p ∧ l.stage ≠ .connecting ∧
    (w.connect d).world = { w with hub := h, links := (w.forget d.name).links ++ [l] } ∧
    (w.connect d).events = Link.upgradeEvent p d.address :: es

variable {w : World} {d : Dial} {segment : String} {n : Int}

/-! ## Asking for a socket -/

/-- Any segment can be asked for that is part of a path as it is. -/
theorem asksFor_of_path (hd : d.path = "/websocket/" ++ segment) (hne : segment ≠ "")
    (hsingle : '/' ∉ segment.toList)
    (hpath : ∀ b ∈ Text.bytes d.path, Http.isPathByte b = true)
    (hlength : (Text.bytes d.path).length ≤ 65524) : d.AsksFor segment := by
  have hslash : Path.isAbsolute d.path = true := by simp [hd, Path.isAbsolute]
  exact ⟨by rw [Http.pathOf_relay hslash hpath hlength, hd], hne, hsingle⟩

theorem connect_of_names (h : d.AsksFor segment) (hn : Http.Names segment n)
    (hb : d.broken = false) : w.connect d =
      { world := (w.welcome d n).1
        answer := .upgraded
        events := Link.upgradeEvent n d.address :: (w.welcome d n).2 } := by
  simp [connect, h.path, Http.ofPath_socket h.nonempty h.single, Http.peerOf_eq_ok_iff.2 hn, hb]

theorem connect_of_nobody (h : d.AsksFor segment) (hn : ∀ n, ¬ Http.Names segment n)
    (hb : d.broken = false) :
    ∃ a, a.status = 400 ∧ w.connect d = { world := w, answer := .notUpgraded a } := by
  obtain ⟨a, ha, hstatus⟩ := Http.peerOf_of_nobody hn
  refine ⟨a, hstatus, ?_⟩
  simp [connect, h.path, Http.ofPath_socket h.nonempty h.single, ha, hb]

theorem connect_of_broken (h : d.AsksFor segment) (hb : d.broken = true) :
    (w.connect d).answer = .noHandshake ∧ (w.connect d).world = w := by
  cases hp : Http.peerOf segment <;>
    simp [connect, h.path, Http.ofPath_socket h.nonempty h.single, hb, hp]

/-! ## Being let in -/

theorem Admitted.unique {p q : PeerId} (hp : w.Admitted d p) (hq : w.Admitted d q) : p = q := by
  obtain ⟨l, h, es, -, rfl, -, hworld, -⟩ := hp.handed
  obtain ⟨l', h', es', -, rfl, -, hworld', -⟩ := hq.handed
  have hlinks := congrArg World.links (hworld.symm.trans hworld')
  exact congrArg Link.peer (List.singleton_inj.1 (List.append_cancel_left hlinks))

theorem stage_of_welcomed {p : PeerId} {l : Link} {h : Hub} {es : List Event}
    (a : Welcomed w d p l h es) (hq : w.queueTooLong = false) : l.stage ≠ .connecting := by
  cases a with
  | unqueued hq' => cases hq'.symm.trans hq
  | refused => exact nofun
  | served _ _ hl | undone _ _ hl =>
    rw [hl]
    exact nofun

theorem admitted_of_names (h : d.AsksFor segment) (hn : Http.Names segment n)
    (hb : d.broken = false) (hq : w.queueTooLong = false) : w.Admitted d n := by
  have hconnect := connect_of_names (w := w) h hn hb
  obtain ⟨l, hub, es, he, hw⟩ := w.welcome_cases d n
  rw [he] at hconnect
  exact ⟨by rw [hconnect], l, hub, es, hw, hw.peer, stage_of_welcomed hw hq, by rw [hconnect],
    by rw [hconnect]⟩

theorem names_of_admitted (h : d.AsksFor segment) (hb : d.broken = false)
    (hq : w.queueTooLong = false) (ha : w.Admitted d n) : Http.Names segment n := by
  by_cases hsome : ∃ m, Http.Names segment m
  · obtain ⟨m, hm⟩ := hsome
    rwa [ha.unique (admitted_of_names h hm hb hq)]
  · obtain ⟨a, -, hc⟩ := connect_of_nobody (w := w) h (not_exists.1 hsome) hb
    have hanswer := ha.answer
    rw [hc] at hanswer
    cases hanswer

/-- However the integer is spelled, what comes of asking for it is the same. -/
theorem connect_of_path {path other : String} (h : d.AsksFor segment)
    (ho : Dial.AsksFor { d with path := path } other) (hn : Http.Names segment n)
    (hno : Http.Names other n) (hb : d.broken = false) :
    w.connect { d with path := path } = w.connect d := by
  rw [connect_of_names ho hno hb, connect_of_names h hn hb]
  rfl

/-- What an action comes to that does nothing is what comes of letting no time pass. -/
theorem step_of_act {a : Action} {x : Answer} (h : w.act a = { world := w, answer := x })
    (hd : duration a = 0) : w.step a = { w.step (.wait 0) with answer := x } := by
  simp only [step, h, hd]
  rfl

/-- Over a connection that cannot be upgraded the segment counts for nothing. -/
theorem request_of_socket {target : String} {headers : List (String × String)}
    (h : d.AsksFor segment) (htarget : Http.pathOf target = some ("/websocket/" ++ segment))
    (hu : Http.upgradeRefusal? ⟨"GET", "/websocket/" ++ segment, headers⟩ = none) :
    w.request "GET" target headers = { world := w, answer := .answered Http.notUpgradable } := by
  have htoken : Http.isToken (Text.bytes "GET") = true := by decide +kernel
  have hrequest : Http.Request.of? "GET" target headers =
      some ⟨"GET", "/websocket/" ++ segment, headers⟩ := by
    rw [Http.Request.of?, if_pos htoken, htarget]
    rfl
  simp [request, hrequest, Http.answer, Http.ofPath_socket h.nonempty h.single, hu, Http.reading,
    Http.Answer.forMethod]

/-! ## Top theorem -/

/-- **Who gets in.**  A client that can be written to is let in as a peer exactly if the segment
that it asks for names that integer, as long as queues can be set up; all segments that name it come
to the same.  If the segment names none the answer is 400 and nothing is done: the relay goes on as
if nobody had come.  For a client that cannot be written to nothing is done either, and it hears
nothing; and a request over a connection that cannot be upgraded is told so, whatever the segment. -/
theorem admitted_iff_names (w : World) (d : Dial) (segment : String) (h : d.AsksFor segment) :
    (d.broken = false →
      (w.hub.policy.queueCapacity < Bounds.eighth64 →
        ∀ n, w.Admitted d n ↔ Http.Names segment n) ∧
      (∀ n path other, Dial.AsksFor { d with path := path } other → Http.Names segment n →
        Http.Names other n → w.connect { d with path := path } = w.connect d) ∧
      ((∀ n, ¬ Http.Names segment n) → ∃ a, a.status = 400 ∧
        w.connect d = { world := w, answer := .notUpgraded a } ∧
        w.step (.connect d) = { w.step (.wait 0) with answer := .notUpgraded a })) ∧
    (d.broken = true → (w.connect d).answer = .noHandshake ∧ (w.connect d).world = w) ∧
    ∀ target headers, Http.pathOf target = some ("/websocket/" ++ segment) →
      Http.upgradeRefusal? ⟨"GET", "/websocket/" ++ segment, headers⟩ = none →
      w.request "GET" target headers = { world := w, answer := .answered Http.notUpgradable } := by
  refine ⟨fun hb => ⟨fun hq n => ?_, fun n path other ho hn hno => connect_of_path h ho hn hno hb,
    fun hn => ?_⟩, connect_of_broken h, fun target headers => request_of_socket h⟩
  · have hshort : w.queueTooLong = false := decide_eq_false (Nat.not_le.2 hq)
    exact ⟨names_of_admitted h hb hshort, fun hn => admitted_of_names h hn hb hshort⟩
  · obtain ⟨a, hstatus, hc⟩ := connect_of_nobody (w := w) h hn hb
    exact ⟨a, hstatus, hc, step_of_act hc rfl⟩

/-- Peer 7 is let in by its number behind an escaped plus sign and zeros as by the number alone, and
nobody is by a name. -/
theorem admitted_escaped :
    let w := start (Policy.ofSettings {}) none
    let d := { seventh "first" with path := "/websocket/%2B007" }
    d.AsksFor "%2B007" ∧ w.Admitted d 7 ∧ w.connect (seventh "first") = w.connect d ∧
      ∃ a, a.status = 400 ∧
        w.connect { seventh "first" with path := "/websocket/alice" } =
          { world := w, answer := .notUpgraded a } := by
  intro w d
  have hasks : d.AsksFor "%2B007" :=
    asksFor_of_path (by decide) (by decide) (by decide) (by decide +kernel) (by decide +kernel)
  have hplain : Dial.AsksFor { d with path := "/websocket/7" } "7" :=
    asksFor_of_path (by decide) (by decide) (by decide) (by decide +kernel) (by decide +kernel)
  have halice : Dial.AsksFor { seventh "first" with path := "/websocket/alice" } "alice" :=
    asksFor_of_path (by decide) (by decide) (by decide) (by decide +kernel) (by decide +kernel)
  have hescaped : Http.Names "%2B007" 7 := Http.peerOf_eq_ok_iff.1 rfl
  have hseven : Http.Names "7" 7 := Http.peerOf_eq_ok_iff.1 rfl
  obtain ⟨hadmitted, hsame, -⟩ := (admitted_iff_names w d _ hasks).1 rfl
  obtain ⟨-, -, hrefused⟩ := (admitted_iff_names w _ _ halice).1 rfl
  have hnobody : ∀ n, ¬ Http.Names "alice" n := by
    intro n hn
    cases Http.peerOf_eq_ok_iff.2 hn
  obtain ⟨a, hstatus, hconnect, -⟩ := hrefused hnobody
  exact ⟨hasks, (hadmitted (by decide) 7).2 hescaped, hsame 7 "/websocket/7" "7" hplain hescaped hseven,
    a, hstatus, hconnect⟩

/-- A client that cannot be written to asks for the socket of peer 7, which is named by an integer,
and is not let in. -/
theorem not_admitted_broken :
    let w := start (Policy.ofSettings {}) none
    let d := { seventh "first" with broken := true }
    d.AsksFor "7" ∧ Http.Names "7" 7 ∧ ¬ w.Admitted d 7 ∧
      (w.connect d).world.links = [] := by
  intro w d
  have hasks : d.AsksFor "7" :=
    asksFor_of_path (by decide) (by decide) (by decide) (by decide +kernel) (by decide +kernel)
  obtain ⟨hanswer, hworld⟩ := connect_of_broken (w := w) hasks rfl
  refine ⟨hasks, Http.peerOf_eq_ok_iff.1 rfl, fun ha => ?_, by rw [hworld]; rfl⟩
  cases hanswer.symm.trans ha.answer

end World

end Switchboard.Relay
