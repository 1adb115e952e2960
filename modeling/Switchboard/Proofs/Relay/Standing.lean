import Switchboard.Proofs.Relay.Keepalive

/-!
# Which link stands for which connection

Every connection is one link's (`Standing`): no two links have the same one, an entry of the table
leads to a link that is served, and a link whose writing hand is done for is told to close.

    w.Standing → (w.undergo x).1.Standing
    w.hub.lookup p = some c → the link of c is served, and it is the link of p
-/

namespace Switchboard.Relay

namespace World

/-- What holds of the links, their connections and the table at all times. -/
structure Standing (w : World) : Prop where
  taken : ∀ (i : Nat) (l : Link) (writer : Writer), w.links[i]? = some l →
    l.phase = .serving writer → ∃ c, l.conn = some c
  known : ∀ (i : Nat) (l : Link) (c : ConnId), w.links[i]? = some l → l.conn = some c →
    w.hub.IsOf c l.peer
  own : ∀ (i j : Nat) (l k : Link) (c : ConnId), w.links[i]? = some l → w.links[j]? = some k →
    l.conn = some c → k.conn = some c → i = j
  listed : ∀ (p : PeerId) (c : ConnId), w.hub.lookup p = some c →
    ∃ (i : Nat) (l : Link) (writer : Writer), w.links[i]? = some l ∧ l.conn = some c ∧
      l.peer = p ∧ l.phase = .serving writer
  stopped : ∀ (i : Nat) (l : Link) (c : ConnId), w.links[i]? = some l →
    l.phase = .serving .stopped → l.conn = some c → w.hub.isClosing c = true

end World

variable {w : World} {l l' : Link} {c : ConnId} {h h' : Hub} {es : List Event}

/-! ## Entries and signals after a turn -/

theorem Ending.lookup {r : CloseReason} {owed : Option Frame} (a : Ending w l c r owed l' h' es)
    (q : PeerId) : h'.lookup q = w.hub.lookup q := by
  cases a with
  | @violated f rest v h hh hf hr =>
    have hl := w.hub.lookup_route l.peer q f
    rwa [hr] at hl
  | told | silent | finished | fault | misfit | vanished | left | mute => rfl

theorem Given.lookup {f : Frame} (a : Given w l c f l' h' es) (q : PeerId) :
    h'.lookup q = w.hub.lookup q := by
  cases a with
  | queued hr =>
    have hl := w.hub.lookup_receive c (some 1) q
    rwa [hr] at hl
  | ping => rfl

/-- A turn enters nobody. -/
theorem Turned.lookup (a : Turned w l l' h' es) {q : PeerId} {d : ConnId}
    (hl : h'.lookup q = some d) : w.hub.lookup q = some d := by
  cases a with
  | ended hp hc he =>
    rw [Hub.lookup_requestClose, Hub.release, Hub.lookup_tally] at hl
    exact (he.lookup q).symm.trans (Hub.lookup_of_lookup_leave hl)
  | crashed =>
    rw [Hub.lookup_updateBox] at hl
    exact Hub.lookup_of_lookup_leave hl
  | @routed c writer f rest o h hp hc hh hf hr =>
    have hq := w.hub.lookup_route l.peer q f
    rw [hr] at hq
    exact hq.symm.trans hl
  | handed hp hc hs hg => exact (hg.lookup q).symm.trans hl
  | failed hp hc hs hg => exact (hg.lookup q).symm.trans hl
  | parted => split at hl <;> exact hl
  | woke | answered | ready | jammed | paid | drained | noticed => exact hl

/-- As long as its entry is there a link is served on. -/
theorem Turned.serving_of_lookup {writer : Writer} (a : Turned w l l' h' es)
    (hp : l.phase = .serving writer) (hc : l.conn = some c)
    (hl : h'.lookup l.peer = some c) : ∃ after, l'.phase = .serving after := by
  cases a with
  | @ended c' writer r owed l₀ h₀ before hp' hc' he =>
    obtain rfl := Option.some.inj (hc.symm.trans hc')
    rw [Hub.lookup_requestClose, Hub.release, Hub.lookup_tally, Hub.lookup_leave] at hl
    split at hl
    · cases hl
    · next hne => exact absurd ⟨rfl, hl⟩ hne
  | @crashed c' writer f rest hp' hc' =>
    obtain rfl := Option.some.inj (hc.symm.trans hc')
    rw [Hub.lookup_updateBox, Hub.lookup_leave] at hl
    split at hl
    · cases hl
    · next hne => exact absurd ⟨rfl, hl⟩ hne
  | woke hp' | answered hp' | routed hp' => exact ⟨_, hp'⟩
  | ready | jammed | handed | failed => exact ⟨_, rfl⟩
  | drained => exact ⟨writer, hp⟩
  | paid hp' | parted hp' | noticed hp' =>
    rw [hp] at hp'
    cases hp'

/-- A writing hand that is done for has raised the close signal. -/
theorem Turned.closing_of_stopped (a : Turned w l l' h' es) (hb : w.hub.IsOf c l.peer)
    (hc : l.conn = some c) (hp' : l'.phase = .serving .stopped)
    (hs : l.phase = .serving .stopped → w.hub.isClosing c = true) : h'.isClosing c = true := by
  have kept : l'.phase = l.phase → h'.isClosing c = true := fun he =>
    a.work.later.isClosing (hs (he.symm.trans hp'))
  have raised : ∀ h₀ : Hub, w.hub.Work h₀ → (h₀.requestClose c).isClosing c = true := by
    intro h₀ hw
    obtain ⟨m, hm, -⟩ := hw.later.isOf hb
    exact (Hub.isClosing_requestClose hm c).2 (.inl rfl)
  cases a with
  | woke | answered | routed | drained | noticed => exact kept rfl
  | jammed hp hc' =>
    obtain rfl := Option.some.inj (hc.symm.trans hc')
    exact raised _ .refl
  | failed hp hc' hs hg =>
    obtain rfl := Option.some.inj (hc.symm.trans hc')
    exact raised _ hg.work
  | @handed c' f l₀ h₀ before wire =>
    dsimp only at hp'
    split at hp' <;> cases hp'
  | ended | crashed | ready | paid | parted => cases hp'

/-! ## A link that begins -/

theorem Welcomed.peer {d : Dial} {p : PeerId} (a : Welcomed w d p l h es) : l.peer = p := by
  cases a with
  | unqueued | refused => rfl
  | served _ _ hl | undone _ _ hl => rw [hl]; rfl

/-- A link that is served from its beginning has a connection, and nothing to write. -/
theorem Welcomed.serving {d : Dial} {p : PeerId} {writer : Writer} (a : Welcomed w d p l h es)
    (hp : l.phase = .serving writer) : writer = .idle ∧ ∃ c, l.conn = some c := by
  cases a with
  | unqueued | refused => cases hp
  | @served done _ _ _ _ hl =>
    subst hl
    cases hp
    exact ⟨rfl, done.conn, rfl⟩
  | undone _ _ hl =>
    rw [hl] at hp
    cases hp

/-- A link that is accepted gets a new connection. -/
theorem Welcomed.conn {d : Dial} {p : PeerId} (a : Welcomed w d p l h es) (hc : l.conn = some c) :
    c = w.hub.fresh ∧ h.IsOf c l.peer := by
  have entered : ∀ {done : Registered} {h : Hub},
      w.hub.register p w.hub.policy.queueCapacity = (h, .ok done) →
      done.conn = w.hub.fresh ∧ h.IsOf done.conn p := by
    intro done h hr
    obtain ⟨hd, hen⟩ := Hub.entered_of_register hr
    exact ⟨hd, hen.still.toLater.isOf (hd ▸ w.hub.isOf_openBox p _)⟩
  cases a with
  | unqueued | refused => cases hc
  | served hr hi hl =>
    subst hl
    obtain rfl := Option.some.inj hc
    exact entered hr
  | undone hr hi hl =>
    subst hl
    obtain rfl := Option.some.inj hc
    obtain ⟨hf, hof⟩ := entered hr
    exact ⟨hf, (Hub.still_leave _ p _).toLater.trans (Hub.later_discard _ _) |>.isOf hof⟩

/-- The only entry that a link brings is its own, and then it is served. -/
theorem Welcomed.lookup {d : Dial} {p : PeerId} (a : Welcomed w d p l h es) {q : PeerId}
    {e : ConnId} (hl : h.lookup q = some e) :
    w.hub.lookup q = some e ∨ q = l.peer ∧ l.conn = some e ∧ l.phase = .serving .idle := by
  have entered : ∀ {done : Registered} {h : Hub},
      w.hub.register p w.hub.policy.queueCapacity = (h, .ok done) →
      ∀ q, h.lookup q = if q = p then some done.conn else w.hub.lookup q := by
    intro done h hr
    exact (Hub.entered_of_register hr).2.lookup
  cases a with
  | unqueued => exact .inl hl
  | refused hr =>
    rw [Hub.refused_of_register hr] at hl
    exact .inl hl
  | served hr hi hlink =>
    subst hlink
    rw [entered hr] at hl
    split at hl
    · next hq =>
      subst hq
      exact .inr ⟨rfl, hl, rfl⟩
    · exact .inl hl
  | @undone done h₁ l hr hi hlink =>
    rw [Hub.lookup_updateBox, Hub.lookup_leave] at hl
    split at hl
    · cases hl
    · next hne =>
      rw [entered hr, if_pos rfl] at hne
      rw [entered hr] at hl
      split at hl
      · next hq => exact absurd ⟨hq, rfl⟩ hne
      · exact .inl hl

namespace World

variable {i : Nat} {x : Incident}

/-- An entry was there before, or it is that of a link which begins. -/
theorem undergo_entry {q : PeerId} {e : ConnId} (hl : (w.undergo x).1.hub.lookup q = some e) :
    w.hub.lookup q = some e ∨ ∃ l, (w.undergo x).1.links[w.links.length]? = some l ∧
      l.conn = some e ∧ l.peer = q ∧ l.phase = .serving .idle := by
  cases x with
  | act a =>
    obtain ha | ⟨d, p, l, h, es, rfl, hW, hw, -⟩ := w.act_cases a
    · exact .inl (ha.entries q e hl)
    · have hlast : (w.undergo (.act (.connect d))).1.links[w.links.length]? = some l := by
        have hcount : (w.forget d.name).links.length = w.links.length := (w.aside_forget d.name).count
        rw [undergo, hw, List.getElem?_append_right (Nat.le_of_eq hcount), hcount, Nat.sub_self]
        rfl
      rw [undergo, hw] at hl
      obtain hold | ⟨hq, hc, hp⟩ := hW.lookup hl
      · exact .inl hold
      · exact .inr ⟨l, hlast, hc, hq.symm, hp⟩
  | arrive j a =>
    simp only [undergo] at hl
    split at hl <;> exact .inl hl
  | turn j t =>
    obtain hu | ⟨k, k', h, es, -, hu, hT⟩ := w.undergo_turn j t <;> rw [hu] at hl
    · exact .inl hl
    · exact .inl (hT.lookup hl)
  | report | pass => exact .inl hl

/-- A link after an incident is an old one, or it has just begun. -/
theorem undergo_old_or_new (hl : (w.undergo x).1.links[i]? = some l') :
    (∃ l, w.links[i]? = some l ∧ l'.peer = l.peer ∧ l'.conn = l.conn ∧
      ((∃ t, x = .turn i t ∧ Turned w l l' (w.undergo x).1.hub (w.told i x)) ∨ Outside l l')) ∨
    (w.links[i]? = none ∧ i = w.links.length ∧
      ∃ d p es, Welcomed w d p l' (w.undergo x).1.hub es) := by
  cases hold : w.links[i]? with
  | none =>
    obtain ⟨hi, -, -, d, p, es, -, hW, -⟩ := undergo_new hold hl
    exact .inr ⟨rfl, hi, d, p, es, hW⟩
  | some l =>
    obtain ⟨k, hk, hcase⟩ := undergo_link hold x
    obtain rfl := Option.some.inj (hk.symm.trans hl)
    obtain ⟨t, rfl, -, hT⟩ | ⟨ho, -⟩ := hcase
    · exact .inl ⟨l, rfl, hT.peer, hT.conn, .inl ⟨t, rfl, hT⟩⟩
    · exact .inl ⟨l, rfl, ho.peer, ho.conn, .inr ho⟩

/-! ## Every incident keeps it -/

variable {t : Nat}

theorem standing_start (p : Policy) (site : Http.Site) : (start p site t).Standing :=
  ⟨fun _ _ _ h => (by cases h), fun _ _ _ h => (by cases h), fun _ _ _ _ _ h => (by cases h),
    fun _ _ h => (by cases h), fun _ _ _ h => (by cases h)⟩

theorem Standing.undergo (a : w.Standing) (x : Incident) : (w.undergo x).1.Standing where
  taken i l' writer hl' hp' := by
    obtain ⟨l, hl, -, hc, ⟨t, rfl, hT⟩ | ho⟩ | ⟨-, -, d, p, es, hW⟩ := undergo_old_or_new hl'
    · obtain ⟨before, hp⟩ := serving_of_turned hT hp'
      rw [hc]
      exact a.taken i l before hl hp
    · rw [hc]
      exact a.taken i l writer hl (ho.phase ▸ hp')
    · exact (hW.serving hp').2
  known i l' c hl' hc' := by
    obtain ⟨l, hl, hp, hc, -⟩ | ⟨-, -, d, p, es, hW⟩ := undergo_old_or_new hl'
    · rw [hp]
      exact (w.undergo_work x).later.isOf (a.known i l c hl (hc ▸ hc'))
    · exact (hW.conn hc').2
  own i j l' k' c hl' hk' hcl hck := by
    -- a connection that is new is none of those that there were
    have new : ∀ {j : Nat} {k m : Link} {d p es}, w.links[j]? = some k → k.conn = some c →
        Welcomed w d p m (w.undergo x).1.hub es → m.conn = some c → False := by
      intro j k m d p es hk hck hW hcm
      have hlt := (a.known j k c hk hck).lt
      rw [(hW.conn hcm).1] at hlt
      exact Nat.lt_irrefl _ hlt
    obtain ⟨l, hl, -, hc, -⟩ | ⟨-, hi, d, p, es, hW⟩ := undergo_old_or_new hl' <;>
      obtain ⟨k, hk, -, hc₂, -⟩ | ⟨-, hj, d₂, p₂, es₂, hW₂⟩ := undergo_old_or_new hk'
    · exact a.own i j l k c hl hk (hc ▸ hcl) (hc₂ ▸ hck)
    · exact (new hl (hc ▸ hcl) hW₂ hck).elim
    · exact (new hk (hc₂ ▸ hck) hW hcl).elim
    · rw [hi, hj]
  listed p c hl' := by
    obtain hl | ⟨l, hk, hc, hq, hp⟩ := undergo_entry hl'
    · obtain ⟨i, l, writer, hi, hc, rfl, hp⟩ := a.listed p c hl
      obtain ⟨l', hi', ⟨t, rfl, -, hT⟩ | ⟨ho, -⟩⟩ := undergo_link hi x
      · obtain ⟨after, hp'⟩ := hT.serving_of_lookup hp hc hl'
        exact ⟨i, l', after, hi', hT.conn.trans hc, hT.peer, hp'⟩
      · exact ⟨i, l', writer, hi', ho.conn.trans hc, ho.peer, ho.phase.trans hp⟩
    · exact ⟨_, l, .idle, hk, hc, hq, hp⟩
  stopped i l' c hl' hp' hc' := by
    obtain ⟨l, hl, -, hc, ⟨t, rfl, hT⟩ | ho⟩ | ⟨-, -, d, p, es, hW⟩ := undergo_old_or_new hl'
    · have hlc : l.conn = some c := hc ▸ hc'
      exact hT.closing_of_stopped (a.known i l c hl hlc) hlc hp' fun hp => a.stopped i l c hl hp hlc
    · exact (w.undergo_work x).later.isClosing
        (a.stopped i l c hl (ho.phase ▸ hp') (ho.conn ▸ hc'))
    · cases (hW.serving hp').1

theorem Standing.after (a : w.Standing) (xs : List Incident) : (w.after xs).Standing := by
  induction xs using List.reverseRecOn with
  | nil => exact a
  | append_singleton xs x ih =>
    rw [after_snoc]
    exact ih.undergo x

/-- At all times, whatever happens. -/
theorem standing_after (p : Policy) (site : Http.Site) (xs : List Incident) :
    ((start p site t).after xs).Standing := (standing_start p site).after xs

end World

end Switchboard.Relay
