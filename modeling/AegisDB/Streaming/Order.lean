import AegisDB.Library.Transition
import AegisDB.Streaming.Channel

/-!
# The order of events

Publishers on a channel run side by side, section by section.  The history has the events in the
order in which they were appended to it, and a receiver gets them in the order in which they were
sent; who has appended first need not send first.  As long as every event is sent before those that
were appended behind it, the two orders are one.
-/

namespace AegisDB.Streaming

variable {D : Type} {B : Broadcast (Event D)}

/-- A publication that was asked for, what is left of it, and how many of its sections have run. -/
structure PublishCall (B : Broadcast (Event D)) where
  event : Event D
  prog : Prog (Channel B) ℕ
  steps : ℕ := 0

/-- A receiver, whether it was there before anything was published, what it has got, and whether it
was ever told that it has missed something. -/
structure Subscription (B : Broadcast (Event D)) where
  receiver : ChannelReceiver B
  early : Bool
  got : List (Event D) := []
  missing : Bool := false

/-- A channel, those that publish on it and those that receive from it; the events in the order in
which they were published, and the publications whose events are not yet sent. -/
structure ChannelSession (B : Broadcast (Event D)) where
  channel : Channel B
  calls : List (PublishCall B) := []
  subscriptions : List (Subscription B) := []
  published : List (Event D) := []
  unsent : List (ℕ × Event D) := []

/-- What is asked of a channel or of a receiver, or the next section of a publication. -/
inductive ChannelAction (D : Type) where
  | publish (event : Event D)
  | resume (i : ℕ)
  | subscribe (subscriberId : String) (filter : Option EventFilter) (ackMode : AckMode)
  | unsubscribe (subscriberId : String)
  | receive (j : ℕ)
  | ack (j offset : ℕ)

namespace ChannelSession

/-- A publication runs its next section: the first publishes the event, and the second sends it. -/
def advance (w : ChannelSession B) (i : ℕ) (c : PublishCall B) (next : Channel B → Channel B)
    (rest : Channel B → Prog (Channel B) ℕ) : ChannelSession B :=
  { w with
    channel := next w.channel
    calls := w.calls.set i { c with prog := rest w.channel, steps := c.steps + 1 }
    published := if c.steps = 0 then w.published ++ [c.event] else w.published
    unsent :=
      if c.steps = 0 then w.unsent ++ [(i, c.event)]
      else if c.steps = 1 then w.unsent.eraseP fun p => p.1 = i
      else w.unsent }

/-- A receiver looks at the next event. -/
def received (w : ChannelSession B) (s : Subscription B) : Subscription B :=
  match s.receiver.tryRecvPass w.channel.sender with
  | (some (.ok (some event)), receiver) => { s with receiver, got := s.got ++ [event] }
  | (some (.error (.lagged _)), receiver) => { s with receiver, missing := true }
  | (_, receiver) => { s with receiver }

def step (w : ChannelSession B) : ChannelAction D → Option (ChannelSession B)
  | .publish event =>
    some { w with calls :=
      w.calls ++ [{ event, prog := Channel.publish w.channel.config event }] }
  | .resume i => w.calls[i]?.bind fun c =>
      match c.prog with
      | .done _ => none
      | .atom next rest => some (w.advance i c next rest)
  | .subscribe subscriberId filter ackMode =>
    match w.channel.subscribeWithAckMode subscriberId filter ackMode with
    | .ok (receiver, channel) =>
      some { w with
        channel
        subscriptions := w.subscriptions ++ [{ receiver, early := w.published.isEmpty }] }
    | .error _ => some w
  | .unsubscribe subscriberId =>
    some { w with channel := w.channel.unsubscribe subscriberId }
  | .receive j => w.subscriptions[j]?.map fun s =>
      { w with subscriptions := w.subscriptions.set j (w.received s) }
  | .ack j offset => w.subscriptions[j]?.bind fun s =>
      match s.receiver.ack offset with
      | .ok receiver =>
        some { w with subscriptions := w.subscriptions.set j { s with receiver } }
      | .error _ => some w

def system (B : Broadcast (Event D)) (config : ChannelConfig) :
    System (ChannelSession B) (ChannelAction D) where
  init := { channel := Channel.withConfig B config }
  step := step

/-- What a receiver has got is in the order in which the events were published; if it was never told
that it has missed something, it has got all that it wants of those behind which it subscribed, and
if it was there all along, of all: up to those that it has not yet looked at or that are not yet
sent. -/
structure GetsInOrder (w : ChannelSession B) (s : Subscription B) : Prop where
  sublist : s.got.Sublist w.published
  complete : s.missing = false → ∃ before seen rest, w.published = before ++ seen ++ rest ∧
    (s.early = true → before = []) ∧ s.got = seen.filter s.receiver.wants ∧
    ((∀ c ∈ w.calls, c.prog.isDone = true) →
      (s.receiver.tryRecvPass w.channel.sender).1 = some (.ok none) → rest = [])

/-- The history has the last events that were published, as many as are kept, and every receiver
gets the events in the same order. -/
structure InOrder (w : ChannelSession B) : Prop where
  history : w.channel.history = Layers.lastEntries w.channel.config.retentionCount w.published
  getHistory : ∀ count, w.channel.getHistory count =
    w.published.reverse.take (min count w.channel.config.retentionCount)
  receivers : ∀ s ∈ w.subscriptions, w.GetsInOrder s

/-- Every event is sent before those that were published behind it. -/
def SentInTurn (w : ChannelSession B) : ChannelAction D → Prop
  | .resume i => ∀ c ∈ w.calls[i]?, c.steps = 1 → (w.unsent.map Prod.fst).head? = some i
  | _ => True

instance (w : ChannelSession B) (e : ChannelAction D) : Decidable (SentInTurn w e) :=
  match e with
  | .publish _ | .subscribe _ _ _ | .unsubscribe _ | .receive _ | .ack _ _ => isTrue trivial
  | .resume i => inferInstanceAs (Decidable (∀ c ∈ w.calls[i]?, _))

/-! ## What is known of a session -/

/-- Nothing that a receiver could notice is changed. -/
def Quiet (s s' : Channel B) : Prop :=
  s'.config = s.config ∧ s'.sender = s.sender ∧ s'.history = s.history

/-- What is left of a publication, by the number of sections that have run. -/
def Phase (config : ChannelConfig) (c : PublishCall B) : Prop :=
  (c.steps = 0 ∧ c.prog = Channel.publish config c.event) ∨
  (c.steps = 1 ∧ c.prog = Channel.sendAndCount c.event) ∨
  (2 ≤ c.steps ∧ c.prog.Always (fun _ => True) Quiet fun _ => True)

/-- What a receiver has got of the events that were sent. -/
def Follows (sent : List (Event D)) (s : Subscription B) : Prop :=
  ∃ before seen rest, sent = before ++ seen ++ rest ∧ (s.early = true → before = []) ∧
    Broadcast.Followed B s.receiver.wants s.receiver.receiver s.got s.missing before seen

/-- The events that were published are those that were sent, in this order, and behind them those
that are not yet sent. -/
structure Wired (config : ChannelConfig) (w : ChannelSession B) : Prop where
  config_eq : w.channel.config = config
  history : w.channel.history = Layers.lastEntries config.retentionCount w.published
  published : w.published = B.sent w.channel.sender ++ w.unsent.map Prod.snd
  nodup : (w.unsent.map Prod.fst).Nodup
  phase : ∀ i c, w.calls[i]? = some c → Phase config c ∧ (i ∈ w.unsent.map Prod.fst ↔ c.steps = 1)
  event : ∀ p ∈ w.unsent, ∃ c, w.calls[p.1]? = some c ∧ c.event = p.2
  follows : ∀ s ∈ w.subscriptions, Follows (B.sent w.channel.sender) s

variable {config : ChannelConfig} {w w' : ChannelSession B}

theorem Follows.append {sent : List (Event D)} {s : Subscription B} (h : Follows sent s)
    (more : List (Event D)) : Follows (sent ++ more) s := by
  obtain ⟨before, seen, rest, hsent, hearly, hfollowed⟩ := h
  exact ⟨before, seen, rest ++ more, by rw [hsent, List.append_assoc], hearly, hfollowed⟩

theorem Wired.unsent_eq_nil (h : Wired config w) (hdone : ∀ c ∈ w.calls, c.prog.isDone = true) :
    w.unsent = [] := by
  rw [List.eq_nil_iff_forall_not_mem]
  intro p hp
  obtain ⟨c, hc, -⟩ := h.event p hp
  obtain ⟨hphase, hmem⟩ := h.phase p.1 c hc
  have hone : c.steps = 1 := hmem.mp (List.mem_map_of_mem hp)
  have hended := hdone c (List.mem_of_getElem? hc)
  rcases hphase with ⟨hsteps, -⟩ | ⟨-, hprog⟩ | ⟨hsteps, -⟩
  · omega
  · rw [hprog] at hended
    cases hended
  · omega

theorem tryRecv_of_pass {self : ChannelReceiver B} {sender : B.Sender}
    (h : (self.tryRecvPass sender).1 = some (.ok none)) :
    ∃ receiver, B.tryRecv sender self.receiver = (.empty, receiver) := by
  rw [ChannelReceiver.tryRecvPass] at h
  rcases hrecv : B.tryRecv sender self.receiver with ⟨event | _ | _ | missed, receiver⟩
  · rw [hrecv] at h
    dsimp only at h
    split_ifs at h
    cases Except.ok.inj (Option.some.inj h)
  · exact ⟨receiver, rfl⟩
  · rw [hrecv] at h
    cases Option.some.inj h
  · rw [hrecv] at h
    cases Option.some.inj h

theorem Wired.inOrder (h : Wired config w) : InOrder w := by
  refine ⟨?_, fun count => ?_, fun s hs => ?_⟩
  · rw [h.config_eq]
    exact h.history
  · rw [Channel.getHistory, h.history, Layers.lastEntries_eq, List.reverse_reverse, List.take_take,
      h.config_eq]
  · obtain ⟨before, seen, rest, hsent, hearly, hfollowed⟩ := h.follows s hs
    refine ⟨?_, fun hall => ⟨before, seen, rest ++ w.unsent.map Prod.snd, ?_, hearly,
      hfollowed.complete hall, fun hdone hempty => ?_⟩⟩
    · rw [h.published, hsent]
      refine (hfollowed.sublist.trans List.filter_sublist).trans ?_
      rw [List.append_assoc, List.append_assoc]
      exact (List.sublist_append_left _ _).trans (List.sublist_append_right _ _)
    · rw [h.published, hsent, List.append_assoc]
    · obtain ⟨receiver, hrecv⟩ := tryRecv_of_pass hempty
      rw [hfollowed.empty hsent hrecv, h.unsent_eq_nil hdone]
      rfl

/-! ## Sections -/

section Advance

variable {i : ℕ} {c : PublishCall B} {next : Channel B → Channel B}
  {rest : Channel B → Prog (Channel B) ℕ}

theorem advance_published_first (h : c.steps = 0) :
    (w.advance i c next rest).published = w.published ++ [c.event] :=
  if_pos h

theorem advance_published_later (h : c.steps ≠ 0) :
    (w.advance i c next rest).published = w.published :=
  if_neg h

theorem advance_unsent_first (h : c.steps = 0) :
    (w.advance i c next rest).unsent = w.unsent ++ [(i, c.event)] :=
  if_pos h

theorem advance_unsent_second (h : c.steps = 1) :
    (w.advance i c next rest).unsent = w.unsent.eraseP fun p => p.1 = i :=
  (if_neg (by omega)).trans (if_pos h)

theorem advance_unsent_later (h : 2 ≤ c.steps) : (w.advance i c next rest).unsent = w.unsent :=
  (if_neg (by omega)).trans (if_neg (by omega))

theorem getElem?_advance (hc : w.calls[i]? = some c) {j : ℕ} {d : PublishCall B}
    (hd : (w.advance i c next rest).calls[j]? = some d) :
    (j = i ∧ d = { c with prog := rest w.channel, steps := c.steps + 1 }) ∨
      (j ≠ i ∧ w.calls[j]? = some d) := by
  by_cases hj : j = i
  · subst hj
    obtain ⟨hi, -⟩ := List.getElem?_eq_some_iff.mp hc
    rw [advance, List.getElem?_set_self hi] at hd
    exact Or.inl ⟨rfl, (Option.some.inj hd).symm⟩
  · rw [advance, List.getElem?_set_ne (Ne.symm hj)] at hd
    exact Or.inr ⟨hj, hd⟩

theorem exists_getElem?_advance (hc : w.calls[i]? = some c) {j : ℕ} {e : Event D}
    (h : ∃ d, w.calls[j]? = some d ∧ d.event = e) :
    ∃ d, (w.advance i c next rest).calls[j]? = some d ∧ d.event = e := by
  obtain ⟨d, hd, rfl⟩ := h
  by_cases hj : j = i
  · subst hj
    obtain ⟨hi, -⟩ := List.getElem?_eq_some_iff.mp hc
    obtain rfl := Option.some.inj (hc.symm.trans hd)
    exact ⟨_, List.getElem?_set_self hi, rfl⟩
  · exact ⟨d, (List.getElem?_set_ne (Ne.symm hj)).trans hd, rfl⟩

theorem Wired.record (h : Wired config w) (hpersistent : config.persistent = true)
    (hc : w.calls[i]? = some c) (hprog : c.prog = .atom next rest) (hsteps : c.steps = 0)
    (hpublish : c.prog = Channel.publish config c.event) : Wired config (w.advance i c next rest) := by
  rw [hprog, Channel.publish, if_pos hpersistent] at hpublish
  obtain ⟨rfl, rfl⟩ := Prog.atom.inj hpublish
  have hnew : i ∉ w.unsent.map Prod.fst := fun hmem => by
    have hone := (h.phase i c hc).2.mp hmem
    omega
  refine ⟨h.config_eq, ?_, ?_, ?_, fun j d hd => ?_, fun p hp => ?_, h.follows⟩
  · rw [advance_published_first hsteps]
    refine (recordHistory_history c.event w.channel).trans ?_
    rw [h.config_eq, h.history, lastEntries_concat]
  · rw [advance_published_first hsteps, advance_unsent_first hsteps, List.map_append,
      ← List.append_assoc, h.published]
    rfl
  · rw [advance_unsent_first hsteps, List.map_append]
    refine List.nodup_append.mpr ⟨h.nodup, List.nodup_singleton _, fun a ha b hb hab => hnew ?_⟩
    have hi : a = i := hab.trans (List.mem_singleton.mp hb)
    exact hi ▸ ha
  · rw [advance_unsent_first hsteps, List.map_append, List.mem_append]
    rcases getElem?_advance hc hd with ⟨rfl, rfl⟩ | ⟨hne, hold⟩
    · refine ⟨Or.inr (Or.inl ⟨?_, rfl⟩), iff_of_true (Or.inr (List.mem_singleton_self _)) ?_⟩
      · exact congrArg (· + 1) hsteps
      · exact congrArg (· + 1) hsteps
    · obtain ⟨hphase, hmem⟩ := h.phase j d hold
      refine ⟨hphase, (or_iff_left ?_).trans hmem⟩
      exact fun hj => hne (List.mem_singleton.mp hj)
  · rw [advance_unsent_first hsteps] at hp
    rcases List.mem_append.mp hp with hold | hlast
    · exact exists_getElem?_advance hc (h.event p hold)
    · rw [List.mem_singleton.mp hlast]
      exact exists_getElem?_advance hc ⟨c, hc, rfl⟩

theorem Wired.send (h : Wired config w) (hturn : (w.unsent.map Prod.fst).head? = some i)
    (hc : w.calls[i]? = some c) (hprog : c.prog = .atom next rest) (hsteps : c.steps = 1)
    (hsend : c.prog = Channel.sendAndCount c.event) : Wired config (w.advance i c next rest) := by
  rw [hprog] at hsend
  obtain ⟨rfl, rfl⟩ := Prog.atom.inj hsend
  obtain ⟨p, unsent, hunsent⟩ : ∃ p unsent, w.unsent = p :: unsent := by
    cases hw : w.unsent with
    | nil =>
      rw [hw] at hturn
      cases hturn
    | cons p unsent => exact ⟨p, unsent, rfl⟩
  have hp : p.1 = i := by
    rw [hunsent] at hturn
    exact Option.some.inj hturn
  obtain ⟨c', hc', hevent⟩ := h.event p (hunsent ▸ List.mem_cons_self)
  rw [hp, hc] at hc'
  obtain rfl := Option.some.inj hc'
  have hzero : c.steps ≠ 0 := by omega
  have hleft : w.unsent.eraseP (fun p => p.1 = i) = unsent := by
    rw [hunsent, List.eraseP_cons, decide_eq_true hp]
    rfl
  have hnodup := h.nodup
  rw [hunsent, List.map_cons, List.nodup_cons, hp] at hnodup
  have hsent : B.sent (B.send w.channel.sender c.event).2 =
      B.sent w.channel.sender ++ [c.event] := B.sent_send _ _
  refine ⟨h.config_eq, ?_, ?_, ?_, fun j d hd => ?_, fun q hq => ?_, fun s hs => ?_⟩
  · rw [advance_published_later hzero]
    exact h.history
  · rw [advance_published_later hzero, advance_unsent_second hsteps, hleft]
    change w.published = B.sent (B.send w.channel.sender c.event).2 ++ _
    rw [hsent, h.published, hunsent, List.map_cons, ← hevent, List.append_assoc]
    rfl
  · rw [advance_unsent_second hsteps, hleft]
    exact hnodup.2
  · rw [advance_unsent_second hsteps, hleft]
    rcases getElem?_advance hc hd with ⟨rfl, rfl⟩ | ⟨hne, hold⟩
    · refine ⟨Or.inr (Or.inr ⟨?_, ?_⟩), iff_of_false hnodup.1 ?_⟩
      · change 2 ≤ c.steps + 1
        omega
      · exact fun _ _ => ⟨⟨rfl, rfl, rfl⟩, trivial⟩
      · change c.steps + 1 ≠ 1
        omega
    · obtain ⟨hphase, hmem⟩ := h.phase j d hold
      refine ⟨hphase, ?_⟩
      rw [← hmem, hunsent, List.map_cons, List.mem_cons, hp]
      exact (or_iff_right hne).symm
  · rw [advance_unsent_second hsteps, hleft] at hq
    exact exists_getElem?_advance hc (h.event q (hunsent ▸ List.mem_cons_of_mem _ hq))
  · change Follows (B.sent (B.send w.channel.sender c.event).2) s
    rw [hsent]
    exact (h.follows s hs).append _

theorem Wired.later (h : Wired config w) (hc : w.calls[i]? = some c)
    (hprog : c.prog = .atom next rest) (hsteps : 2 ≤ c.steps)
    (hquiet : c.prog.Always (fun _ => True) Quiet fun _ => True) :
    Wired config (w.advance i c next rest) := by
  obtain ⟨⟨hconfig, hsender, hhistory⟩, hrest⟩ := hquiet.of_atom hprog trivial
  have hzero : c.steps ≠ 0 := by omega
  have hone : c.steps ≠ 1 := by omega
  refine ⟨hconfig.trans h.config_eq, ?_, ?_, ?_, fun j d hd => ?_, fun p hp => ?_, fun s hs => ?_⟩
  · rw [advance_published_later hzero]
    exact hhistory.trans h.history
  · rw [advance_published_later hzero, advance_unsent_later hsteps]
    change w.published = B.sent (next w.channel).sender ++ _
    rw [hsender]
    exact h.published
  · rw [advance_unsent_later hsteps]
    exact h.nodup
  · rw [advance_unsent_later hsteps]
    rcases getElem?_advance hc hd with ⟨rfl, rfl⟩ | ⟨-, hold⟩
    · refine ⟨Or.inr (Or.inr ⟨?_, hrest⟩), iff_of_false (fun hmem => ?_) ?_⟩
      · change 2 ≤ c.steps + 1
        omega
      · exact hone ((h.phase j c hc).2.mp hmem)
      · change c.steps + 1 ≠ 1
        omega
    · exact h.phase j d hold
  · rw [advance_unsent_later hsteps] at hp
    exact exists_getElem?_advance hc (h.event p hp)
  · change Follows (B.sent (next w.channel).sender) s
    rw [hsender]
    exact h.follows s hs

end Advance

theorem Wired.resume (h : Wired config w) (hpersistent : config.persistent = true) {i : ℕ}
    (hturn : w.SentInTurn (.resume i)) (hstep : w.step (.resume i) = some w') :
    Wired config w' := by
  rw [step] at hstep
  obtain ⟨c, hc, hnext⟩ := Option.bind_eq_some_iff.mp hstep
  cases hprog : c.prog with
  | done r =>
    rw [hprog] at hnext
    cases hnext
  | atom next rest =>
    rw [hprog] at hnext
    obtain rfl := Option.some.inj hnext
    rcases (h.phase i c hc).1 with ⟨hsteps, hpublish⟩ | ⟨hsteps, hsend⟩ | ⟨hsteps, hquiet⟩
    · exact h.record hpersistent hc hprog hsteps hpublish
    · exact h.send (hturn c hc hsteps) hc hprog hsteps hsend
    · exact h.later hc hprog hsteps hquiet

/-! ## Receivers -/

theorem deliver_eq (self : ChannelReceiver B) (event : Event D) :
    (self.deliver event).receiver = self.receiver ∧ (self.deliver event).filter = self.filter := by
  rw [ChannelReceiver.deliver]
  cases self.ackMode <;> exact ⟨rfl, rfl⟩

theorem wants_congr {self self' : ChannelReceiver B} (h : self'.filter = self.filter) :
    self'.wants = self.wants := by
  funext event
  rw [ChannelReceiver.wants, ChannelReceiver.wants, h]

theorem ack_eq {self self' : ChannelReceiver B} {offset : ℕ} (h : self.ack offset = .ok self') :
    self'.receiver = self.receiver ∧ self'.filter = self.filter := by
  rw [ChannelReceiver.ack] at h
  split_ifs at h
  · obtain rfl := Except.ok.inj h
    exact ⟨rfl, rfl⟩
  · obtain rfl := Except.ok.inj h
    exact ⟨rfl, rfl⟩

theorem Follows.received {s : Subscription B} (h : Follows (B.sent w.channel.sender) s) :
    Follows (B.sent w.channel.sender) (w.received s) := by
  obtain ⟨before, seen, rest, hsent, hearly, hfollowed⟩ := h
  rw [ChannelSession.received, ChannelReceiver.tryRecvPass]
  rcases hrecv : B.tryRecv w.channel.sender s.receiver.receiver with
    ⟨event | _ | _ | missed, receiver⟩
  · obtain ⟨rest', rfl, hok⟩ := hfollowed.ok hsent hrecv
    have hsent' : B.sent w.channel.sender = before ++ (seen ++ [event]) ++ rest' := by
      rw [hsent, List.append_assoc, List.append_assoc, List.append_assoc]
      rfl
    dsimp only
    rw [show ({ s.receiver with receiver } : ChannelReceiver B).wants event =
      s.receiver.wants event from rfl]
    by_cases hwants : s.receiver.wants event = true
    · rw [if_pos hwants] at hok ⊢
      obtain ⟨hreceiver, hfilter⟩ := deliver_eq ({ s.receiver with receiver } : ChannelReceiver B)
        event
      refine ⟨before, seen ++ [event], rest', hsent', hearly, ?_⟩
      dsimp only
      rw [hreceiver, wants_congr hfilter]
      exact hok
    · rw [if_neg hwants] at hok ⊢
      exact ⟨before, seen ++ [event], rest', hsent', hearly, hok⟩
  · exact ⟨before, seen, rest, hsent, hearly, hfollowed.of_next_eq (B.tryRecv_empty hrecv).2⟩
  · exact ⟨before, seen, rest, hsent, hearly, hfollowed.of_next_eq (B.tryRecv_closed hrecv)⟩
  · refine ⟨before, seen ++ rest.take missed, rest.drop missed, ?_, hearly,
      hfollowed.lagged hsent hrecv⟩
    rw [hsent, List.append_assoc, List.append_assoc, List.append_assoc, List.take_append_drop]

theorem Wired.set_subscription (h : Wired config w) (j : ℕ) {s : Subscription B}
    (hs : Follows (B.sent w.channel.sender) s) :
    Wired config { w with subscriptions := w.subscriptions.set j s } := by
  refine ⟨h.config_eq, h.history, h.published, h.nodup, h.phase, h.event, fun s' hs' => ?_⟩
  rcases List.mem_or_eq_of_mem_set hs' with hold | rfl
  · exact h.follows s' hold
  · exact hs

theorem Wired.subscribe (h : Wired config w) {subscriberId : String} {filter : Option EventFilter}
    {ackMode : AckMode} {receiver : ChannelReceiver B} {channel : Channel B}
    (hsub : w.channel.subscribeWithAckMode subscriberId filter ackMode = .ok (receiver, channel)) :
    Wired config { w with
      channel
      subscriptions := w.subscriptions ++ [{ receiver, early := w.published.isEmpty }] } := by
  rw [Channel.subscribeWithAckMode] at hsub
  split_ifs at hsub
  obtain ⟨rfl, rfl⟩ := Prod.mk.inj (Except.ok.inj hsub)
  have hsent : B.sent (B.subscribe w.channel.sender).2 = B.sent w.channel.sender :=
    B.sent_subscribe _
  refine ⟨h.config_eq, h.history, ?_, h.nodup, h.phase, h.event, fun s hs => ?_⟩
  · dsimp only
    rw [hsent]
    exact h.published
  · dsimp only
    rw [hsent]
    rcases List.mem_append.mp hs with hold | hnew
    · exact h.follows s hold
    · rw [List.mem_singleton.mp hnew]
      refine ⟨B.sent w.channel.sender, [], [], by rw [List.append_nil, List.append_nil],
        fun hearly => ?_, Broadcast.followed_subscribe w.channel.sender⟩
      -- before anything is published nothing is sent
      have hnone := h.published
      rw [List.isEmpty_iff.mp hearly] at hnone
      exact (List.append_eq_nil_iff.mp hnone.symm).1

/-! ## The result -/

/-- One section keeps what is sent in the order of what is published. -/
theorem Wired.step (h : Wired config w) (hpersistent : config.persistent = true)
    {e : ChannelAction D} (hturn : w.SentInTurn e) (hstep : w.step e = some w') :
    Wired config w' := by
  cases e with
  | publish event =>
    obtain rfl := Option.some.inj hstep
    refine ⟨h.config_eq, h.history, h.published, h.nodup, fun i c hc => ?_, fun p hp => ?_,
      h.follows⟩
    · rcases Nat.lt_or_ge i w.calls.length with hold | hnew
      · exact h.phase i c ((List.getElem?_append_left hold).symm.trans hc)
      · obtain rfl := List.mem_singleton.mp (List.mem_of_getElem?
          ((List.getElem?_append_right hnew).symm.trans hc))
        refine ⟨Or.inl ⟨rfl, by rw [h.config_eq]⟩, iff_of_false (fun hmem => ?_) nofun⟩
        obtain ⟨p, hp, hi⟩ := List.mem_map.mp hmem
        obtain ⟨d, hd, -⟩ := h.event p hp
        obtain ⟨hlt, -⟩ := List.getElem?_eq_some_iff.mp hd
        omega
    · obtain ⟨c, hc, hevent⟩ := h.event p hp
      obtain ⟨hlt, -⟩ := List.getElem?_eq_some_iff.mp hc
      exact ⟨c, (List.getElem?_append_left hlt).trans hc, hevent⟩
  | resume i => exact h.resume hpersistent hturn hstep
  | subscribe subscriberId filter ackMode =>
    rw [ChannelSession.step] at hstep
    cases hsub : w.channel.subscribeWithAckMode subscriberId filter ackMode with
    | error e =>
      rw [hsub] at hstep
      obtain rfl := Option.some.inj hstep
      exact h
    | ok made =>
      rw [hsub] at hstep
      obtain rfl := Option.some.inj hstep
      exact h.subscribe hsub
  | unsubscribe subscriberId =>
    obtain rfl := Option.some.inj hstep
    have hsame : Quiet w.channel (w.channel.unsubscribe subscriberId) := by
      rw [Channel.unsubscribe]
      split_ifs <;> exact ⟨rfl, rfl, rfl⟩
    obtain ⟨hconfig, hsender, hhistory⟩ := hsame
    refine ⟨hconfig.trans h.config_eq, hhistory.trans h.history, ?_, h.nodup, h.phase, h.event,
      fun s hs => ?_⟩
    · dsimp only
      rw [hsender]
      exact h.published
    · dsimp only
      rw [hsender]
      exact h.follows s hs
  | receive j =>
    obtain ⟨s, hs, rfl⟩ := Option.map_eq_some_iff.mp hstep
    exact h.set_subscription j (h.follows s (List.mem_of_getElem? hs)).received
  | ack j offset =>
    obtain ⟨s, hs, hack⟩ := Option.bind_eq_some_iff.mp hstep
    cases hresult : s.receiver.ack offset with
    | error e =>
      rw [hresult] at hack
      obtain rfl := Option.some.inj hack
      exact h
    | ok receiver =>
      rw [hresult] at hack
      obtain rfl := Option.some.inj hack
      obtain ⟨before, seen, rest, hsent, hearly, hfollowed⟩ :=
        h.follows s (List.mem_of_getElem? hs)
      obtain ⟨hreceiver, hfilter⟩ := ack_eq hresult
      refine h.set_subscription j ⟨before, seen, rest, hsent, hearly, ?_⟩
      dsimp only
      rw [hreceiver, wants_congr hfilter]
      exact hfollowed

/-- In every run on a persistent channel in which every event is sent before those that were
published behind it, the history has the last events that were published, and every receiver gets
the events in the order of the history. -/
theorem inOrder_of_reach (hpersistent : config.persistent = true)
    (h : (system B config).Reach SentInTurn w) : InOrder w := by
  refine (System.Reach.invariant (P := Wired config) ?_
    (fun s e s' _ ih hturn hs => ih.step hpersistent hturn hs) h).inOrder
  refine ⟨rfl, List.drop_nil.symm, ?_, List.nodup_nil, fun _ _ hc => ?_, fun _ hp => (nomatch hp),
    fun _ hs => (nomatch hs)⟩
  · have hnone : B.sent (B.channel config.bufferSize) = [] := B.sent_channel _
    exact (List.append_eq_nil_iff.mpr ⟨hnone, rfl⟩).symm
  · cases hc

def named (id : String) : Event Unit :=
  { id, eventType := .created, source := "test", timestamp := 0, data := () }

/-- A persistent channel that keeps two events. -/
def keepsTwo : ChannelConfig :=
  { persistent := true, retentionCount := 2 }

/-- Two publications, of which the second appends before the first sends, and a third. -/
def threeInTurn : List (ChannelAction Unit) :=
  [.subscribe "s" none .auto, .publish (named "a"), .publish (named "b"), .publish (named "c"),
    .resume 0, .resume 1, .resume 0, .resume 1, .resume 0, .resume 2, .resume 2, .receive 0,
    .receive 0, .receive 0, .receive 0]

/-- The receiver gets all three, and two of them are in the history. -/
theorem inOrder_of_reach_threeInTurn : ∃ w,
    (system (Broadcast.ofList (Event Unit)) keepsTwo).run SentInTurn threeInTurn = some w ∧
      w.subscriptions.map Subscription.got = [[named "a", named "b", named "c"]] ∧
      w.channel.history = [named "b", named "c"] ∧ InOrder w := by
  have hrun : ((system (Broadcast.ofList (Event Unit)) keepsTwo).run SentInTurn threeInTurn).any
      (fun w => decide (w.subscriptions.map Subscription.got = [[named "a", named "b", named "c"]] ∧
        w.channel.history = [named "b", named "c"])) = true := by
    decide +kernel
  obtain ⟨w, hw, hreach, hgot⟩ := System.exists_reach_of_any hrun
  obtain ⟨hgot, hhistory⟩ := of_decide_eq_true hgot
  exact ⟨w, hw, hgot, hhistory, inOrder_of_reach rfl hreach⟩

/-- Two publications, of which the second sends first. -/
def overtaken : List (ChannelAction Unit) :=
  [.subscribe "s" none .auto, .publish (named "a"), .publish (named "b"), .resume 0, .resume 1,
    .resume 1, .resume 0, .receive 0, .receive 0]

/-- The receiver gets the events in another order than the history has them. -/
theorem not_inOrder : ∃ w, (system (Broadcast.ofList (Event Unit)) keepsTwo).Reachable w ∧
    ¬InOrder w := by
  have hrun : ((system (Broadcast.ofList (Event Unit)) keepsTwo).run (fun _ _ => True)
      overtaken).any (fun w => decide (w.published = [named "a", named "b"] ∧
        w.subscriptions.map Subscription.got = [[named "b", named "a"]])) = true := by
    decide +kernel
  obtain ⟨w, -, hreach, hswapped⟩ := System.exists_reach_of_any hrun
  obtain ⟨hpublished, hgot⟩ := of_decide_eq_true hswapped
  refine ⟨w, hreach, fun h => ?_⟩
  obtain ⟨s, hs, hsgot⟩ := List.mem_map.mp (hgot ▸ List.mem_singleton_self _ :
    [named "b", named "a"] ∈ w.subscriptions.map Subscription.got)
  have hsublist := (h.receivers s hs).sublist
  rw [hsgot, hpublished] at hsublist
  revert hsublist
  decide

end ChannelSession

end AegisDB.Streaming
