import Courier.Proofs.Stream.Custody

/-!
The polls of the connections that peers opened. Nothing gets lost, whether recent activity
is tracked or not. Turns are another matter: the cursor of the polls stays where it is when
a cleanup shortens the list before it, and somebody who waits is passed over.
-/

namespace Courier.Stream.Service

/-! ## The list -/

/-- A cleanup lets the connection stay on the list. -/
def stays (s : Service) (k : Nat) : Bool := s.roster.live k || s.roster.waiting k

/-- Only a cleanup takes connections off the list, and only disconnected ones that have no
message. -/
def KeepsAccepted (s : Service) (e : Event) : Prop :=
  ∀ k ∈ s.channel.accepted, k ∈ (s.step e).channel.accepted ∨
    e = .cleanup .inbound ∧ s.roster.live k = false ∧ s.inbox k = []

theorem Sound.keepsAccepted {s : Service} (h : s.Sound) (e : Event) : s.KeepsAccepted e := by
  intro k hk
  have hm := h.moves e
  generalize s.step e = s' at hm
  cases hm with
  | quiet _ _ _ _ keeps => exact Or.inl (keeps .inbound k hk)
  | forgotten =>
    by_cases hstays : s.stays k = true
    · exact Or.inl (List.mem_filter.mpr ⟨hk, hstays⟩)
    · obtain ⟨hlive, hwaiting⟩ : s.roster.live k = false ∧ s.roster.waiting k = false := by
        simpa [stays] using hstays
      exact Or.inr ⟨rfl, hlive, Roster.waiting_eq_false_iff.mp hwaiting⟩
  | polled _ _ _ _ channel _ _ hp =>
    exact Or.inl (hp.served.accepted ▸ hk : k ∈ channel.inbound.connections)

/-- However many peers connect, from whichever addresses, and whether or not recent activity
is tracked: the polls return what a listed connection received, once and in order, and
nothing only if there is nothing; and no connection is forgotten that is live or has a
message. -/
theorem accepted_run (c : Config) (tracked : Bool) (before later : List Event) :
    (run c tracked before).Conserves .inbound later ∧
      ∀ e, (run c tracked before).KeepsAccepted e := by
  have h := sound_run c tracked before
  exact ⟨h.conserves .inbound later, h.keepsAccepted⟩

/-! ## Turns -/

/-- The cleanups that take a connection off the list from before the cursor. -/
def slips (s : Service) : Event → List Event
  | .cleanup .inbound =>
    if (s.channel.inbound.connections.take s.channel.inbound.cursor).all s.stays then []
    else [.cleanup .inbound]
  | _ => []

/-- Recent activity is not tracked. -/
def Untracked (s : Service) : Prop := s.channel.inbound.recent = none

/-- What an event makes of the list. -/
inductive Lists (s : Service) : Event → Inbound Nat → Prop
  | same (e : Event) (other : e ≠ .poll .inbound) : Lists s e s.channel.inbound
  | added (a : SocketAddr) : Lists s (.accept a) (s.channel.inbound.add s.roster.size)
  | noted (a : SocketAddr) (count : Nat) :
      Lists s (.note a count) (s.channel.inbound.noteActivity a count)
  | forgotten :
      Lists s (.cleanup .inbound) (s.channel.inbound.cleanup s.roster.live s.roster.waiting)
  | polled (inbound : Inbound Nat)
      (polls : Inbound.Polls s.roster.waiting s.channel.inbound
        (s.channel.turn s.roster .inbound) inbound) : Lists s (.poll .inbound) inbound

/-- The first of two connections has its turn before the second, if that is listed. -/
def Before (s : Service) (y x : Nat) : Prop :=
  x ∈ s.channel.accepted → [y, x].Sublist s.channel.inbound.lap

section

variable {s : Service} {e : Event} {x y : Nat}

theorem Sound.lists (h : s.Sound) (e : Event) : Lists s e (s.step e).channel.inbound := by
  have hs := steps_step h.pool h.placed e
  generalize s.step e = s' at hs
  cases hs with
  | idle => exact .same _ nofun
  | seated => exact .same _ nofun
  | torn => exact .same _ nofun
  | reclaimed => exact .same _ nofun
  | forgotten => exact .forgotten
  | accepted a => exact .added a
  | opened => exact .same _ nofun
  | noted a count => exact .noted a count
  | happened => exact .same _ nofun
  | polled side found message roster channel hturn _ hp =>
    have hserved := hp.served
    subst hturn
    cases side with
    | inbound =>
      generalize hturn : s.channel.turn s.roster .inbound = found at hserved
      cases hserved with
      | inbound _ inbound polls => exact .polled inbound (hturn ▸ polls)
    | outbound =>
      generalize s.channel.turn s.roster .outbound = found at hserved
      cases hserved with
      | outbound => exact .same _ nofun

theorem Sound.untracked_step (h : s.Sound) (hu : s.Untracked) (e : Event) :
    (s.step e).Untracked := by
  have hl := h.lists e
  unfold Untracked
  generalize (s.step e).channel.inbound = inbound at hl
  cases hl with
  | same => exact hu
  | added => exact hu
  | noted a count =>
    show s.channel.inbound.recent.map _ = none
    rw [show s.channel.inbound.recent = none from hu, Option.map_none]
  | forgotten => exact hu
  | polled inbound polls => exact (polls.turns hu).1

theorem untracked_run (c : Config) (events : List Event) : (run c false events).Untracked := by
  induction events using List.reverseRecOn with
  | nil => rfl
  | append_singleton events e ih =>
    rw [run, after_append]
    exact (sound_run c false events).untracked_step ih e

theorem Sound.accepted_poll (h : s.Sound) :
    (s.step (.poll .inbound)).channel.accepted = s.channel.accepted := by
  have hl := h.lists (.poll .inbound)
  unfold Channel.accepted
  generalize (s.step (.poll .inbound)).channel.inbound = inbound at hl
  cases hl with
  | same => rfl
  | polled _ polls => exact polls.connections

theorem Sound.scans (h : s.Sound) (hu : s.Untracked) :
    Scans s.roster.waiting s.channel.inbound.lap (s.channel.turn s.roster .inbound)
      (s.step (.poll .inbound)).channel.inbound.lap := by
  have hl := h.lists (.poll .inbound)
  generalize (s.step (.poll .inbound)).channel.inbound = inbound at hl
  cases hl with
  | same _ hother => exact absurd rfl hother
  | polled _ polls => exact (polls.turns hu).2

/-- Who has a message keeps its place before another one until it has its turn, unless a
cleanup slips. -/
theorem Before.step (hb : s.Before y x) (h : s.Sound) (hu : s.Untracked)
    (hx : x < s.roster.size) (hy : s.inbox y ≠ []) (hslips : s.slips e = [])
    (hsilent : ∀ message, (y, message) ∉ s.yields .inbound e) : (s.step e).Before y x := by
  intro hx'
  have hlisted : x ∈ s.channel.held .inbound :=
    (h.held_of_step (show x ∈ (s.step e).channel.held .inbound from hx')).resolve_right
      (Nat.not_le.mpr hx)
  have hlap : [y, x].Sublist s.channel.inbound.lap := hb hlisted
  have hwaiting : s.roster.waiting y = true := Roster.waiting_iff.mpr hy
  have hl := h.lists e
  unfold Channel.accepted at hx'
  generalize (s.step e).channel.inbound = inbound at hl hx' ⊢
  cases hl with
  | same => exact hlap
  | added => exact hlap.trans (s.channel.inbound.lap_add _)
  | noted => exact hlap
  | forgotten =>
    have hkeep : s.stays x = true := (List.mem_filter.mp hx').2
    have hstay : (s.channel.inbound.connections.take s.channel.inbound.cursor).all s.stays := by
      by_contra hnot
      rw [slips, if_neg hnot] at hslips
      cases hslips
    have hsub : ([y, x].filter s.stays).Sublist (s.channel.inbound.lap.filter s.stays) :=
      hlap.filter s.stays
    have hboth : [y, x].filter s.stays = [y, x] := by
      have hy' : s.stays y = true := by rw [stays, hwaiting, Bool.or_true]
      rw [List.filter_cons_of_pos hy', List.filter_cons_of_pos hkeep, List.filter_nil]
    rw [Inbound.lap_cleanup hstay]
    rwa [hboth] at hsub
  | polled inbound polls =>
    refine ((polls.turns hu).2.ahead (nodup_lap h.distinct) hlap hwaiting fun hturn => ?_).1
    obtain ⟨data, rest, _, hyields⟩ := h.yields_turn hturn
    exact hsilent _ (hyields ▸ List.mem_singleton_self _)

/-- After its turn a connection comes after all others. -/
theorem Sound.before_of_turn (h : s.Sound) (hu : s.Untracked)
    (hturn : s.channel.turn s.roster .inbound = some x) (hy : y ∈ s.channel.accepted)
    (hne : y ≠ x) : (s.step (.poll .inbound)).Before y x := by
  have hscans := h.scans hu
  rw [hturn] at hscans
  exact fun _ => hscans.last (mem_lap.mpr hy) hne

theorem Before.turn_ne (hb : s.Before y x) (h : s.Sound) (hu : s.Untracked)
    (hy : s.inbox y ≠ []) (hne : y ≠ x) : s.channel.turn s.roster .inbound ≠ some x := by
  intro hturn
  have hscans := h.scans hu
  rw [hturn] at hscans
  have hlap := hb (mem_lap.mp hscans.mem.1)
  refine (hscans.ahead (nodup_lap h.distinct) hlap (Roster.waiting_iff.mpr hy) ?_).2 rfl
  rintro ⟨⟩
  exact hne rfl

/-- While one connection waits without a turn, another one gets a turn for each cleanup that
slips, and one more if it comes first. -/
theorem Sound.overtaken (h : s.Sound) (hu : s.Untracked) (hx : x < s.roster.size) (hne : y ≠ x)
    {later : List Event}
    (hwaits : ∀ i ≤ later.length, Waits Channel.accepted (s.after (later.take i)) y)
    (hsilent : ∀ message, (y, message) ∉ trace (yields .inbound) s later) :
    (s.Before y x → (ofConnection x (trace (yields .inbound) s later)).length ≤
      (trace slips s later).length) ∧
    (ofConnection x (trace (yields .inbound) s later)).length ≤
      (trace slips s later).length + 1 := by
  induction later generalizing s with
  | nil => exact ⟨fun _ => Nat.le_refl 0, Nat.zero_le _⟩
  | cons e later ih =>
    have hy := hwaits 0 (Nat.zero_le _)
    have hnext (i : Nat) (hi : i ≤ later.length) :
        Waits Channel.accepted ((s.step e).after (later.take i)) y :=
      hwaits (i + 1) (Nat.succ_le_succ hi)
    have hearly (message : Received) : (y, message) ∉ s.yields .inbound e := fun hm =>
      hsilent message (List.mem_append_left _ hm)
    have hlate (message : Received) : (y, message) ∉ trace (yields .inbound) (s.step e) later :=
      fun hm => hsilent message (List.mem_append_right _ hm)
    obtain ⟨hbefore, hany⟩ := ih (h.step e) (h.untracked_step hu e)
      (Nat.lt_of_lt_of_le hx (h.size_le_step e)) hnext hlate
    rw [trace, trace, ofConnection_append, List.length_append, List.length_append]
    rcases s.ofConnection_yields .inbound e x with hnone | ⟨hone, rfl, hturn⟩
    · rw [hnone, List.length_nil, Nat.zero_add]
      by_cases hslips : s.slips e = []
      · rw [hslips, List.length_nil, Nat.zero_add]
        exact ⟨fun hb => hbefore (hb.step h hu hx hy.2 hslips hearly), hany⟩
      · have hslip := List.length_pos_iff.mpr hslips
        exact ⟨fun _ => by omega, by omega⟩
    · -- the one that waits did not come first, and now it does
      have hcame := hbefore (h.before_of_turn hu hturn hy.1 hne)
      exact ⟨fun hb => absurd hturn (hb.turn_ne h hu hy.2 hne), by omega⟩

end

/-- Without tracking, the connections take turns up to the cleanups that slip: from one
message of a connection on, and as long as another one waits without a turn, no more messages
of the first one are returned than there are such cleanups. -/
theorem overtaken_run (c : Config) (before later : List Event) {s : Service}
    (hs : s = (run c false before).step (.poll .inbound)) {x y : Nat} (hne : y ≠ x)
    (hfirst : IsNext Channel.accepted .inbound (run c false before) x)
    (hwaits : ∀ i ≤ later.length, Waits Channel.accepted (s.after (later.take i)) y)
    (hsilent : ∀ message, (y, message) ∉ trace (yields .inbound) s later) :
    (ofConnection x (trace (yields .inbound) s later)).length ≤ (trace slips s later).length := by
  subst hs
  have h := sound_run c false before
  have hu := untracked_run c before
  have hx : x < (run c false before).roster.size := h.known .inbound x hfirst.2
  have hy : y ∈ (run c false before).channel.accepted := by
    rw [← h.accepted_poll]
    exact (hwaits 0 (Nat.zero_le _)).1
  exact ((h.step _).overtaken (h.untracked_step hu _)
    (Nat.lt_of_lt_of_le hx (h.size_le_step _)) hne hwaits hsilent).1
    (h.before_of_turn hu hfirst.1 hy hne)

/-- Three peers connect, and the last two send something. -/
def threePeers : List Event :=
  let peer (port : UInt16) : SocketAddr := ⟨.v4 127 0 0 1, port, 0⟩
  [.accept (peer 6001), .accept (peer 6002), .accept (peer 6003),
    .happen 0 .establish, .happen 1 .establish, .happen 2 .establish,
    .happen 1 (.receive (Frame.encode [0x31] ++ Frame.encode [0x32])),
    .happen 2 (.receive (Frame.encode [0x33]))]

/-- The first one leaves, and is forgotten. -/
def firstLeaves : List Event := [.happen 0 .hangUp, .cleanup .inbound]

theorem overtaken_threePeers :
    let s := (run {} false threePeers).step (.poll .inbound)
    (ofConnection 1 (trace (yields .inbound) s (firstLeaves ++ [.poll .inbound]))).length = 1 ∧
      1 ≤ (trace slips s (firstLeaves ++ [.poll .inbound])).length := by
  intro s
  have hone : (ofConnection 1 (trace (yields .inbound) s
      (firstLeaves ++ [.poll .inbound]))).length = 1 := by decide +kernel
  have hfirst : IsNext Channel.accepted .inbound (run {} false threePeers) 1 :=
    ⟨by decide +kernel, by decide⟩
  have hwaits : ∀ i ≤ 3, Waits Channel.accepted
      (s.after ((firstLeaves ++ [Event.poll .inbound]).take i)) 2 := by decide +kernel
  have hsilent : 2 ∉ (trace (yields .inbound) s (firstLeaves ++ [.poll .inbound])).map (·.1) := by
    decide +kernel
  exact ⟨hone, hone ▸ overtaken_run {} threePeers _ rfl (by decide) hfirst hwaits
    fun message hm => hsilent (List.mem_map_of_mem hm)⟩

/-- The second peer has two turns in a row, while the third one waits. -/
theorem passedOver_threePeers :
    Config.validate {} = .ok () ∧
      ¬ TakesTurns Channel.accepted .inbound (run {} false threePeers) firstLeaves := by
  refine ⟨rfl, fun h => ?_⟩
  obtain ⟨message, hm⟩ := h 1 2 (by decide) ⟨by decide +kernel, by decide⟩
    ⟨by decide +kernel, by decide +kernel⟩ (by decide +kernel)
  have hnone : trace (yields .inbound) ((run {} false threePeers).step (.poll .inbound))
      firstLeaves = [] := by decide +kernel
  rw [hnone] at hm
  cases hm

end Courier.Stream.Service
