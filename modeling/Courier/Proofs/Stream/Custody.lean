import Courier.Proofs.Stream.Service
import Mathlib.Algebra.BigOperators.Group.Finset.Piecewise
import Mathlib.Algebra.Order.BigOperators.Group.Finset

/-!
Received messages on their way to the application. What arrives at a connection that is
polled is returned once and in order, or it still waits there; no side lets go of a
connection that has a message; and whoever polls often enough gets everything.
-/

namespace Courier.Stream.Service

/-! ## Logs of a run -/

section

variable {α : Type}

/-- What the events of a run add to a log. -/
def trace (f : Service → Event → List α) : Service → List Event → List α
  | _, [] => []
  | s, e :: events => f s e ++ trace f (s.step e) events

end

def inbox (s : Service) (k : Nat) : List Bytes := s.roster.inbox k

/-- The messages that an event puts into inboxes. -/
def arrivals (s : Service) : Event → List (Nat × Bytes)
  | .happen k e => ((s.roster[k]?).elim [] (·.arrived e)).map (k, ·)
  | _ => []

/-- The messages that arrive at connections that are polled. -/
def received (side : Side) (s : Service) (e : Event) : List (Nat × Bytes) :=
  (s.arrivals e).filter (·.1 ∈ s.channel.held side)

/-- What the polls of a side return. -/
def answers (side : Side) (s : Service) : Event → List Received
  | .poll side' => if side' = side then (s.channel.poll s.roster side').1.toList else []
  | _ => []

/-- What the polls of a side return, and from which connection. -/
def yields (side : Side) (s : Service) : Event → List (Nat × Received)
  | .poll side' =>
    match s.channel.turn s.roster side', (s.channel.poll s.roster side').1 with
    | some k, some message => if side' = side then [(k, message)] else []
    | _, _ => []
  | _ => []

def isPoll (side : Side) : Event → Bool
  | .poll side' => side' = side
  | _ => false

/-- The messages that wait for the polls of a side. -/
def load (s : Service) (side : Side) : Nat :=
  ∑ k ∈ (s.channel.held side).toFinset, (s.inbox k).length

/-! ## One event -/

/-- What an event does to the inboxes, and to the connections that are polled. -/
inductive Moves (s : Service) : Event → Service → Prop
  /-- messages arrive, and a side may get a connection that is new -/
  | quiet (e : Event) (s' : Service) (busy : ∀ side, e ≠ .poll side)
      (evolves : s.roster.Evolves s'.roster (s.arrivals e))
      (keeps : ∀ side, ∀ k ∈ s.channel.held side, k ∈ s'.channel.held side)
      (gains : ∀ side, ∀ k ∈ s'.channel.held side, k ∈ s.channel.held side ∨ s.roster.size ≤ k) :
      Moves s e s'
  | forgotten :
      Moves s (.cleanup .inbound)
        { s with
          channel :=
            { s.channel with
              inbound := s.channel.inbound.cleanup s.roster.live s.roster.waiting } }
  | polled (side : Side) (found : Option Nat) (message : Option Received) (roster : Roster)
      (channel : Channel) (turn : s.channel.turn s.roster side = found)
      (answer : (s.channel.poll s.roster side).1 = message)
      (polled : s.channel.Polled s.roster side found (message, roster, channel)) :
      Moves s (.poll side) { s with roster, channel }

section

variable {s : Service} {side : Side} {k : Nat} {e : Event}

theorem Moves.of_same {s' : Service} (hbusy : ∀ side, e ≠ .poll side)
    (he : s.roster.Evolves s'.roster (s.arrivals e))
    (hheld : s'.channel.held = s.channel.held) : Moves s e s' :=
  .quiet e s' hbusy he (fun side k hk => by rwa [hheld]) fun side k hk => Or.inl (hheld ▸ hk)

theorem Moves.of_pool {roster : Roster} {pool : Pool Nat} (hbusy : ∀ side, e ≠ .poll side)
    (he : s.roster.Evolves roster (s.arrivals e))
    (hkeeps : ∀ k ∈ s.channel.pool.held, k ∈ pool.held)
    (hgains : ∀ k ∈ pool.held, k ∈ s.channel.pool.held ∨ s.roster.size ≤ k) :
    Moves s e { s with roster, channel := { s.channel with pool } } := by
  refine .quiet e _ hbusy he (fun side k hk => ?_) fun side k hk => ?_
  · cases side with
    | inbound => exact hk
    | outbound => exact hkeeps k hk
  · cases side with
    | inbound => exact Or.inl hk
    | outbound => exact hgains k hk

theorem Sound.moves (h : s.Sound) (e : Event) : Moves s e (s.step e) := by
  have hs := steps_step h.pool h.placed e
  generalize s.step e = s' at hs
  have hclosed (closed : List Nat) := s.roster.evolves_closeAll closed
  have hheld {places : List Nat} {pool : Pool Nat} {closed : List Nat}
      (he : Pool.Empties places s.channel.pool pool closed) (k : Nat) :
      k ∈ pool.held ↔ k ∈ s.channel.pool.held := he.mem_held (fun _ _ _ => h.pool.apart) k
  cases hs with
  | idle => exact .of_same nofun (.refl _) rfl
  | seated a places i pool closed he _ htaken hinside =>
    have hseat := Pool.mem_held_seat (he.size ▸ hinside)
      (show pool.slot? i = none by rw [he.slots, if_pos htaken]) a s.roster.size
    refine .of_pool nofun ((hclosed closed).trans (Roster.evolves_push _ rfl)) (fun k hk => ?_)
      fun k hk => ?_
    · exact (hseat k).mpr (Or.inr ((hheld he k).mpr hk))
    · exact ((hseat k).mp hk).symm.imp (hheld he k).mp fun heq => Nat.le_of_eq heq.symm
  | torn pool closed he =>
    exact .of_pool nofun (hclosed closed) (fun k => (hheld he k).mpr) fun k hk =>
      Or.inl ((hheld he k).mp hk)
  | reclaimed places pool closed he =>
    exact .of_pool nofun (hclosed closed) (fun k => (hheld he k).mpr) fun k hk =>
      Or.inl ((hheld he k).mp hk)
  | forgotten => exact .forgotten
  | accepted =>
    refine .quiet _ _ nofun (Roster.evolves_push _ rfl) (fun side k hk => ?_) fun side k hk => ?_
    · cases side with
      | inbound => exact List.mem_append_left _ hk
      | outbound => exact hk
    · cases side with
      | inbound =>
        exact (List.mem_append.mp hk).imp id fun hk => Nat.le_of_eq (List.mem_singleton.mp hk).symm
      | outbound => exact Or.inl hk
  | opened => exact .of_same nofun (Roster.evolves_push _ rfl) rfl
  | noted => exact .of_same nofun (.refl _) (funext fun side => by cases side <;> rfl)
  | happened k e =>
    exact .of_same nofun (s.roster.evolves_update k _ _ (Connection.grows_step · e)) rfl
  | polled side found message roster channel hturn hresult hp =>
    exact .polled side found message _ _ hturn (congrArg Prod.fst hresult) hp

/-- A side only gets connections that are new. -/
theorem Sound.held_of_step (h : s.Sound) (hk : k ∈ (s.step e).channel.held side) :
    k ∈ s.channel.held side ∨ s.roster.size ≤ k := by
  have hm := h.moves e
  generalize s.step e = s' at hm hk
  cases hm with
  | quiet _ _ _ _ _ gains => exact gains side k hk
  | forgotten =>
    cases side with
    | inbound => exact Or.inl (List.mem_of_mem_filter hk)
    | outbound => exact Or.inl hk
  | polled _ _ _ _ _ _ _ hp => exact Or.inl (hp.served.of_held hk)

/-- A side lets go of a connection only if that has no message. -/
theorem Sound.held_step (h : s.Sound) (e : Event) (hk : k ∈ s.channel.held side) :
    k ∈ (s.step e).channel.held side ∨ s.inbox k = [] := by
  have hm := h.moves e
  generalize s.step e = s' at hm
  cases hm with
  | quiet _ _ _ _ keeps => exact Or.inl (keeps side k hk)
  | forgotten =>
    cases side with
    | outbound => exact Or.inl hk
    | inbound =>
      by_cases hwaiting : s.roster.waiting k = true
      · exact Or.inl (List.mem_filter.mpr ⟨hk, by rw [hwaiting, Bool.or_true]⟩)
      · exact Or.inr (Roster.waiting_eq_false_iff.mp (Bool.eq_false_iff.mpr hwaiting))
  | polled _ _ _ _ _ _ _ hp => exact (hp.served.kept hk).imp id Roster.waiting_eq_false_iff.mp

/-! ## What is returned -/

theorem yields_of_busy (hbusy : ∀ side, e ≠ .poll side) (side : Side) : s.yields side e = [] := by
  cases e with
  | poll side' => exact absurd rfl (hbusy side')
  | _ => rfl

theorem yields_found {side' : Side} {message : Received}
    (hturn : s.channel.turn s.roster side' = some k)
    (hanswer : (s.channel.poll s.roster side').1 = some message) :
    s.yields side (.poll side') = if side' = side then [(k, message)] else [] := by
  rw [yields, hturn, hanswer]

theorem yields_vain {side' : Side} (hturn : s.channel.turn s.roster side' = none) :
    s.yields side (.poll side') = [] := by
  rw [yields, hturn]

/-- At most one message is returned, and it is one of the connection whose turn it is. -/
theorem ofConnection_yields (s : Service) (side : Side) (e : Event) (k : Nat) :
    ofConnection k (s.yields side e) = [] ∨
      (ofConnection k (s.yields side e)).length = 1 ∧ e = .poll side ∧
        s.channel.turn s.roster side = some k := by
  cases e with
  | poll side' =>
    cases hturn : s.channel.turn s.roster side' with
    | none => exact Or.inl (by rw [yields_vain hturn, ofConnection_nil])
    | some l =>
      cases hanswer : (s.channel.poll s.roster side').1 with
      | none => exact Or.inl (by simp [yields, hturn, hanswer])
      | some message =>
        rw [yields_found hturn hanswer]
        by_cases hside : side' = side
        · subst hside
          rw [if_pos rfl, ofConnection_single]
          by_cases hl : l = k
          · exact Or.inr ⟨by rw [if_pos hl, List.length_singleton], rfl, hl ▸ hturn⟩
          · exact Or.inl (if_neg hl)
        · exact Or.inl (by rw [if_neg hside, ofConnection_nil])
  | _ => exact Or.inl rfl

theorem Sound.yields_turn (h : s.Sound) (hturn : s.channel.turn s.roster side = some k) :
    ∃ data rest, s.inbox k = data :: rest ∧
      s.yields side (.poll side) = [(k, s.roster.message k data)] := by
  have hp := Channel.polled_poll h.placed s.roster side
  rw [hturn] at hp
  generalize hresult : s.channel.poll s.roster side = result at hp
  cases hp with
  | found _ data rest _ _ _ hinbox =>
    refine ⟨data, rest, hinbox, ?_⟩
    rw [yields_found hturn (congrArg Prod.fst hresult), if_pos rfl]

theorem Sound.peer?_step (h : s.Sound) (hk : k < s.roster.size) (e : Event) :
    (s.step e).roster.peer? k = s.roster.peer? k := by
  have hm := h.moves e
  generalize s.step e = s' at hm
  cases hm with
  | quiet _ _ _ evolves => exact evolves.peer k hk
  | forgotten => rfl
  | polled _ _ _ _ _ _ _ hp =>
    cases hp with
    | found _ _ _ _ _ _ _ takes => exact takes.peer k
    | vain => rfl

theorem Sound.size_le_step (h : s.Sound) (e : Event) :
    s.roster.size ≤ (s.step e).roster.size := by
  have hm := h.moves e
  generalize s.step e = s' at hm
  cases hm with
  | quiet _ _ _ evolves => exact evolves.size
  | forgotten => exact Nat.le_refl _
  | polled _ _ _ _ _ _ _ hp =>
    cases hp with
    | found _ _ _ _ _ _ _ takes => exact Nat.le_of_eq takes.size.symm
    | vain => exact Nat.le_refl _

theorem arrivals_of_size_le (hk : s.roster.size ≤ k) (e : Event) :
    ofConnection k (s.arrivals e) = [] := by
  cases e with
  | happen n e =>
    rw [arrivals, ofConnection_map]
    split
    · next hn => rw [hn, Array.getElem?_eq_none hk, Option.elim_none]
    · rfl
  | _ => rfl

/-- The other sides do not poll the connection. -/
def Alone (s : Service) (side : Side) (k : Nat) : Prop :=
  k < s.roster.size ∧ ∀ side' ≠ side, k ∉ s.channel.held side'

theorem Sound.alone (h : s.Sound) (hk : k ∈ s.channel.held side) : s.Alone side k := by
  refine ⟨h.known side k hk, fun side' hne hk' => ?_⟩
  cases side <;> cases side'
  · exact hne rfl
  · exact h.apart k hk hk'
  · exact h.apart k hk' hk
  · exact hne rfl

theorem Alone.step (ha : s.Alone side k) (h : s.Sound) (e : Event) :
    (s.step e).Alone side k := by
  refine ⟨Nat.lt_of_lt_of_le ha.1 (h.size_le_step e), fun side' hne hk => ?_⟩
  rcases h.held_of_step hk with hk | hk
  · exact ha.2 side' hne hk
  · exact Nat.not_lt.mpr hk ha.1

/-- What waited and what arrived is returned, in order, or waits. -/
theorem Sound.balance_step (h : s.Sound) (ha : s.Alone side k) (e : Event) :
    (s.inbox k ++ ofConnection k (s.arrivals e)).map (s.roster.message k) =
      ofConnection k (s.yields side e) ++ ((s.step e).inbox k).map (s.roster.message k) := by
  have hm := h.moves e
  generalize s.step e = s' at hm
  cases hm with
  | quiet _ _ hbusy evolves =>
    rw [yields_of_busy hbusy, inbox, inbox, evolves.inbox]
    rfl
  | forgotten => simp [arrivals, yields, inbox]
  | polled side' found message roster channel hturn hanswer hp =>
    rw [show s.arrivals (.poll side') = [] from rfl, ofConnection_nil, List.append_nil]
    cases hp with
    | vain => rw [yields_vain hturn, ofConnection_nil, List.nil_append]; rfl
    | found l data rest _ _ hserved hinbox htakes =>
      rw [yields_found hturn hanswer, inbox, inbox, htakes.inbox]
      by_cases hl : l = k
      · subst hl
        -- no other side polls it
        have hside : side' = side := by
          by_contra hne
          exact ha.2 side' hne hserved.served.1
        simp [hside, ofConnection_single, hinbox]
      · have hnot : ofConnection k (if side' = side then [(l, s.roster.message l data)] else []) =
            [] := by
          split
          · rw [ofConnection_single, if_neg hl]
          · rfl
        rw [hnot, if_neg (Ne.symm hl), List.nil_append]

theorem Alone.message_step (ha : s.Alone side k) (h : s.Sound) (e : Event) :
    (s.step e).roster.message k = s.roster.message k :=
  Roster.message_congr (h.peer?_step ha.1 e)

theorem Sound.balance (h : s.Sound) (ha : s.Alone side k) (events : List Event) :
    (s.inbox k ++ ofConnection k (trace arrivals s events)).map (s.roster.message k) =
      ofConnection k (trace (yields side) s events) ++
        ((s.after events).inbox k).map (s.roster.message k) := by
  induction events generalizing s with
  | nil => rw [trace, trace, ofConnection_nil, ofConnection_nil, List.append_nil]; rfl
  | cons e events ih =>
    have hstep := h.balance_step ha e
    have hrest := ih (h.step e) (ha.step h e)
    rw [ha.message_step h, List.map_append] at hrest
    rw [trace, trace, ofConnection_append, ofConnection_append, ← List.append_assoc,
      List.map_append, hstep, List.append_assoc, hrest, List.append_assoc, after_cons]

/-- What waited at a connection was returned. -/
def Returned (s : Service) (side : Side) (events : List Event) (k : Nat) : Prop :=
  (s.inbox k).map (s.roster.message k) <+: ofConnection k (trace (yields side) s events)

theorem returned_of_empty (hempty : s.inbox k = []) (events : List Event) :
    s.Returned side events k := by
  rw [Returned, hempty]
  exact List.nil_prefix

theorem Sound.returned_cons (h : s.Sound) (ha : s.Alone side k) {events : List Event}
    (hr : (s.step e).Returned side events k) : s.Returned side (e :: events) k := by
  rw [Returned, ha.message_step h] at hr
  have hstep := h.balance_step ha e
  rw [List.map_append] at hstep
  have hfirst : (s.inbox k).map (s.roster.message k) <+:
      ofConnection k (s.yields side e) ++ ((s.step e).inbox k).map (s.roster.message k) :=
    ⟨_, hstep⟩
  rw [Returned, trace, ofConnection_append]
  exact hfirst.trans ((List.prefix_append_right_inj _).mpr hr)

/-- A poll that has no answer has found all inboxes empty. -/
theorem Sound.vain_iff (h : s.Sound) (side : Side) :
    (s.channel.poll s.roster side).1 = none ↔ ∀ k ∈ s.channel.held side, s.inbox k = [] := by
  have hp := Channel.polled_poll h.placed s.roster side
  generalize s.channel.turn s.roster side = found at hp
  generalize s.channel.poll s.roster side = result at hp
  cases hp with
  | vain _ hserved =>
    exact iff_of_true rfl fun k hk => Roster.waiting_eq_false_iff.mp (hserved.vain hk)
  | found k data rest _ _ hserved hinbox =>
    refine iff_of_false nofun fun hempty => ?_
    cases (hempty k hserved.served.1).symm.trans hinbox

theorem isPoll_poll (side side' : Side) : isPoll side (.poll side') = decide (side' = side) := rfl

theorem isPoll_of_busy (hbusy : ∀ side, e ≠ .poll side) (side : Side) :
    isPoll side e = false := by
  cases e with
  | poll side' => exact absurd rfl (hbusy side')
  | _ => rfl

/-- A poll has an answer, or there is none to be had. -/
theorem Sound.answered (h : s.Sound) (side : Side) (e : Event) :
    (isPoll side e).toNat ≤ (s.yields side e).length ∨
      ∀ k ∈ s.channel.held side, s.inbox k = [] := by
  have hm := h.moves e
  generalize s.step e = s' at hm
  cases hm with
  | quiet _ _ hbusy => exact Or.inl (by simp [isPoll_of_busy hbusy])
  | forgotten => exact Or.inl (Nat.zero_le _)
  | polled side' found message roster channel hturn hanswer hp =>
    by_cases hside : side' = side
    · subst hside
      cases hp with
      | vain => exact Or.inr ((h.vain_iff side').mp hanswer)
      | found => exact Or.inl (by simp [yields_found hturn hanswer, isPoll_poll])
    · exact Or.inl (by simp [isPoll_poll, hside])

theorem countP_cons (events : List Event) : (e :: events).countP (isPoll side) =
    (isPoll side e).toNat + events.countP (isPoll side) := by
  rw [List.countP_cons, Nat.add_comm]
  cases isPoll side e <;> rfl

/-- Unless everything that waited at a connection was returned, the side still holds it, and
every poll of the side had an answer. -/
theorem Sound.returned_or_held (h : s.Sound) (hk : k ∈ s.channel.held side)
    (events : List Event) :
    s.Returned side events k ∨ k ∈ (s.after events).channel.held side ∧
      events.countP (isPoll side) ≤ (trace (yields side) s events).length := by
  induction events generalizing s with
  | nil => exact Or.inr ⟨hk, Nat.le_refl _⟩
  | cons e events ih =>
    -- with an empty inbox there is nothing to return, whatever comes
    rcases h.held_step e hk with hheld | hempty
    · rcases h.answered side e with hanswered | hempty
      · rcases ih (h.step e) hheld with hr | ⟨hlast, hcount⟩
        · exact Or.inl (h.returned_cons (h.alone hk) hr)
        · refine Or.inr ⟨hlast, ?_⟩
          rw [countP_cons, trace, List.length_append]
          exact Nat.add_le_add hanswered hcount
      · exact Or.inl (returned_of_empty (hempty k hk) _)
    · exact Or.inl (returned_of_empty hempty _)

/-! ## How much waits -/

theorem sum_length_ofConnection {α : Type} (ks : Finset Nat) (log : List (Nat × α)) :
    ∑ k ∈ ks, (ofConnection k log).length = (log.filter (·.1 ∈ ks)).length := by
  induction log with
  | nil => simp
  | cons x log ih =>
    obtain ⟨n, a⟩ := x
    have hone : ∑ k ∈ ks, (ofConnection k [(n, a)]).length = if n ∈ ks then 1 else 0 := by
      simp [ofConnection_single, apply_ite List.length, Finset.sum_ite_eq]
    have happend (k : Nat) :
        ofConnection k ((n, a) :: log) = ofConnection k [(n, a)] ++ ofConnection k log :=
      ofConnection_append k [(n, a)] log
    simp only [happend, List.length_append, Finset.sum_add_distrib, hone, ih]
    by_cases hn : n ∈ ks
    · rw [if_pos hn, List.filter_cons_of_pos (by simpa using hn), List.length_cons, Nat.add_comm]
    · rw [if_neg hn, List.filter_cons_of_neg (by simpa using hn), Nat.zero_add]

theorem Sound.yields_held (h : s.Sound) {e : Event} {x : Nat × Received}
    (hx : x ∈ s.yields side e) : x.1 ∈ s.channel.held side := by
  have hm := h.moves e
  generalize s.step e = s' at hm
  cases hm with
  | quiet _ _ hbusy =>
    rw [yields_of_busy hbusy] at hx
    cases hx
  | forgotten => cases hx
  | polled side' found message roster channel hturn hanswer hp =>
    cases hp with
    | vain =>
      rw [yields_vain hturn] at hx
      cases hx
    | found k _ _ _ _ hserved =>
      rw [yields_found hturn hanswer] at hx
      split at hx
      · next hside =>
        rw [List.mem_singleton.mp hx, ← hside]
        exact hserved.served.1
      · cases hx

theorem Sound.inbox_step_of_size_le (h : s.Sound) (hk : s.roster.size ≤ k) (e : Event) :
    (s.step e).inbox k = [] := by
  have hempty : s.roster.inbox k = [] := Roster.inbox_of_size_le hk
  have hm := h.moves e
  generalize s.step e = s' at hm
  cases hm with
  | quiet _ _ _ evolves =>
    rw [inbox, evolves.inbox, hempty, arrivals_of_size_le hk]
    rfl
  | forgotten => exact hempty
  | polled _ _ _ _ _ _ _ hp =>
    cases hp with
    | vain => exact hempty
    | found _ _ _ _ _ _ _ takes =>
      rw [inbox, takes.inbox, hempty]
      exact ite_self _

/-- What is returned makes room, and only what arrives adds to what waits. -/
theorem Sound.load_step (h : s.Sound) (side : Side) (e : Event) :
    (s.step e).load side + (s.yields side e).length ≤
      s.load side + (s.received side e).length := by
  set ks := (s.channel.held side).toFinset with hks
  have heach : ∀ k ∈ ks, (s.inbox k).length + (ofConnection k (s.arrivals e)).length =
      (ofConnection k (s.yields side e)).length + ((s.step e).inbox k).length := fun k hk => by
    have := congrArg List.length (h.balance_step (h.alone (List.mem_toFinset.mp hk)) e)
    simpa using this
  have hsum := Finset.sum_congr rfl heach
  rw [Finset.sum_add_distrib, Finset.sum_add_distrib, sum_length_ofConnection,
    sum_length_ofConnection] at hsum
  have hyields : (s.yields side e).filter (·.1 ∈ ks) = s.yields side e :=
    List.filter_eq_self.mpr fun x hx => by simpa [hks] using h.yields_held hx
  have hreceived : (s.arrivals e).filter (·.1 ∈ ks) = s.received side e := by
    simp [received, hks]
  -- a connection that the side just got has received nothing yet
  have hload : (s.step e).load side ≤ ∑ k ∈ ks, ((s.step e).inbox k).length := by
    refine Finset.sum_le_sum_of_ne_zero fun k hk hne => ?_
    rw [hks, List.mem_toFinset]
    refine (h.held_of_step (List.mem_toFinset.mp hk)).resolve_right fun hnew => hne ?_
    rw [h.inbox_step_of_size_le hnew]
    rfl
  rw [hyields, hreceived] at hsum
  have hstart : s.load side = ∑ k ∈ ks, (s.inbox k).length := rfl
  omega

theorem Sound.load_after (h : s.Sound) (side : Side) (events : List Event) :
    (s.after events).load side + (trace (yields side) s events).length ≤
      s.load side + (trace (received side) s events).length := by
  induction events generalizing s with
  | nil => exact Nat.le_refl _
  | cons e events ih =>
    have hstep := h.load_step side e
    have hrest := ih (h.step e)
    rw [trace, trace, List.length_append, List.length_append, after_cons]
    omega

theorem inbox_eq_nil_of_load (hload : s.load side = 0) (hk : k ∈ s.channel.held side) :
    s.inbox k = [] := by
  have := Finset.sum_eq_zero_iff.mp hload k (List.mem_toFinset.mpr hk)
  exact List.eq_nil_of_length_eq_zero this

theorem Sound.returned_of_inbox (h : s.Sound) (hk : k ∈ s.channel.held side)
    {events : List Event} (hempty : (s.after events).inbox k = []) :
    s.Returned side events k := by
  have hbalance := h.balance (h.alone hk) events
  rw [hempty, List.map_nil, List.append_nil, List.map_append] at hbalance
  exact ⟨_, hbalance⟩

/-- Whoever polls as often as messages wait and arrive gets all that waited. -/
theorem Sound.returned_of_polls (h : s.Sound) (hk : k ∈ s.channel.held side)
    {events : List Event} (henough : s.load side + (trace (received side) s events).length ≤
      events.countP (isPoll side)) : s.Returned side events k := by
  rcases h.returned_or_held hk events with hr | ⟨hlast, hcount⟩
  · exact hr
  · have hload := h.load_after side events
    exact h.returned_of_inbox hk
      (inbox_eq_nil_of_load (show (s.after events).load side = 0 by omega) hlast)

/-- Nothing that a side received gets lost on the way to whoever polls it. -/
structure Conserves (s : Service) (side : Side) (later : List Event) : Prop where
  /-- every answer is a message of some connection -/
  answers : trace (answers side) s later = (trace (yields side) s later).map (·.2)
  /-- there is no answer only if nothing waits -/
  vain : (s.channel.poll s.roster side).1 = none ↔ ∀ k ∈ s.channel.held side, s.inbox k = []
  /-- what waited and what arrived is returned once and in order, or waits -/
  balance : ∀ k ∈ s.channel.held side,
    (s.inbox k ++ ofConnection k (trace arrivals s later)).map (s.roster.message k) =
      ofConnection k (trace (yields side) s later) ++
        ((s.after later).inbox k).map (s.roster.message k)
  /-- unless all that waited at a connection was returned, it is still polled, and every poll
  has returned something -/
  pending : ∀ k ∈ s.channel.held side, s.Returned side later k ∨
    k ∈ (s.after later).channel.held side ∧
      later.countP (isPoll side) ≤ (trace (yields side) s later).length
  /-- polls that keep up return what waited -/
  caughtUp : s.load side + (trace (received side) s later).length ≤ later.countP (isPoll side) →
    ∀ k ∈ s.channel.held side, s.Returned side later k

theorem Sound.answers_eq (h : s.Sound) (side : Side) (e : Event) :
    s.answers side e = (s.yields side e).map (·.2) := by
  have hm := h.moves e
  generalize s.step e = s' at hm
  cases hm with
  | quiet _ _ hbusy =>
    rw [yields_of_busy hbusy]
    cases e with
    | poll side' => exact absurd rfl (hbusy side')
    | _ => rfl
  | forgotten => rfl
  | polled side' found message roster channel hturn hanswer hp =>
    rw [Service.answers, hanswer]
    cases hp with
    | vain => simp [yields_vain hturn]
    | found =>
      rw [yields_found hturn hanswer]
      by_cases hside : side' = side <;> simp [hside]

theorem Sound.conserves (h : s.Sound) (side : Side) (later : List Event) :
    s.Conserves side later where
  answers := by
    induction later generalizing s with
    | nil => rfl
    | cons e later ih => rw [trace, trace, List.map_append, h.answers_eq, ih (h.step e)]
  vain := h.vain_iff side
  balance := fun k hk => h.balance (h.alone hk) later
  pending := fun k hk => h.returned_or_held hk later
  caughtUp := fun henough k hk => h.returned_of_polls hk henough

end

/-! ## Turns -/

/-- The next poll takes a message of a connection, which is one of some. -/
def IsNext (among : Channel → List Nat) (side : Side) (s : Service) (k : Nat) : Prop :=
  s.channel.turn s.roster side = some k ∧ k ∈ among s.channel

/-- A connection is one of some, and has a message. -/
def Waits (among : Channel → List Nat) (s : Service) (k : Nat) : Prop :=
  k ∈ among s.channel ∧ s.inbox k ≠ []

instance (among : Channel → List Nat) (s : Service) (k : Nat) : Decidable (Waits among s k) :=
  inferInstanceAs (Decidable (_ ∧ _))

/-- Two polls take messages of one connection. Every other one that stayed and had a message
all the time from the first poll to the second had a turn between them. -/
def TakesTurns (among : Channel → List Nat) (side : Side) (s : Service) (later : List Event) :
    Prop :=
  let s' := s.step (.poll side)
  ∀ x y, y ≠ x → IsNext among side s x → IsNext among side (s'.after later) x →
    (∀ i ≤ later.length, Waits among (s'.after (later.take i)) y) →
    ∃ message, (y, message) ∈ trace (yields side) s' later

end Courier.Stream.Service
