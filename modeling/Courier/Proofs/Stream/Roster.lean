import Courier.Stream.Channel
import Mathlib.Data.List.Basic

/-!
The connections of a roster and what they received. Whatever happens to a connection, its
peer stays, a disconnected one is never opened again, and messages only join its inbox at
the end; only a poll takes them out, at the front.
-/

namespace Courier.Stream

/-! ## One connection -/

namespace Connection

/-- What can happen to a connection, apart from the polls. -/
inductive Event where
  | attemptFailed
  | establish
  /-- a piece of the stream is read -/
  | receive (piece : Bytes)
  /-- a frame of a piece is taken in, before the others -/
  | frame (payload : Bytes)
  | flush
  | noticeCancel
  | hangUp
  | send (data : Bytes)
  | tick (threshold : Nat)
  | close

def step (c : Connection) : Event → Connection
  | .attemptFailed => c.attemptFailed
  | .establish => c.establish
  | .receive piece => c.receive piece
  | .frame payload => c.takeFrame payload
  | .flush => c.flush.2
  | .noticeCancel => c.noticeCancel
  | .hangUp => c.hangUp
  | .send data => (c.send data).2
  | .tick threshold => c.tick threshold
  | .close => c.close

/-- The messages that an event puts into the inbox. -/
def arrived (c : Connection) (e : Event) : List Bytes := (c.step e).inbox.drop c.inbox.length

/-- Messages join the inbox, and nothing else changes that others rely on. -/
structure Grows (c d : Connection) (new : List Bytes) : Prop where
  peer : d.peer = c.peer
  inbox : d.inbox = c.inbox ++ new
  dead : c.isDisconnected = true → d.isDisconnected = true

section

variable {c d e : Connection} {new new' : List Bytes}

theorem Grows.refl (c : Connection) : Grows c c [] := ⟨rfl, (List.append_nil _).symm, id⟩

theorem Grows.trans (h : Grows c d new) (h' : Grows d e new') : Grows c e (new ++ new') where
  peer := h'.peer.trans h.peer
  inbox := by rw [h'.inbox, h.inbox, List.append_assoc]
  dead := fun hc => h'.dead (h.dead hc)

/-- Nothing arrives, and the connection is as live as before or gone. -/
theorem Grows.of_same (hpeer : d.peer = c.peer) (hinbox : d.inbox = c.inbox)
    (hstate : d.state = c.state ∨ d.state = .disconnected) : Grows c d [] where
  peer := hpeer
  inbox := by rw [hinbox, List.append_nil]
  dead := by
    unfold isDisconnected
    rcases hstate with h | h <;> simp [h]

theorem grows_enqueue (c : Connection) (payload : Bytes) : Grows c (c.enqueue payload).2 [] := by
  unfold enqueue
  split
  · exact .refl c
  · exact .of_same rfl rfl (.inl rfl)

theorem grows_send (c : Connection) (data : Bytes) : Grows c (c.send data).2 [] := by
  unfold send
  split
  · exact .refl c
  · exact c.grows_enqueue data

theorem grows_close (c : Connection) : Grows c c.close [] := .of_same rfl rfl (.inr rfl)

theorem grows_hangUp (c : Connection) : Grows c c.hangUp [] := .of_same rfl rfl (.inr rfl)

theorem grows_tick (c : Connection) (threshold : Nat) : Grows c (c.tick threshold) [] := by
  unfold tick
  split
  · exact .refl c
  · split
    · exact c.grows_close
    · split
      · exact .of_same rfl rfl (.inl rfl)
      · have hidle : Grows c { c with idleTicks := 0, awaitingAck := true } [] :=
          .of_same rfl rfl (.inl rfl)
        exact hidle.trans (grows_enqueue _ _)

theorem grows_establish (c : Connection) : Grows c c.establish [] := by
  unfold establish
  split
  · exact .of_same rfl rfl (.inl rfl)
  · next hlive => exact ⟨rfl, (List.append_nil _).symm, fun hc => absurd hc hlive⟩

theorem grows_attemptFailed (c : Connection) : Grows c c.attemptFailed [] := by
  unfold attemptFailed
  split
  · split
    · exact .of_same rfl rfl (.inl rfl)
    · exact c.grows_hangUp
  · exact .refl c

theorem grows_flush (c : Connection) : Grows c c.flush.2 [] := by
  unfold flush
  split
  · exact .of_same rfl rfl (.inl rfl)
  · exact .refl c

theorem grows_noticeCancel (c : Connection) : Grows c c.noticeCancel [] := by
  unfold noticeCancel
  split
  · exact c.grows_hangUp
  · exact .refl c

theorem grows_takeFrame (c : Connection) (payload : Bytes) :
    ∃ new, Grows c (c.takeFrame payload) new := by
  unfold takeFrame
  have hheard : Grows c { c with idleTicks := 0 } [] := .of_same rfl rfl (.inl rfl)
  dsimp only
  split
  · exact ⟨[], hheard.trans (grows_enqueue _ _)⟩
  · split
    · exact ⟨[], .of_same rfl rfl (.inl rfl)⟩
    · exact ⟨[payload], rfl, rfl, id⟩

theorem grows_takeFrames (c : Connection) (frames : List Bytes) :
    ∃ new, Grows c (frames.foldl takeFrame c) new := by
  induction frames generalizing c with
  | nil => exact ⟨[], .refl c⟩
  | cons payload frames ih =>
    obtain ⟨new, h⟩ := c.grows_takeFrame payload
    obtain ⟨new', h'⟩ := ih (c.takeFrame payload)
    exact ⟨new ++ new', h.trans h'⟩

theorem grows_receive (c : Connection) (piece : Bytes) : ∃ new, Grows c (c.receive piece) new := by
  unfold receive
  split
  · next decoder _ =>
    dsimp only
    split
    · exact ⟨[], .of_same rfl rfl (.inl rfl)⟩
    · have hphase (phase : Phase) : Grows c { c with phase } [] := .of_same rfl rfl (.inl rfl)
      obtain ⟨new, h⟩ := grows_takeFrames
        { c with phase := .opened (Frame.decode c.maxFrameSize decoder piece).state }
        (Frame.decode c.maxFrameSize decoder piece).frames
      split
      · exact ⟨_, ((hphase _).trans h).trans (grows_hangUp _)⟩
      · exact ⟨_, (hphase _).trans h⟩
  · exact ⟨[], .refl c⟩

theorem exists_grows_step (c : Connection) (e : Event) : ∃ new, Grows c (c.step e) new := by
  cases e with
  | attemptFailed => exact ⟨[], c.grows_attemptFailed⟩
  | establish => exact ⟨[], c.grows_establish⟩
  | receive piece => exact c.grows_receive piece
  | frame payload => exact c.grows_takeFrame payload
  | flush => exact ⟨[], c.grows_flush⟩
  | noticeCancel => exact ⟨[], c.grows_noticeCancel⟩
  | hangUp => exact ⟨[], c.grows_hangUp⟩
  | send data => exact ⟨[], c.grows_send data⟩
  | tick threshold => exact ⟨[], c.grows_tick threshold⟩
  | close => exact ⟨[], c.grows_close⟩

theorem grows_step (c : Connection) (e : Event) : Grows c (c.step e) (c.arrived e) := by
  obtain ⟨new, h⟩ := c.exists_grows_step e
  have hnew : c.arrived e = new := by rw [arrived, h.inbox, List.drop_left]
  exact hnew ▸ h

end

end Connection

/-! ## Many connections -/

/-- The entries of a log that are about a connection. -/
def ofConnection {α : Type} (k : Nat) (log : List (Nat × α)) : List α :=
  (log.filter (·.1 = k)).map (·.2)

section

variable {α : Type}

@[simp]
theorem ofConnection_nil (k : Nat) : ofConnection k ([] : List (Nat × α)) = [] := rfl

theorem ofConnection_append (k : Nat) (l l' : List (Nat × α)) :
    ofConnection k (l ++ l') = ofConnection k l ++ ofConnection k l' := by
  simp [ofConnection]

theorem ofConnection_single (k n : Nat) (a : α) :
    ofConnection k [(n, a)] = if n = k then [a] else [] := by
  by_cases h : n = k <;> simp [ofConnection, h]

theorem ofConnection_map (k n : Nat) (l : List α) :
    ofConnection k (l.map (n, ·)) = if n = k then l else [] := by
  by_cases h : n = k <;> simp [ofConnection, h, List.filter_map, Function.comp_def]

end

namespace Roster

/-- The messages that a connection received and that were not taken. -/
def inbox (r : Roster) (k : Nat) : List Bytes := (r[k]?).elim [] (·.inbox)

def peer? (r : Roster) (k : Nat) : Option SocketAddr := (r[k]?).map (·.peer)

/-- A message as a poll hands it out. -/
def message (r : Roster) (k : Nat) (data : Bytes) : Received :=
  ⟨.ofSocketAddr .tcp (r.peer k), data, true⟩

section

variable {r r' r'' : Roster} {k : Nat}

theorem waiting_iff : r.waiting k = true ↔ r.inbox k ≠ [] := by
  unfold waiting inbox
  cases r[k]? <;> simp [Connection.isDrained]

theorem waiting_eq_false_iff : r.waiting k = false ↔ r.inbox k = [] := by
  rw [← Bool.not_eq_true, waiting_iff, not_not]

theorem peer_of_peer? {a : SocketAddr} (h : r.peer? k = some a) : r.peer k = a := by
  obtain ⟨c, hc, rfl⟩ := Option.map_eq_some_iff.mp h
  unfold peer
  rw [hc]

theorem peer_congr (h : r'.peer? k = r.peer? k) : r'.peer k = r.peer k := by
  unfold peer? at h
  unfold peer
  cases hc : r[k]? <;> cases hc' : r'[k]? <;> simp_all

theorem message_congr (h : r'.peer? k = r.peer? k) : r'.message k = r.message k := by
  funext data
  rw [message, message, peer_congr h]

theorem inbox_of_size_le (h : r.size ≤ k) : r.inbox k = [] := by
  unfold inbox
  rw [Array.getElem?_eq_none h]
  rfl

theorem live_eq_false_iff : r.live k = false ↔ ∀ c, r[k]? = some c → c.isDisconnected = true := by
  unfold live
  cases r[k]? <;> simp [Connection.isLive]

theorem getElem?_closeAll (r : Roster) (ks : List Nat) (k : Nat) :
    (r.closeAll ks)[k]? = if k ∈ ks then (r[k]?).map Connection.close else r[k]? := by
  induction ks generalizing r with
  | nil => rfl
  | cons l ks ih =>
    show ((r.update l Connection.close).closeAll ks)[k]? = _
    rw [ih, update, Array.getElem?_modify]
    by_cases hl : l = k
    · subst hl
      -- a second close changes nothing
      cases r[l]? <;> simp [Connection.close]
    · simp [hl, Ne.symm hl]

theorem live_closeAll (r : Roster) {ks : List Nat} (hk : k ∉ ks) :
    (r.closeAll ks).live k = r.live k := by
  rw [live, getElem?_closeAll, if_neg hk, live]

theorem live_push (r : Roster) (c : Connection) (hk : k < r.size) :
    Roster.live (r.push c) k = r.live k := by
  rw [live, Array.getElem?_push, if_neg (Nat.ne_of_lt hk), live]

theorem lt_size_of_live (hk : r.live k = true) : k < r.size := by
  by_contra hnot
  rw [live, Array.getElem?_eq_none (Nat.le_of_not_lt hnot)] at hk
  cases hk

/-- What arrives joins the inboxes, connections may be added, and nothing else changes that
others rely on. -/
structure Evolves (r r' : Roster) (arrived : List (Nat × Bytes)) : Prop where
  size : r.size ≤ r'.size
  inbox : ∀ k, r'.inbox k = r.inbox k ++ ofConnection k arrived
  peer : ∀ k < r.size, r'.peer? k = r.peer? k
  dead : ∀ k < r.size, r.live k = false → r'.live k = false

theorem Evolves.refl (r : Roster) : r.Evolves r [] :=
  ⟨Nat.le_refl _, fun _ => (List.append_nil _).symm, fun _ _ => rfl, fun _ _ => id⟩

theorem Evolves.trans {l l' : List (Nat × Bytes)} (h : r.Evolves r' l) (h' : r'.Evolves r'' l') :
    r.Evolves r'' (l ++ l') where
  size := Nat.le_trans h.size h'.size
  inbox := fun k => by rw [h'.inbox, h.inbox, List.append_assoc, ofConnection_append]
  peer := fun k hk => (h'.peer k (Nat.lt_of_lt_of_le hk h.size)).trans (h.peer k hk)
  dead := fun k hk hd => h'.dead k (Nat.lt_of_lt_of_le hk h.size) (h.dead k hk hd)

theorem evolves_update (r : Roster) (n : Nat) (f : Connection → Connection)
    (new : Connection → List Bytes) (h : ∀ c, Connection.Grows c (f c) (new c)) :
    r.Evolves (r.update n f) (((r[n]?).elim [] new).map (n, ·)) := by
  have hget (k : Nat) : (r.update n f)[k]? = if n = k then (r[k]?).map f else r[k]? := by
    rw [update, Array.getElem?_modify]
  refine ⟨Nat.le_of_eq Array.size_modify.symm, fun k => ?_, fun k _ => ?_, fun k _ hd => ?_⟩
  · rw [ofConnection_map, inbox, inbox, hget]
    by_cases hk : n = k
    · subst hk
      cases r[n]? <;> simp [(h _).inbox]
    · simp [hk]
  · rw [peer?, peer?, hget]
    by_cases hk : n = k
    · cases r[k]? <;> simp [hk, (h _).peer]
    · simp [hk]
  · rw [live_eq_false_iff] at hd ⊢
    intro d hd'
    rw [hget] at hd'
    by_cases hk : n = k
    · rw [if_pos hk] at hd'
      obtain ⟨c, hc, rfl⟩ := Option.map_eq_some_iff.mp hd'
      exact (h c).dead (hd c hc)
    · rw [if_neg hk] at hd'
      exact hd d hd'

theorem evolves_quietly (r : Roster) (n : Nat) (f : Connection → Connection)
    (h : ∀ c, Connection.Grows c (f c) []) : r.Evolves (r.update n f) [] := by
  have := r.evolves_update n f (fun _ => []) h
  cases hn : r[n]? <;> simpa [hn] using this

theorem evolves_foldl (r : Roster) (ns : List Nat) (f : Connection → Connection)
    (h : ∀ c, Connection.Grows c (f c) []) :
    r.Evolves (ns.foldl (fun r n => r.update n f) r) [] := by
  induction ns generalizing r with
  | nil => exact .refl r
  | cons n ns ih => exact (r.evolves_quietly n f h).trans (ih (r.update n f))

theorem evolves_closeAll (r : Roster) (ns : List Nat) : r.Evolves (r.closeAll ns) [] :=
  r.evolves_foldl ns _ Connection.grows_close

theorem evolves_push (r : Roster) {c : Connection} (h : c.inbox = []) :
    r.Evolves (r.push c) [] where
  size := by simp
  inbox := fun k => by
    unfold inbox
    rw [Array.getElem?_push]
    by_cases hk : k = r.size
    · simp [hk, h]
    · simp [hk]
  peer := fun k hk => by rw [peer?, peer?, Array.getElem?_push, if_neg (Nat.ne_of_lt hk)]
  dead := fun k hk hd => by
    rw [live, Array.getElem?_push, if_neg (Nat.ne_of_lt hk)]
    exact hd

/-- The oldest message of a connection is taken. -/
structure Takes (r r' : Roster) (k : Nat) : Prop where
  size : r'.size = r.size
  inbox : ∀ j, r'.inbox j = if j = k then (r.inbox j).tail else r.inbox j
  peer : ∀ j, r'.peer? j = r.peer? j
  live : ∀ j, r'.live j = r.live j

theorem take_of_inbox {data : Bytes} {rest : List Bytes} (h : r.inbox k = data :: rest) :
    ∃ r', r.take k = some (r.message k data, r') ∧ r.Takes r' k := by
  unfold inbox at h
  cases hc : r[k]? with
  | none => simp [hc] at h
  | some c =>
    have hinbox : c.inbox = data :: rest := by simpa [hc] using h
    have hk := (Array.getElem?_eq_some_iff.mp hc).1
    have hget (j : Nat) : (r.setIfInBounds k { c with inbox := rest })[j]? =
        if j = k then some { c with inbox := rest } else r[j]? := by
      rw [Array.getElem?_setIfInBounds]
      by_cases hj : k = j
      · subst hj
        simp [hk]
      · simp [hj, Ne.symm hj]
    have hpeer : r.peer k = c.peer := peer_of_peer? (by rw [peer?, hc]; rfl)
    refine ⟨r.setIfInBounds k { c with inbox := rest }, ?_, Array.size_setIfInBounds, fun j => ?_,
      fun j => ?_, fun j => ?_⟩
    · simp [take, hc, Connection.takeMessage, hinbox, message, hpeer]
    · rw [inbox, inbox, hget]
      by_cases hj : j = k <;> simp [hj, hc, hinbox]
    · rw [peer?, peer?, hget]
      by_cases hj : j = k <;> simp [hj, hc]
    · rw [live, live, hget]
      by_cases hj : j = k <;> simp [hj, hc, Connection.isLive, Connection.isDisconnected]

end

end Roster

end Courier.Stream
