import Courier.Proofs.Stream.Exact
import Mathlib.Data.List.Induction

/-!
The keepalive timer of a connection, whatever the order of frames and ticks. Main statement: a
tick sends a ping just if none is outstanding and it is the `k`-th tick since the last frame,
the last ping or the start, and it closes the connection just if the tick before it sent a ping
that was not answered since. So a connection that answers in time stays, and one that falls
silent is asked and then closed.
-/

namespace Courier.Stream

/-! ## The connection -/

namespace Connection

variable {c : Connection}

/-- An open connection that was neither idle nor asked anything so far. -/
structure Fresh (c : Connection) : Prop where
  state : c.state = .connected
  phase : c.phase ≠ .ended
  idle : c.idleTicks = 0
  quiet : c.awaitingAck = false

/-- No tick counts for a connection before its stream comes. -/
theorem fresh_establish (hlive : c.isDisconnected = false) (hidle : c.idleTicks = 0)
    (hquiet : c.awaitingAck = false) : c.establish.Fresh := by
  rw [establish, if_neg (by simp [hlive])]
  exact ⟨rfl, nofun, hidle, hquiet⟩

/-- The keepalive timer sees no difference. -/
structure Alike (c d : Connection) : Prop where
  state : d.state = c.state
  phase : d.phase = c.phase
  idle : d.idleTicks = c.idleTicks
  awaiting : d.awaitingAck = c.awaitingAck

theorem alike_enqueue (c : Connection) (payload : Bytes) : Alike c (c.enqueue payload).2 := by
  rw [enqueue]
  split <;> exact ⟨rfl, rfl, rfl, rfl⟩

theorem alike_send (c : Connection) (data : Bytes) : Alike c (c.send data).2 := by
  rw [send]
  split
  · exact ⟨rfl, rfl, rfl, rfl⟩
  · exact alike_enqueue c data

theorem alike_flush (c : Connection) : Alike c c.flush.2 := by
  rw [flush]
  split <;> exact ⟨rfl, rfl, rfl, rfl⟩

/-- Any frame ends the idle time, and a ping is answered by nothing but a pong. -/
theorem alike_takeFrame (c : Connection) (payload : Bytes) :
    Alike { c with idleTicks := 0, awaitingAck := payload != Frame.pong && c.awaitingAck }
      (c.takeFrame payload) := by
  rw [takeFrame]
  by_cases hping : payload = Frame.ping
  · subst hping
    rw [if_pos rfl]
    exact alike_enqueue { c with idleTicks := 0 } Frame.pong
  · rw [if_neg hping]
    by_cases hpong : payload = Frame.pong
    · rw [if_pos hpong, hpong]
      exact ⟨rfl, rfl, rfl, rfl⟩
    · rw [if_neg hpong, bne_iff_ne.mpr hpong]
      exact ⟨rfl, rfl, rfl, rfl⟩

end Connection

/-! ## One tick -/

namespace Watch

/-- A frame that came, or what a tick did. -/
inductive Fact where
  | heard (payload : Bytes)
  | counted
  | pinged
  | closed
  deriving DecidableEq

/-- What a tick did, as the connection before and after it shows. It leaves one alone that is not
open. -/
def Fact.ofTick (c d : Connection) : Option Fact :=
  if c.state ≠ .connected then none
  else if d.state = .disconnected then some .closed
  else if d.outbox = Frame.encode Frame.ping :: c.outbox then some .pinged
  else some .counted

/-- Everything that a tick can do. -/
inductive Ticks (k : Nat) (c : Connection) : Connection → Option Fact → Prop
  | asleep (down : c.state ≠ .connected) : Ticks k c c none
  | closes (up : c.state = .connected) (awaiting : c.awaitingAck = true) :
      Ticks k c c.close (some .closed)
  | counts (up : c.state = .connected) (quiet : c.awaitingAck = false)
      (early : c.idleTicks + 1 < max 1 k) :
      Ticks k c { c with idleTicks := c.idleTicks + 1 } (some .counted)
  | pings (up : c.state = .connected) (quiet : c.awaitingAck = false)
      (late : max 1 k ≤ c.idleTicks + 1) :
      Ticks k c
        { c with
          idleTicks := 0
          awaitingAck := true
          outbox := Frame.encode Frame.ping :: c.outbox }
        (some .pinged)

theorem ticks_tick {c : Connection} (hphase : c.state = .connected → c.phase ≠ .ended) (k : Nat) :
    Ticks k c (c.tick k) (Fact.ofTick c (c.tick k)) := by
  unfold Connection.tick Fact.ofTick
  by_cases hup : c.state = .connected
  · rw [if_neg (not_not.mpr hup), if_neg (not_not.mpr hup)]
    by_cases hawaiting : c.awaitingAck = true
    · rw [if_pos hawaiting]
      exact .closes hup hawaiting
    · rw [if_neg hawaiting]
      have hquiet := Bool.eq_false_iff.mpr hawaiting
      by_cases hearly : c.idleTicks + 1 < k
      · rw [if_pos hearly, if_neg (by simp [hup]), if_neg (by simp)]
        exact .counts hup hquiet (by omega)
      · rw [if_neg hearly, Connection.enqueue, if_neg (hphase hup), if_neg (by simp [hup]),
          if_pos rfl]
        exact .pings hup hquiet (by omega)
  · rw [if_pos hup, if_pos hup]
    exact .asleep hup

/-! ## The account -/

/-- A ping was sent, and no answer came since. -/
def outstanding : List Fact → Bool
  | [] => false
  | .heard payload :: log => payload != Frame.pong && outstanding log
  | .pinged :: _ => true
  | .counted :: log | .closed :: log => outstanding log

/-- The last tick sent a ping, and no answer came since. -/
def unanswered : List Fact → Bool
  | [] => false
  | .heard payload :: log => payload != Frame.pong && unanswered log
  | .pinged :: _ => true
  | .counted :: _ | .closed :: _ => false

/-- The ticks since the last frame, the last ping or the start. -/
def waited : List Fact → Nat
  | .counted :: log => waited log + 1
  | _ => 0

end Watch

/-- A connection with an account of its frames and ticks, the latest first. -/
structure Watch where
  connection : Connection
  log : List Watch.Fact := []

namespace Watch

/-- What happens to the connection. -/
inductive Event where
  | frame (payload : Bytes)
  | tick
  | send (data : Bytes)
  | flush
  deriving DecidableEq

variable {k : Nat} {w : Watch} {e : Event} {events later : List Event}

def step (k : Nat) (w : Watch) : Event → Watch
  | .frame payload => ⟨w.connection.takeFrame payload, .heard payload :: w.log⟩
  | .tick =>
    ⟨w.connection.tick k, (Fact.ofTick w.connection (w.connection.tick k)).toList ++ w.log⟩
  | .send data => { w with connection := (w.connection.send data).2 }
  | .flush => { w with connection := w.connection.flush.2 }

def after (k : Nat) (w : Watch) (events : List Event) : Watch := events.foldl (step k) w

def run (k : Nat) (c : Connection) (events : List Event) : Watch :=
  after k { connection := c } events

theorem run_append (k : Nat) (c : Connection) (events later : List Event) :
    run k c (events ++ later) = after k (run k c events) later :=
  List.foldl_append

theorem max_pos (k : Nat) : 0 < max 1 k := Nat.lt_of_lt_of_le Nat.zero_lt_one (Nat.le_max_left 1 k)

/-- The flags of the connection agree with the account. -/
structure Sound (k : Nat) (w : Watch) : Prop where
  state : w.connection.state = if .closed ∈ w.log then .disconnected else .connected
  phase : w.connection.state = .connected → w.connection.phase ≠ .ended
  awaiting : w.connection.awaitingAck = outstanding w.log
  idle : w.connection.state = .connected → w.connection.idleTicks = waited w.log
  below : waited w.log < max 1 k
  /-- until the connection is closed, nothing is counted while a ping is outstanding -/
  last : w.connection.state = .connected → unanswered w.log = outstanding w.log

theorem sound_fresh {c : Connection} (h : c.Fresh) (k : Nat) : Sound k { connection := c } where
  state := h.state
  phase := fun _ => h.phase
  awaiting := h.quiet
  idle := fun _ => h.idle
  below := max_pos k
  last := fun _ => rfl

theorem Sound.alike (h : w.Sound k) {d : Connection} (hd : w.connection.Alike d) :
    Sound k { w with connection := d } where
  state := hd.state.trans h.state
  phase hup := by
    rw [hd.phase]
    exact h.phase (hd.state.symm.trans hup)
  awaiting := hd.awaiting.trans h.awaiting
  idle hup := hd.idle.trans (h.idle (hd.state.symm.trans hup))
  below := h.below
  last hup := h.last (hd.state.symm.trans hup)

theorem Sound.frame (h : w.Sound k) (payload : Bytes) : (w.step k (.frame payload)).Sound k := by
  refine Sound.alike (w := ⟨_, .heard payload :: w.log⟩) ?_ (w.connection.alike_takeFrame payload)
  exact {
    state := by simpa using h.state
    phase := h.phase
    awaiting := congrArg (payload != Frame.pong && ·) h.awaiting
    idle := fun _ => rfl
    below := max_pos k
    last := fun hup => congrArg (payload != Frame.pong && ·) (h.last hup) }

theorem Sound.tick (h : w.Sound k) : (w.step k .tick).Sound k := by
  have ht := ticks_tick h.phase k
  show Sound k ⟨_, _⟩
  generalize w.connection.tick k = d at ht ⊢
  generalize Fact.ofTick w.connection d = f at ht ⊢
  cases ht with
  | asleep => exact h
  | closes => exact ⟨by simp [Connection.close], nofun, h.awaiting, nofun, max_pos k, nofun⟩
  | counts up quiet early =>
    have hnone : outstanding w.log = false := h.awaiting.symm.trans quiet
    rw [h.idle up] at early
    exact ⟨by simpa using h.state, h.phase, h.awaiting, fun _ => congrArg (· + 1) (h.idle up),
      early, fun _ => hnone.symm⟩
  | pings up =>
    exact ⟨by simpa using h.state, h.phase, rfl, fun _ => rfl, max_pos k, fun _ => rfl⟩

theorem Sound.step (h : w.Sound k) (e : Event) : (w.step k e).Sound k := by
  cases e with
  | frame payload => exact h.frame payload
  | tick => exact h.tick
  | send data => exact h.alike (w.connection.alike_send data)
  | flush => exact h.alike w.connection.alike_flush

theorem Sound.after (h : w.Sound k) (events : List Event) : (w.after k events).Sound k := by
  induction events generalizing w with
  | nil => exact h
  | cons e events ih => exact ih (h.step e)

theorem sound_run {c : Connection} (h : c.Fresh) (k : Nat) (events : List Event) :
    (run k c events).Sound k :=
  (sound_fresh h k).after events

/-! ## The next tick -/

theorem Sound.pings_iff (h : w.Sound k) (hup : w.connection.state = .connected) :
    (w.connection.tick k).outbox = Frame.encode Frame.ping :: w.connection.outbox ↔
      outstanding w.log = false ∧ waited w.log + 1 = max 1 k := by
  have ht := ticks_tick h.phase k
  have hbelow := h.below
  rw [← h.awaiting]
  rw [← h.idle hup] at hbelow ⊢
  generalize w.connection.tick k = d at ht ⊢
  generalize Fact.ofTick w.connection d = f at ht
  cases ht with
  | asleep down => exact absurd hup down
  | closes _ awaiting => exact iff_of_false (by simp [Connection.close]) (by simp [awaiting])
  | counts _ _ early => exact iff_of_false (by simp) (by omega)
  | pings _ quiet late => exact iff_of_true rfl ⟨quiet, by omega⟩

theorem Sound.closes_iff (h : w.Sound k) (hup : w.connection.state = .connected) :
    (w.connection.tick k).state = .disconnected ↔ unanswered w.log = true := by
  have ht := ticks_tick h.phase k
  rw [h.last hup, ← h.awaiting]
  generalize w.connection.tick k = d at ht ⊢
  generalize Fact.ofTick w.connection d = f at ht
  cases ht with
  | asleep down => exact absurd hup down
  | closes _ awaiting => exact iff_of_true rfl awaiting
  | counts _ quiet | pings _ quiet => exact iff_of_false (by simp [hup]) (by simp [quiet])

theorem state_step (w : Watch) (he : e ≠ .tick) :
    (w.step k e).connection.state = w.connection.state := by
  cases e with
  | frame payload => exact (w.connection.alike_takeFrame payload).state
  | tick => exact absurd rfl he
  | send data => exact (w.connection.alike_send data).state
  | flush => exact w.connection.alike_flush.state

/-- Only the answer to it satisfies a ping. -/
theorem outstanding_step (he : e ≠ .tick) (hpong : e ≠ .frame Frame.pong) (w : Watch) :
    outstanding (w.step k e).log = outstanding w.log := by
  cases e with
  | frame payload =>
    have hne : payload ≠ Frame.pong := fun heq => hpong (congrArg Event.frame heq)
    show (payload != Frame.pong && outstanding w.log) = _
    rw [bne_iff_ne.mpr hne, Bool.true_and]
  | tick => exact absurd rfl he
  | send | flush => rfl

theorem outstanding_after (hother : ∀ e ∈ later, e ≠ .tick ∧ e ≠ .frame Frame.pong) (w : Watch) :
    (w.after k later).connection.state = w.connection.state ∧
      outstanding (w.after k later).log = outstanding w.log := by
  induction later generalizing w with
  | nil => exact ⟨rfl, rfl⟩
  | cons e later ih =>
    obtain ⟨⟨htick, hpong⟩, hrest⟩ := List.forall_mem_cons.mp hother
    obtain ⟨hstate, hlog⟩ := ih hrest (w.step k e)
    exact ⟨hstate.trans (w.state_step htick), hlog.trans (outstanding_step htick hpong w)⟩

/-! ## Silence -/

/-- So many ticks are counted, and then comes the end. -/
def fading (n : Nat) : List Fact := List.replicate n .counted ++ [.pinged, .closed]

/-- What the ticks will do, one after the other, if no frame comes. -/
def future (k : Nat) (w : Watch) : List Fact :=
  if w.connection.state ≠ .connected then []
  else if outstanding w.log then [.closed]
  else fading (max 1 k - waited w.log - 1)

/-- What else happens makes no difference. -/
theorem future_step (htick : e ≠ .tick) (hframe : ∀ payload, e ≠ .frame payload) (w : Watch) :
    (w.step k e).log = w.log ∧ future k (w.step k e) = future k w := by
  have hlog : (w.step k e).log = w.log := by
    cases e with
    | frame payload => exact absurd rfl (hframe payload)
    | tick => exact absurd rfl htick
    | send | flush => rfl
  refine ⟨hlog, ?_⟩
  rw [future, state_step w htick, hlog, future]

theorem Sound.future_tick (h : w.Sound k) :
    (w.step k .tick).log = ((future k w).take 1).reverse ++ w.log ∧
      future k (w.step k .tick) = (future k w).tail := by
  have ht := ticks_tick h.phase k
  show Watch.log ⟨_, _⟩ = _ ∧ future k ⟨_, _⟩ = _
  unfold future
  rw [← h.awaiting]
  generalize w.connection.tick k = d at ht ⊢
  generalize Fact.ofTick w.connection d = f at ht ⊢
  cases ht with
  | asleep down => simp [down]
  | closes up awaiting => simp [up, awaiting, Connection.close]
  | counts up quiet early =>
    have hnone : outstanding w.log = false := h.awaiting.symm.trans quiet
    rw [h.idle up] at early
    have hn : max 1 k - waited w.log - 1 = max 1 k - (waited w.log + 1) - 1 + 1 := by omega
    simp [up, quiet, outstanding, hnone, waited, fading, hn, List.replicate_succ]
  | pings up quiet late =>
    rw [h.idle up] at late
    have hn : max 1 k - waited w.log - 1 = 0 := by omega
    simp [up, quiet, outstanding, fading, hn]

theorem Sound.silent (h : w.Sound k) (hsilent : ∀ payload, .frame payload ∉ later) :
    (w.after k later).log = ((future k w).take (later.count .tick)).reverse ++ w.log := by
  induction later generalizing w with
  | nil => rfl
  | cons e later ih =>
    have hrest : ∀ payload, .frame payload ∉ later := fun payload hmem =>
      hsilent payload (List.mem_cons_of_mem e hmem)
    refine (ih (h.step e) hrest).trans ?_
    by_cases htick : e = .tick
    · subst htick
      obtain ⟨hlog, hfuture⟩ := h.future_tick
      rw [hlog, hfuture, List.count_cons_self, ← List.append_assoc, ← List.reverse_append]
      cases future k w <;> simp
    · have hframe : ∀ payload, e ≠ .frame payload := fun payload heq =>
        hsilent payload (heq ▸ List.mem_cons_self)
      obtain ⟨hlog, hfuture⟩ := future_step (k := k) htick hframe w
      rw [hlog, hfuture, List.count_cons_of_ne htick]

/-! ## A whole life -/

/-- What a keepalive timer with the threshold `k` makes of a connection. -/
structure Watched (k : Nat) (c : Connection) (events : List Event) : Prop where
  /-- nothing else closes the connection -/
  state : (run k c events).connection.state =
    if .closed ∈ (run k c events).log then .disconnected else .connected
  pings : (run k c events).connection.state = .connected →
    (((run k c events).connection.tick k).outbox =
        Frame.encode Frame.ping :: (run k c events).connection.outbox ↔
      outstanding (run k c events).log = false ∧ waited (run k c events).log + 1 = max 1 k)
  closes : (run k c events).connection.state = .connected →
    (((run k c events).connection.tick k).state = .disconnected ↔
      unanswered (run k c events).log = true)
  /-- it stays open if no ping is still unanswered when the next tick comes -/
  answered : (∀ before later, events = before ++ .tick :: later →
    unanswered (run k c before).log = false) → (run k c events).connection.state = .connected
  /-- whatever comes instead of the answer, the next tick closes it -/
  ignored : (run k c events).connection.state = .connected →
    outstanding (run k c events).log = true →
      ∀ later, (∀ e ∈ later, e ≠ .tick ∧ e ≠ .frame Frame.pong) →
        ((run k c (events ++ later)).connection.tick k).state = .disconnected
  /-- without any frames, some ticks are counted, fewer than `k` of them, the next one sends a
  ping, and the one after it closes the connection -/
  silent : (run k c events).connection.state = .connected →
    outstanding (run k c events).log = false → ∃ n < max 1 k, ∀ later : List Event,
      (∀ payload, .frame payload ∉ later) → (run k c (events ++ later)).log =
        ((fading n).take (later.count .tick)).reverse ++ (run k c events).log

theorem Sound.answered {c : Connection} (h : c.Fresh) (k : Nat) (events : List Event)
    (hanswered : ∀ before later, events = before ++ .tick :: later →
      unanswered (run k c before).log = false) :
    (run k c events).connection.state = .connected := by
  induction events using List.reverseRecOn with
  | nil => exact h.state
  | append_singleton events e ih =>
    have hup := ih fun before later heq => hanswered before (later ++ [e]) (by simp [heq])
    rw [run_append]
    by_cases he : e = .tick
    · subst he
      have hnot := (sound_run h k events).closes_iff hup
      rw [hanswered events [] rfl] at hnot
      have hs := ((sound_run h k events).step .tick).state
      show (Watch.step k _ .tick).connection.state = _
      rw [hs]
      refine if_neg fun hmem => ?_
      rw [if_pos hmem] at hs
      cases hnot.mp hs
    · exact (state_step _ he).trans hup

/-- For every order of frames and ticks. -/
theorem watched_run (k : Nat) {c : Connection} (fresh : c.Fresh) (events : List Event) :
    Watched k c events := by
  have hs := sound_run fresh k events
  refine ⟨hs.state, hs.pings_iff, hs.closes_iff, Sound.answered fresh k events, ?_, ?_⟩
  · intro hup hout later hother
    rw [run_append]
    obtain ⟨hstate, hlog⟩ := outstanding_after (k := k) hother (run k c events)
    have hs' := hs.after later
    have hup' := hstate.trans hup
    exact (hs'.closes_iff hup').mpr ((hs'.last hup').trans (hlog.trans hout))
  · intro hup hout
    refine ⟨max 1 k - waited (run k c events).log - 1, by have := max_pos k; omega, ?_⟩
    intro later hsilent
    rw [run_append, hs.silent hsilent, future, if_neg (not_not.mpr hup), hout]
    rfl

/-- A ping that is not answered, though a message comes. -/
def talkative : List Event := [.tick, .tick, .frame [1]]

theorem watched_talkative : (run 2 ready talkative).connection.state = .connected ∧
    ((run 2 ready talkative).connection.tick 2).state = .disconnected ∧
      Watched 2 ready talkative := by
  have h := watched_run 2 (c := ready) (Connection.fresh_establish rfl rfl rfl) talkative
  exact ⟨by decide, (h.closes (by decide)).mpr (by decide), h⟩

end Watch

end Courier.Stream
