import Courier.Proofs.Stream.Roster
import Mathlib.Data.List.Induction

/-!
The life of a connection, whatever its owner, its peer and its own task do, and in whatever
order. Main statement: a disconnected connection stays disconnected and takes no message; if
it was closed before its stream was recorded, the stream is never used; and there is one
attempt more to get a stream than retries are allowed, and no further one.
-/

namespace Courier.Stream

/-! ## The connection -/

namespace Connection

/-- The oldest frames are written to the stream. -/
def write (c : Connection) (n : Nat) : List Bytes × Connection :=
  match c.phase with
  | .opened _ => (c.outbox.reverse.take n, { c with outbox := c.outbox.take (c.outbox.length - n) })
  | _ => ([], c)

/-- A flush writes them all. -/
theorem flush_eq_write (c : Connection) : c.flush = c.write c.outbox.length := by
  have hall : c.outbox.reverse.take c.outbox.length = c.outbox.reverse :=
    List.take_of_length_le (Nat.le_of_eq List.length_reverse)
  unfold flush write
  cases c.phase with
  | opened decoder =>
    dsimp only
    rw [hall, Nat.sub_self, List.take_zero]
  | _ => rfl

/-- The work on the stream is not further than before, nor is a disconnected connection opened. -/
structure Steady (c d : Connection) : Prop where
  retries : d.retries = c.retries
  dialing : ∀ k, d.phase = .dialing k → c.phase = .dialing k
  opened : ∀ s, d.phase = .opened s → ∃ s', c.phase = .opened s'
  dead : c.isDisconnected = true → d.isDisconnected = true

section

variable {c d e : Connection}

theorem Steady.trans (h : Steady c d) (h' : Steady d e) : Steady c e where
  retries := h'.retries.trans h.retries
  dialing k hk := h.dialing k (h'.dialing k hk)
  opened s hs := (h'.opened s hs).elim h.opened
  dead hc := h'.dead (h.dead hc)

/-- The phase is as before or the last one, and so is the state. -/
theorem steady_of_same (hretries : d.retries = c.retries)
    (hphase : d.phase = c.phase ∨ d.phase = .ended)
    (hstate : d.state = c.state ∨ d.state = .disconnected) : Steady c d where
  retries := hretries
  dialing k hk := by
    rcases hphase with h | h
    · exact h ▸ hk
    · cases h.symm.trans hk
  opened s hs := by
    rcases hphase with h | h
    · exact ⟨s, h ▸ hs⟩
    · cases h.symm.trans hs
  dead := by
    unfold isDisconnected
    rcases hstate with h | h <;> simp [h]

theorem Steady.refl (c : Connection) : Steady c c := steady_of_same rfl (.inl rfl) (.inl rfl)

theorem steady_hangUp (c : Connection) : Steady c c.hangUp :=
  steady_of_same rfl (.inr rfl) (.inr rfl)

theorem steady_close (c : Connection) : Steady c c.close :=
  steady_of_same rfl (.inl rfl) (.inr rfl)

theorem steady_enqueue (c : Connection) (payload : Bytes) : Steady c (c.enqueue payload).2 := by
  unfold enqueue
  split
  · exact .refl c
  · exact steady_of_same rfl (.inl rfl) (.inl rfl)

theorem steady_send (c : Connection) (data : Bytes) : Steady c (c.send data).2 := by
  unfold send
  split
  · exact .refl c
  · exact c.steady_enqueue data

theorem steady_tick (c : Connection) (threshold : Nat) : Steady c (c.tick threshold) := by
  unfold tick
  split
  · exact .refl c
  · split
    · exact c.steady_close
    · split
      · exact steady_of_same rfl (.inl rfl) (.inl rfl)
      · have hidle : Steady c { c with idleTicks := 0, awaitingAck := true } :=
          steady_of_same rfl (.inl rfl) (.inl rfl)
        exact hidle.trans (steady_enqueue _ _)

theorem steady_noticeCancel (c : Connection) : Steady c c.noticeCancel := by
  unfold noticeCancel
  split
  · exact c.steady_hangUp
  · exact .refl c

theorem steady_take (c : Connection) : Steady c (c.takeMessage.elim c (·.2)) := by
  unfold takeMessage
  split
  · exact .refl c
  · exact steady_of_same rfl (.inl rfl) (.inl rfl)

theorem steady_write (c : Connection) (n : Nat) : Steady c (c.write n).2 := by
  unfold write
  split
  · exact steady_of_same rfl (.inl rfl) (.inl rfl)
  · exact .refl c

theorem steady_takeFrame (c : Connection) (payload : Bytes) : Steady c (c.takeFrame payload) := by
  have hheard : Steady c { c with idleTicks := 0 } := steady_of_same rfl (.inl rfl) (.inl rfl)
  unfold takeFrame
  dsimp only
  split
  · exact hheard.trans (steady_enqueue _ _)
  · split <;> exact steady_of_same rfl (.inl rfl) (.inl rfl)

theorem steady_takeFrames (c : Connection) (frames : List Bytes) :
    Steady c (frames.foldl takeFrame c) := by
  induction frames generalizing c with
  | nil => exact .refl c
  | cons payload frames ih => exact (c.steady_takeFrame payload).trans (ih _)

theorem steady_receive (c : Connection) (piece : Bytes) : Steady c (c.receive piece) := by
  unfold receive
  split
  · next decoder hopened =>
    have hread (state : Frame.State) : Steady c { c with phase := .opened state } :=
      ⟨rfl, nofun, fun _ _ => ⟨decoder, hopened⟩, id⟩
    dsimp only
    split
    · exact steady_of_same rfl (.inr rfl) (.inl rfl)
    · split
      · exact ((hread _).trans (steady_takeFrames _ _)).trans (steady_hangUp _)
      · exact (hread _).trans (steady_takeFrames _ _)
  · exact .refl c

theorem send_of_isDisconnected (h : c.isDisconnected = true) (data : Bytes) :
    (c.send data).1 = false := by
  rw [send, h]
  rfl

end

end Connection

/-! ## Its life -/

/-- How far an attempt to connect is. -/
inductive Stage where
  | idle
  | trying
  /-- there is a stream, but that was not recorded yet -/
  | reached
  deriving DecidableEq

/-- A connection, and what became of it. -/
structure Life where
  connection : Connection
  stage : Stage := .idle
  attempts : Nat := 0
  failures : Nat := 0
  /-- the connection was live when it got its stream -/
  recorded : Bool := false
  written : List Bytes := []
  read : List Bytes := []

namespace Life

/-- What the task of a connection, its owner and its peer do. -/
inductive Event where
  /-- the task makes an attempt to connect -/
  | dial
  | refused
  | connected
  /-- the task records that there is a stream -/
  | record
  /-- a piece of the stream is read, which may hold a frame that is too large -/
  | read (piece : Bytes)
  | write (n : Nat)
  /-- the work on the stream ends, with the stream or with an error -/
  | broken
  | noticeCancel
  | send (data : Bytes)
  | tick (threshold : Nat)
  | close
  | take

/-- There is no stream yet, and the attempt to get one is at this stage. -/
def isDialing (s : Life) (stage : Stage) : Bool :=
  match s.connection.phase with
  | .dialing _ => s.stage = stage
  | _ => false

/-- There is a stream that is to be recorded. -/
def isReady (s : Life) : Bool := s.isDialing .reached || s.connection.phase = .established

def isOpen (s : Life) : Bool :=
  match s.connection.phase with
  | .opened _ => true
  | _ => false

/-- What cannot happen changes nothing. -/
def step (s : Life) : Event → Life
  | .dial =>
    if s.isDialing .idle then { s with stage := .trying, attempts := s.attempts + 1 } else s
  | .refused =>
    if s.isDialing .trying then
      { s with
        stage := .idle
        failures := s.failures + 1
        connection := s.connection.attemptFailed }
    else s
  | .connected => if s.isDialing .trying then { s with stage := .reached } else s
  | .record =>
    if s.isReady then
      { s with
        recorded := s.recorded || s.connection.isLive
        connection := s.connection.establish }
    else s
  | .read piece =>
    if s.isOpen then
      { s with read := s.read ++ [piece], connection := s.connection.receive piece }
    else s
  | .write n =>
    { s with
      written := s.written ++ (s.connection.write n).1
      connection := (s.connection.write n).2 }
  | .broken => { s with connection := s.connection.hangUp }
  | .noticeCancel => { s with connection := s.connection.noticeCancel }
  | .send data => { s with connection := (s.connection.send data).2 }
  | .tick threshold => { s with connection := s.connection.tick threshold }
  | .close => { s with connection := s.connection.close }
  | .take => { s with connection := s.connection.takeMessage.elim s.connection (·.2) }

def after (s : Life) (events : List Event) : Life := events.foldl step s

/-- A connection that this side opens, or that the peer opened. -/
def start (c : Config) (peer : SocketAddr) (outbound : Bool) : Life where
  connection := if outbound then .dial c peer else .accept c peer

section

variable {c : Config} {s : Life} {stage : Stage}

theorem after_append (s : Life) (events events' : List Event) :
    s.after (events ++ events') = (s.after events).after events' :=
  List.foldl_append

theorem after_concat (s : Life) (events : List Event) (e : Event) :
    s.after (events ++ [e]) = (s.after events).step e :=
  s.after_append events [e]

theorem isDialing_iff :
    s.isDialing stage = true ↔ (∃ k, s.connection.phase = .dialing k) ∧ s.stage = stage := by
  unfold isDialing
  split
  · next k hk => simp [hk]
  · next hnot => exact iff_of_false nofun fun ⟨⟨k, hk⟩, _⟩ => hnot k hk

theorem isOpen_iff : s.isOpen = true ↔ ∃ d, s.connection.phase = .opened d := by
  unfold isOpen
  split
  · next d hd => simp [hd]
  · next hnot => exact iff_of_false nofun fun ⟨d, hd⟩ => hnot d hd

/-- Everything that an event can do. -/
inductive Moves (s : Life) : Life → Prop
  | nothing : Moves s s
  /-- what does not depend on a stream -/
  | owned (d : Connection) (steady : s.connection.Steady d) : Moves s { s with connection := d }
  | used (d : Connection) (steady : s.connection.Steady d) (opened : s.isOpen = true)
      (written read : List Bytes) : Moves s { s with connection := d, written, read }
  | began (k : Nat) (dialing : s.connection.phase = .dialing k) (idle : s.stage = .idle) :
      Moves s { s with stage := .trying, attempts := s.attempts + 1 }
  | refused (k : Nat) (dialing : s.connection.phase = .dialing k) (trying : s.stage = .trying) :
      Moves s
        { s with
          stage := .idle
          failures := s.failures + 1
          connection := s.connection.attemptFailed }
  | connected (trying : s.stage = .trying) : Moves s { s with stage := .reached }
  | recorded : Moves s
      { s with
        recorded := s.recorded || s.connection.isLive
        connection := s.connection.establish }

theorem moves_step (s : Life) (e : Event) : Moves s (s.step e) := by
  cases e with
  | dial =>
    dsimp only [step]
    split
    · next h =>
      obtain ⟨⟨k, hk⟩, hidle⟩ := isDialing_iff.mp h
      exact .began k hk hidle
    · exact .nothing
  | refused =>
    dsimp only [step]
    split
    · next h =>
      obtain ⟨⟨k, hk⟩, htrying⟩ := isDialing_iff.mp h
      exact .refused k hk htrying
    · exact .nothing
  | connected =>
    dsimp only [step]
    split
    · next h => exact .connected (isDialing_iff.mp h).2
    · exact .nothing
  | record =>
    dsimp only [step]
    split
    · exact .recorded
    · exact .nothing
  | read piece =>
    dsimp only [step]
    split
    · next h => exact .used _ (s.connection.steady_receive piece) h _ _
    · exact .nothing
  | write n =>
    dsimp only [step]
    cases h : s.isOpen with
    | true => exact .used _ (s.connection.steady_write n) h _ _
    | false =>
      have hnothing : s.connection.write n = ([], s.connection) := by
        unfold Connection.write
        split
        · next d hd =>
          rw [isOpen_iff.mpr ⟨d, hd⟩] at h
          cases h
        · rfl
      rw [hnothing, List.append_nil]
      exact .nothing
  | broken => exact .owned _ s.connection.steady_hangUp
  | noticeCancel => exact .owned _ s.connection.steady_noticeCancel
  | send data => exact .owned _ (s.connection.steady_send data)
  | tick threshold => exact .owned _ (s.connection.steady_tick threshold)
  | close => exact .owned _ s.connection.steady_close
  | take => exact .owned _ s.connection.steady_take

/-! ## Attempts -/

/-- What holds of a connection all its life. -/
structure Sound (c : Config) (s : Life) : Prop where
  retries : s.connection.retries = c.connectRetries
  /-- a stream is recorded before it is used -/
  opened : ∀ d, s.connection.phase = .opened d → s.recorded = true
  unused : s.recorded = false → s.written = [] ∧ s.read = []
  dialing : ∀ k, s.connection.phase = .dialing k → s.failures = k ∧ k ≤ c.connectRetries ∧
    s.attempts = if s.stage = .idle then k else k + 1
  attempts : s.attempts ≤ c.connectRetries + 1
  failures : s.failures ≤ s.attempts
  exhausted : s.failures = c.connectRetries + 1 → s.connection.isDisconnected = true

theorem sound_start (c : Config) (peer : SocketAddr) (outbound : Bool) :
    Sound c (start c peer outbound) := by
  cases outbound with
  | false => exact ⟨rfl, nofun, fun _ => ⟨rfl, rfl⟩, nofun, Nat.zero_le _, Nat.le_refl _, nofun⟩
  | true =>
    refine ⟨rfl, nofun, fun _ => ⟨rfl, rfl⟩, fun k hk => ?_, Nat.zero_le _, Nat.le_refl _, nofun⟩
    cases hk
    exact ⟨rfl, Nat.zero_le _, rfl⟩

/-- Another attempt follows a failure, unless it was the last one. -/
theorem attemptFailed_cases {d : Connection} {k : Nat} (h : d.phase = .dialing k) :
    k < d.retries ∧ d.attemptFailed = { d with phase := .dialing (k + 1) } ∨
      d.retries ≤ k ∧ d.attemptFailed = d.hangUp := by
  unfold Connection.attemptFailed
  rw [h]
  dsimp only
  split
  · next hlt => exact .inl ⟨hlt, rfl⟩
  · next hlast => exact .inr ⟨Nat.le_of_not_lt hlast, rfl⟩

theorem establish_cases (d : Connection) :
    d.isDisconnected = true ∧ d.establish = { d with phase := .ended } ∨
      d.isDisconnected = false ∧
        d.establish = { d with state := .connected, phase := .opened .seek } := by
  unfold Connection.establish
  cases h : d.isDisconnected with
  | true => exact .inl ⟨rfl, rfl⟩
  | false => exact .inr ⟨rfl, rfl⟩

theorem Sound.refused (h : s.Sound c) {k : Nat} (dialing : s.connection.phase = .dialing k)
    (trying : s.stage = .trying) :
    Sound c { s with
      stage := .idle
      failures := s.failures + 1
      connection := s.connection.attemptFailed } := by
  obtain ⟨hfailures, hk, hattempts⟩ := h.dialing k dialing
  rw [if_neg (by rw [trying]; nofun)] at hattempts
  have hcount : s.failures + 1 ≤ s.attempts := by omega
  rcases attemptFailed_cases dialing with ⟨hlt, heq⟩ | ⟨_, heq⟩
  · rw [heq]
    rw [h.retries] at hlt
    refine ⟨h.retries, by rintro _ ⟨⟩, h.unused, fun j hj => ?_, h.attempts, hcount,
      fun hf => ?_⟩
    · cases hj
      exact ⟨congrArg (· + 1) hfailures, hlt, hattempts⟩
    · have hlimit : s.failures + 1 = c.connectRetries + 1 := hf
      omega
  · rw [heq]
    exact ⟨h.retries, by rintro _ ⟨⟩, h.unused, by rintro _ ⟨⟩, h.attempts, hcount, fun _ => rfl⟩

theorem Sound.recorded (h : s.Sound c) :
    Sound c { s with
      recorded := s.recorded || s.connection.isLive
      connection := s.connection.establish } := by
  rcases establish_cases s.connection with ⟨hdead, heq⟩ | ⟨hlive, heq⟩
  · rw [heq]
    exact ⟨h.retries, by rintro _ ⟨⟩, fun hr => h.unused (Bool.or_eq_false_iff.mp hr).1,
      by rintro _ ⟨⟩, h.attempts, h.failures, fun _ => hdead⟩
  · have hrecorded : (s.recorded || s.connection.isLive) = true := by
      rw [Connection.isLive, hlive, Bool.not_false, Bool.or_true]
    rw [heq, hrecorded]
    refine ⟨h.retries, fun _ _ => rfl, by rintro ⟨⟩, by rintro _ ⟨⟩, h.attempts, h.failures,
      fun hf => ?_⟩
    rw [h.exhausted hf] at hlive
    cases hlive

theorem Sound.step (h : s.Sound c) (e : Event) : (s.step e).Sound c := by
  have hm := s.moves_step e
  generalize s.step e = t at hm
  cases hm with
  | nothing => exact h
  | owned d steady =>
    exact ⟨steady.retries.trans h.retries, fun x hx => (steady.opened x hx).elim h.opened, h.unused,
      fun k hk => h.dialing k (steady.dialing k hk), h.attempts, h.failures,
      fun hf => steady.dead (h.exhausted hf)⟩
  | used d steady hopen written read =>
    obtain ⟨x, hx⟩ := isOpen_iff.mp hopen
    have hrecorded := h.opened x hx
    refine ⟨steady.retries.trans h.retries, fun _ _ => hrecorded, fun hr => ?_,
      fun k hk => h.dialing k (steady.dialing k hk), h.attempts, h.failures,
      fun hf => steady.dead (h.exhausted hf)⟩
    cases hrecorded.symm.trans hr
  | began k dialing idle =>
    obtain ⟨hfailures, hk, hattempts⟩ := h.dialing k dialing
    rw [if_pos idle] at hattempts
    refine ⟨h.retries, h.opened, h.unused, fun j hj => ?_, ?_, Nat.le_succ_of_le h.failures,
      h.exhausted⟩
    · cases dialing.symm.trans hj
      exact ⟨hfailures, hk, congrArg (· + 1) hattempts⟩
    · show s.attempts + 1 ≤ c.connectRetries + 1
      omega
  | refused k dialing trying => exact h.refused dialing trying
  | connected trying =>
    refine ⟨h.retries, h.opened, h.unused, fun k hk => ?_, h.attempts, h.failures, h.exhausted⟩
    obtain ⟨hfailures, hle, hattempts⟩ := h.dialing k hk
    rw [trying] at hattempts
    exact ⟨hfailures, hle, hattempts⟩
  | recorded => exact h.recorded

theorem Sound.after (h : s.Sound c) (events : List Event) : (s.after events).Sound c := by
  induction events using List.reverseRecOn with
  | nil => exact h
  | append_singleton events e ih =>
    rw [after_concat]
    exact ih.step e

/-! ## The end -/

/-- A disconnected connection stays so, and does not record a stream anymore. -/
theorem dead_step (h : s.connection.isDisconnected = true) (e : Event) :
    (s.step e).connection.isDisconnected = true ∧ (s.step e).recorded = s.recorded := by
  have hm := s.moves_step e
  generalize s.step e = t at hm
  cases hm with
  | nothing | began | connected => exact ⟨h, rfl⟩
  | owned d steady | used d steady => exact ⟨steady.dead h, rfl⟩
  | refused k dialing =>
    refine ⟨?_, rfl⟩
    rcases attemptFailed_cases dialing with ⟨_, heq⟩ | ⟨_, heq⟩
    · rw [heq]
      exact h
    · rw [heq]
      rfl
  | recorded =>
    rcases establish_cases s.connection with ⟨_, heq⟩ | ⟨hlive, _⟩
    · refine ⟨?_, ?_⟩
      · rw [heq]
        exact h
      · rw [Connection.isLive, h, Bool.not_true, Bool.or_false]
    · cases hlive.symm.trans h

theorem dead_after (h : s.connection.isDisconnected = true) (events : List Event) :
    (s.after events).connection.isDisconnected = true ∧
      (s.after events).recorded = s.recorded := by
  induction events using List.reverseRecOn with
  | nil => exact ⟨h, rfl⟩
  | append_singleton events e ih =>
    rw [after_concat]
    obtain ⟨hdead, hrecorded⟩ := dead_step ih.1 e
    exact ⟨hdead, hrecorded.trans ih.2⟩

/-- How the life of a connection can go on. -/
structure Lifespan (c : Config) (s : Life) (later : List Event) : Prop where
  /-- a disconnected connection stays disconnected, and takes no message -/
  final : s.connection.isDisconnected = true →
    (s.after later).connection.isDisconnected = true ∧
      ∀ data, ((s.after later).connection.send data).1 = false
  /-- if it is disconnected before its stream was recorded, then nothing is written to the stream
  and nothing read -/
  unused : s.connection.isDisconnected = true → s.recorded = false →
    (s.after later).written = [] ∧ (s.after later).read = []
  /-- and if it is closed before, then it is disconnected -/
  closed : s.recorded = false →
    (s.after (.close :: later)).connection.isDisconnected = true ∧
      (s.after (.close :: later)).written = [] ∧ (s.after (.close :: later)).read = []
  attempts : (s.after later).attempts ≤ c.connectRetries + 1
  /-- after as many failures it is disconnected -/
  exhausted : (s.after later).failures = c.connectRetries + 1 →
    (s.after later).connection.isDisconnected = true
  /-- after fewer, the next attempt is possible -/
  retried : s.isDialing .trying = true → s.failures < c.connectRetries →
    (s.after [.refused, .dial]).isDialing .trying = true ∧
      (s.after [.refused, .dial]).attempts = s.attempts + 1

theorem Sound.lifespan (h : s.Sound c) (later : List Event) : s.Lifespan c later where
  final hdead := by
    have hfinal := (dead_after hdead later).1
    exact ⟨hfinal, Connection.send_of_isDisconnected hfinal⟩
  unused hdead hr := (h.after later).unused ((dead_after hdead later).2.trans hr)
  closed hr := by
    have hclosed : (s.step .close).connection.isDisconnected = true := rfl
    obtain ⟨hdead, hrecorded⟩ := dead_after hclosed later
    exact ⟨hdead, ((h.step .close).after later).unused (hrecorded.trans hr)⟩
  attempts := (h.after later).attempts
  exhausted := (h.after later).exhausted
  retried htrying hfew := by
    obtain ⟨⟨k, hk⟩, _⟩ := isDialing_iff.mp htrying
    obtain ⟨hfailures, _, _⟩ := h.dialing k hk
    rcases attemptFailed_cases hk with ⟨_, heq⟩ | ⟨hlast, _⟩
    · have hstep : s.step .refused =
          { s with
            stage := .idle
            failures := s.failures + 1
            connection := { s.connection with phase := .dialing (k + 1) } } := by
        dsimp only [Life.step]
        rw [if_pos htrying, heq]
      show ((s.step .refused).step .dial).isDialing .trying = true ∧
        ((s.step .refused).step .dial).attempts = s.attempts + 1
      rw [hstep]
      exact ⟨rfl, rfl⟩
    · rw [h.retries] at hlast
      omega

/-- Every order of events is possible: of attempts that fail or succeed, of what the owner and
the peer do, and of the ways in which a stream can end. -/
theorem lifespan_run (c : Config) (peer : SocketAddr) (outbound : Bool)
    (before later : List Event) : ((start c peer outbound).after before).Lifespan c later :=
  ((sound_start c peer outbound).after before).lifespan later

/-- A stream that comes after the close is dropped with the frame that waits for it. -/
example : ((start {} ⟨.v4 127 0 0 1, 8000, 0⟩ true).after
    [.send [0x61], .dial, .connected, .close, .record, .write 1]).written = [] := by decide

end

end Life

end Courier.Stream
